import MegaTree.Doubly.Segment

/-!
# Doubly linked lists

A doubly linked list is a pointer to its first node and one to its last.  `HasNodes` says which nodes
it has; the operations on it change one list and no other node of the memory, `Turns`.

* `HasNodes.pushFront`, `HasNodes.popBack`, `HasNodes.moveToFront` : what the operations do.
* `Family.update` : lists that share a memory do not disturb each other.
* `HasNodes.linked` : what can be seen from outside, by walking along the pointers.
-/

namespace Doubly

universe u

/-- The pointers of a list. -/
structure ListEnds (ν : Type u) where
  front : Option ν
  back : Option ν

variable {ν T : Type u}

/-- The list has the nodes `s`, in order. -/
structure HasNodes (m : Memory ν T) (e : ListEnds ν) (s : List (ν × T)) : Prop where
  front : e.front = first s
  back : e.back = last s
  seg : m.Seg none s none
  nodup : (nodes s).Nodup

/-- A call returns; it turns the nodes `s` of a list into `s'` and changes no other node. -/
def Turns (m : Memory ν T) (s s' : List (ν × T)) (r : Option (ListEnds ν × Memory ν T)) : Prop :=
  ∃ e' m', r = some (e', m') ∧ HasNodes m' e' s' ∧
    (∀ b ∈ nodes s', b ∈ nodes s ∨ m.node b = none) ∧
    ∀ b, b ∉ nodes s → b ∉ nodes s' → m'.node b = m.node b

/-- What walking along the pointers of a list shows: its nodes, in order and in opposite order. -/
structure DoublyLinked (m : Memory ν T) (e : ListEnds ν) (s : List (ν × T)) : Prop where
  forward : Walk m.next e.front (nodes s)
  backward : Walk m.previous e.back (nodes s).reverse
  front_previous : ∀ a ∈ e.front, m.previous (some a) = some none
  back_next : ∀ a ∈ e.back, m.next (some a) = some none
  object : ∀ c ∈ s, (m.node c.1).map Node.object = some c.2

variable {m m' : Memory ν T} {e : ListEnds ν} {s s' t : List (ν × T)} {a b : ν} {x : T}

theorem HasNodes.congr (h : HasNodes m e s) (hm : ∀ b ∈ nodes s, m'.node b = m.node b) :
    HasNodes m' e s where
  front := h.front
  back := h.back
  seg := h.seg.congr hm
  nodup := h.nodup

theorem HasNodes.linked (h : HasNodes m e s) : DoublyLinked m e s where
  forward := h.front ▸ h.seg.forward
  backward := h.back ▸ h.seg.backward
  front_previous a ha := by
    rw [h.front] at ha
    rcases s with - | ⟨⟨b, x⟩, s⟩
    · cases ha
    · obtain rfl := Option.some.inj ha
      exact Memory.previous_eq h.seg.1
  back_next a ha := by
    rw [h.back] at ha
    rcases List.eq_nil_or_concat s with rfl | ⟨s, ⟨b, x⟩, rfl⟩
    · cases ha
    · rw [List.concat_eq_append] at ha h
      obtain rfl : b = a := by simpa using ha
      exact Memory.next_eq (Memory.seg_split.1 h.seg).2.1
  object := by
    rintro ⟨b, x⟩ hb
    obtain ⟨s₁, s₂, rfl⟩ := List.append_of_mem hb
    rw [(Memory.seg_split.1 h.seg).2.1, Option.map_some]

theorem HasNodes.front_eq_none (h : HasNodes m e s) : e.front = none ↔ s = [] :=
  h.front ▸ first_eq_none

theorem HasNodes.back_eq_none (h : HasNodes m e s) : e.back = none ↔ s = [] :=
  h.back ▸ last_eq_none

/-- A node is at the front if there is none before it. -/
theorem HasNodes.eq_front (h : HasNodes m e (s ++ (a, x) :: t)) : some a = e.front ↔ s = [] := by
  rw [h.front, first_append, first_cons]
  constructor
  · intro heq
    by_contra hs
    obtain ⟨b, hb⟩ := Option.ne_none_iff_exists'.1 (mt first_eq_none.1 hs)
    rw [hb, Option.some_or] at heq
    obtain rfl := Option.some.inj heq
    have hnodup := h.nodup
    rw [nodes_append, nodes_cons, List.nodup_append] at hnodup
    exact hnodup.2.2 a (mem_nodes_first hb) a List.mem_cons_self rfl
  · rintro rfl
    rfl

theorem HasNodes.back_concat (h : HasNodes m e (s ++ [(a, x)])) : e.back = some a := by
  rw [h.back, last_append, last_cons]
  rfl

/-- A node is at the back if there is none behind it. -/
theorem HasNodes.eq_back (h : HasNodes m e (s ++ (a, x) :: t)) : some a = e.back ↔ t = [] := by
  rw [h.back, last_append, last_cons]
  constructor
  · intro heq
    by_contra ht
    obtain ⟨b, hb⟩ := Option.ne_none_iff_exists'.1 (mt last_eq_none.1 ht)
    rw [hb, Option.some_or, Option.some_or] at heq
    obtain rfl := Option.some.inj heq
    have hnodup := h.nodup
    rw [nodes_append, nodes_cons, List.nodup_append, List.nodup_cons] at hnodup
    exact hnodup.2.1.1 (mem_nodes_last hb)
  · rintro rfl
    rfl

theorem HasNodes.front_unlink (h : HasNodes m e (s ++ (a, x) :: t)) (hs : s ≠ []) :
    e.front = first (s ++ t) := by
  rw [h.front, first_append_of_ne_nil hs, first_append_of_ne_nil hs]

theorem HasNodes.back_unlink (h : HasNodes m e (s ++ (a, x) :: t)) (ht : t ≠ []) :
    e.back = last (s ++ t) := by
  rw [h.back, List.append_cons, last_append_of_ne_nil ht, last_append_of_ne_nil ht]

/-! ### Operations -/

variable [DecidableEq ν]

/-- A new node, at the address `a`, is put before the others. -/
def ListEnds.pushFront (e : ListEnds ν) (x : T) (a : ν) (m : Memory ν T) :
    Option (ListEnds ν × Memory ν T) := do
  let m := m.store a ⟨x, none, e.front⟩
  let m ← m.linkPrevious e.front (some a)
  some (⟨some a, if e.back.isNone then some a else e.back⟩, m)

/-- The last node is taken off a list that has one. -/
def ListEnds.popBack (e : ListEnds ν) (m : Memory ν T) : Option (ListEnds ν × Memory ν T) := do
  let newBack ← m.previous e.back
  let front := if e.front = e.back then none else e.front
  let m ← m.linkNext newBack none
  some (⟨front, newBack⟩, m)

/-- A node of the list is put before the others. -/
def ListEnds.moveToFront (e : ListEnds ν) (a : ν) (m : Memory ν T) :
    Option (ListEnds ν × Memory ν T) := do
  if some a = e.front then
    return (e, m)
  let m ← m.setNext (← m.previous (some a)) (← m.next (some a))
  let (back, m) ←
    if some a = e.back then do
      let back ← m.previous (some a)
      some (back, m)
    else do
      let m ← m.setPrevious (← m.next (some a)) (← m.previous (some a))
      some (e.back, m)
  let m ← m.setPrevious (some a) none
  let m ← m.setNext (some a) e.front
  let m ← m.setPrevious e.front (some a)
  some (⟨some a, back⟩, m)

open Memory

omit [DecidableEq ν] in
theorem HasNodes.not_mem_nodes (h : HasNodes m e s) (ha : m.node a = none) : a ∉ nodes s := by
  intro hmem
  have hsome := h.seg.isSome hmem
  rw [ha] at hsome
  cases hsome

theorem HasNodes.pushFront (h : HasNodes m e s) (ha : m.node a = none) (x : T) :
    Turns m s ((a, x) :: s) (e.pushFront x a m) := by
  have hmem := h.not_mem_nodes ha
  obtain ⟨m', hm', hseg, hframe⟩ := (h.seg.store hmem ⟨x, none, e.front⟩).link_first h.nodup
    (by rw [store_self, h.front]) hmem
  rw [← h.front] at hm'
  refine ⟨⟨some a, if e.back.isNone then some a else e.back⟩, m', ?_, ⟨rfl, ?_, hseg, ?_⟩, ?_, ?_⟩
  · simp only [ListEnds.pushFront, hm', Option.bind_eq_bind, Option.bind_some]
  · rw [h.back, last_cons]
    cases last s <;> rfl
  · exact List.nodup_cons.2 ⟨hmem, h.nodup⟩
  · intro b hb
    rcases List.mem_cons.1 hb with rfl | hb
    · exact .inr ha
    · exact .inl hb
  · intro b hb hb'
    exact (hframe b hb).trans (store_of_ne _ (List.ne_of_not_mem_cons hb'))

theorem HasNodes.popBack (h : HasNodes m e (s ++ [(a, x)])) :
    ∃ e' m', e.popBack m = some (e', m') ∧ HasNodes m' e' s ∧
      ∀ b ∉ nodes s, m'.node b = m.node b := by
  obtain ⟨hbefore, hnode, -⟩ := seg_split.1 h.seg
  have hnodup := h.nodup
  rw [nodes_append, List.nodup_append] at hnodup
  have hback := h.back_concat
  obtain ⟨m', hm', hseg, hframe⟩ := hbefore.relink_last hnodup.1 none
  rw [Option.or_none] at hnode
  refine ⟨⟨if e.front = e.back then none else e.front, last s⟩, m', ?_,
    ⟨?_, rfl, hseg, hnodup.1⟩, hframe⟩
  · simp only [ListEnds.popBack, hback, previous_eq hnode, hm', Option.bind_eq_bind,
      Option.bind_some]
  · have hone : e.front = e.back ↔ s = [] := by rw [hback, eq_comm, h.eq_front]
    simp only [hone]
    split_ifs with hs
    · rw [hs, first_nil]
    · rw [h.front, first_append_of_ne_nil hs]

theorem HasNodes.moveToFront (h : HasNodes m e (s ++ (a, x) :: t)) :
    Turns m (s ++ (a, x) :: t) ((a, x) :: (s ++ t)) (e.moveToFront a m) := by
  by_cases hs : s = []
  · subst hs
    refine ⟨e, m, if_pos (h.eq_front.2 rfl), h, fun b hb => .inl hb, fun _ _ _ => rfl⟩
  have hfront : some a ≠ e.front := mt h.eq_front.1 hs
  obtain ⟨m₁, m₂, hm₁, hm₂, hnode₁, hnode₂, hseg, hframe⟩ := h.seg.unlink h.nodup
  obtain ⟨-, hnode, -⟩ := seg_split.1 h.seg
  rw [Option.or_none, Option.or_none] at hnode
  have hnodup := nodup_unlink h.nodup
  have hfirst := h.front_unlink hs
  have hne : s ++ t ≠ [] := mt List.append_eq_nil_iff.1 fun h => hs h.1
  obtain ⟨m', hm', hseg', hframe'⟩ := ((hseg.store hnodup.1 ⟨x, none, first t⟩).store hnodup.1
    ⟨x, none, e.front⟩).link_first hnodup.2 (by rw [store_self, hfirst]) hnodup.1
  rw [← hfirst, linkPrevious_eq (hfirst ▸ mt first_eq_none.1 hne)] at hm'
  rw [linkNext_eq (mt last_eq_none.1 hs)] at hm₁
  refine ⟨⟨some a, last (s ++ t)⟩, m', ?_, ⟨rfl, ?_, hseg', List.nodup_cons.2 hnodup⟩, ?_, ?_⟩
  · have hback := h.eq_back
    by_cases ht : t = []
    · subst ht
      obtain rfl := Option.some.inj hm₂
      simp only [ListEnds.moveToFront, if_neg hfront, if_pos (hback.2 rfl), previous_eq hnode,
        next_eq hnode, hm₁, previous_eq hnode₁, setPrevious_eq hnode₁, setNext_eq (store_self _),
        hm', Option.bind_eq_bind, Option.bind_some, List.append_nil]
    · rw [linkPrevious_eq (mt first_eq_none.1 ht)] at hm₂
      simp only [ListEnds.moveToFront, if_neg hfront, if_neg (mt hback.1 ht), previous_eq hnode,
        next_eq hnode, hm₁, previous_eq hnode₁, next_eq hnode₁, hm₂, setPrevious_eq hnode₂,
        setNext_eq (store_self _), hm', Option.bind_eq_bind, Option.bind_some]
      rw [h.back_unlink ht]
  · exact (last_append_of_ne_nil (s := [(a, x)]) hne).symm
  · intro b hb
    exact .inl (mem_unlink.2 (List.mem_cons.1 hb))
  · intro b hb _
    obtain ⟨hne, hb⟩ := not_or.1 (mt mem_unlink.2 hb)
    rw [hframe' b hb, store_of_ne _ hne, store_of_ne _ hne, hframe b hb]

theorem HasNodes.setObject (h : HasNodes m e (s ++ (a, x) :: t)) (y : T) :
    ∃ m', m.setObject (some a) y = some m' ∧ HasNodes m' e (s ++ (a, y) :: t) ∧
      ∀ b ≠ a, m'.node b = m.node b := by
  obtain ⟨m', hm', hseg, hframe⟩ := h.seg.setObject h.nodup y
  refine ⟨m', hm', ⟨?_, ?_, hseg, ?_⟩, hframe⟩
  · rw [h.front, first_append, first_append, first_cons, first_cons]
  · rw [h.back, last_append, last_append, last_cons, last_cons]
  · have hnodup := h.nodup
    rwa [nodes_append, nodes_cons] at hnodup ⊢

/-- The node that is not in the list any more is deleted. -/
theorem HasNodes.delete (h : HasNodes m e s) (hmem : a ∉ nodes s) (ha : (m.node a).isSome) :
    ∃ m', m.delete (some a) = some m' ∧ HasNodes m' e s ∧ ∀ b ≠ a, m'.node b = m.node b := by
  obtain ⟨c, hc⟩ := Option.isSome_iff_exists.1 ha
  have hframe (b : ν) (hb : b ≠ a) : Function.update m.node a none b = m.node b :=
    Function.update_of_ne hb ..
  exact ⟨_, delete_eq hc, h.congr fun b hb => hframe b fun heq => hmem (heq ▸ hb), hframe⟩

/-! ### Lists that share a memory -/

section Family

variable {ι : Type*} {L : ι → ListEnds ν} {S : ι → List (ν × T)}

omit [DecidableEq ν] in
/-- The lists have the nodes `S`, and no two of them share a node. -/
structure Family (m : Memory ν T) (L : ι → ListEnds ν) (S : ι → List (ν × T)) : Prop where
  holds : ∀ i, HasNodes m (L i) (S i)
  disjoint : ∀ i j, i ≠ j → (nodes (S i)).Disjoint (nodes (S j))

variable [DecidableEq ι]

omit [DecidableEq ν] in
/-- A call on one list does not disturb the others. -/
theorem Family.update (h : Family m L S) {i : ι} {r : Option (ListEnds ν × Memory ν T)}
    (hr : Turns m (S i) s' r) :
    ∃ e' m', r = some (e', m') ∧
      Family m' (Function.update L i e') (Function.update S i s') := by
  obtain ⟨e', m', hret, hholds, hnew, hframe⟩ := hr
  have hoff (j : ι) (hj : j ≠ i) (b : ν) (hb : b ∈ nodes (S j)) : b ∉ nodes s' := by
    intro hmem
    rcases hnew b hmem with hold | hnone
    · exact h.disjoint j i hj hb hold
    · exact (h.holds j).not_mem_nodes hnone hb
  refine ⟨e', m', hret, ⟨fun j => ?_, fun j k hjk => ?_⟩⟩
  · by_cases hj : j = i
    · subst hj
      rwa [Function.update_self, Function.update_self]
    · rw [Function.update_of_ne hj, Function.update_of_ne hj]
      exact (h.holds j).congr fun b hb =>
        hframe b (h.disjoint j i hj hb) (hoff j hj b hb)
  · by_cases hj : j = i
    · subst hj
      rw [Function.update_self, Function.update_of_ne hjk.symm]
      exact fun b hb hb' => hoff k hjk.symm b hb' hb
    · by_cases hk : k = i
      · subst hk
        rw [Function.update_self, Function.update_of_ne hj]
        exact fun b hb hb' => hoff j hj b hb hb'
      · rw [Function.update_of_ne hj, Function.update_of_ne hk]
        exact h.disjoint j k hjk

omit [DecidableEq ν] in
/-- One list gets the nodes of another, which loses them. -/
theorem Family.merge (h : Family m L S) {i j : ι} (hij : i ≠ j)
    (hi : HasNodes m e (S i ++ S j)) :
    Family m (Function.update (Function.update L i e) j ⟨none, none⟩)
      (Function.update (Function.update S i (S i ++ S j)) j []) where
  holds k := by
    by_cases hk : k = j
    · subst hk
      rw [Function.update_self, Function.update_self]
      exact ⟨rfl, rfl, seg_nil, List.nodup_nil⟩
    · rw [Function.update_of_ne hk, Function.update_of_ne hk]
      by_cases hki : k = i
      · subst hki
        rwa [Function.update_self, Function.update_self]
      · rw [Function.update_of_ne hki, Function.update_of_ne hki]
        exact h.holds k
  disjoint := by
    -- a node is in one list, and those of `j` are in `i` now
    have howner {k : ι} {b : ν}
        (hb : b ∈ nodes (Function.update (Function.update S i (S i ++ S j)) j [] k)) :
        ∃ k', b ∈ nodes (S k') ∧ k = if k' = j then i else k' := by
      by_cases hk : k = j
      · subst hk
        rw [Function.update_self] at hb
        cases hb
      · rw [Function.update_of_ne hk] at hb
        by_cases hki : k = i
        · subst hki
          rw [Function.update_self, nodes_append, List.mem_append] at hb
          rcases hb with hb | hb
          · exact ⟨k, hb, (if_neg hk).symm⟩
          · exact ⟨j, hb, (if_pos rfl).symm⟩
        · rw [Function.update_of_ne hki] at hb
          exact ⟨k, hb, (if_neg hk).symm⟩
    intro k₁ k₂ hne b hb₁ hb₂
    obtain ⟨k₁', hk₁, rfl⟩ := howner hb₁
    obtain ⟨k₂', hk₂, rfl⟩ := howner hb₂
    by_cases heq : k₁' = k₂'
    · exact hne (heq ▸ rfl)
    · exact h.disjoint k₁' k₂' heq hk₁ hk₂

end Family

end Doubly
