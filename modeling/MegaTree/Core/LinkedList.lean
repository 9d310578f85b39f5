import MegaTree.Effect.Transition
import MegaTree.Doubly.ListEnds

/-!
# The linked list

`List` of `list.h`, on a memory of nodes, and programs that use any number of such lists.  A program
sees what it would see with ordinary sequences, as long as it does not splice two lists that both
have nodes.

* `LinkedList.pushBack_turns`, …, `LinkedList.moveToBack_turns`, `LinkedList.spliceToBack_holds` :
  what the functions do.
* `Lists.Good.call` : one call; `lists_linked` : whole programs.
* `Lists.Good.splice_breaks` : splicing two lists that both have nodes.
-/

namespace MegaTree

open Doubly Doubly.Memory Effect

variable {ν T : Type} [DecidableEq ν]

namespace LinkedList

/-- `push_front`; the new node is at the address `node`. -/
def pushFront (l : ListEnds ν) (object : T) (node : ν) (m : Memory ν T) :
    Option (ListEnds ν × Memory ν T) :=
  l.pushFront object node m

/-- `push_back` -/
def pushBack (l : ListEnds ν) (object : T) (node : ν) (m : Memory ν T) :
    Option (ListEnds ν × Memory ν T) := do
  let m := m.store node ⟨object, l.back, none⟩
  let m ← m.linkNext l.back (some node)
  some (⟨if l.front.isNone then some node else l.front, some node⟩, m)

/-- `pop_front` -/
def popFront (l : ListEnds ν) (m : Memory ν T) : Option (ListEnds ν × Memory ν T) := do
  if l.front = none then
    return (l, m)
  let newFront ← m.next l.front
  let m ← m.linkPrevious newFront none
  let back := if l.front = l.back then none else l.back
  let m ← m.delete l.front
  some (⟨newFront, back⟩, m)

/-- `pop_back` -/
def popBack (l : ListEnds ν) (m : Memory ν T) : Option (ListEnds ν × Memory ν T) := do
  if l.back = none then
    return (l, m)
  let (l', m) ← l.popBack m
  let m ← m.delete l.back
  some (l', m)

def erase (l : ListEnds ν) (node : ν) (m : Memory ν T) : Option (ListEnds ν × Memory ν T) := do
  let (l, m) ←
    if some node = l.front ∧ some node = l.back then
      some (⟨none, none⟩, m)
    else if some node = l.front then do
      let front ← m.next (some node)
      let m ← m.setPrevious (← m.next (some node)) none
      some (⟨front, l.back⟩, m)
    else if some node = l.back then do
      let back ← m.previous (some node)
      let m ← m.setNext (← m.previous (some node)) none
      some (⟨l.front, back⟩, m)
    else do
      let m ← m.setNext (← m.previous (some node)) (← m.next (some node))
      let m ← m.setPrevious (← m.next (some node)) (← m.previous (some node))
      some (l, m)
  let m ← m.delete (some node)
  some (l, m)

def moveToFront (l : ListEnds ν) (node : ν) (m : Memory ν T) : Option (ListEnds ν × Memory ν T) :=
  l.moveToFront node m

def moveToBack (l : ListEnds ν) (node : ν) (m : Memory ν T) : Option (ListEnds ν × Memory ν T) := do
  if some node = l.back then
    return (l, m)
  let m ← m.linkNext (← m.previous (some node)) (← m.next (some node))
  let m ← m.linkPrevious (← m.next (some node)) (← m.previous (some node))
  let front ← if some node = l.front then m.next (some node) else some l.front
  let m ← m.setNext (some node) none
  let m ← m.setPrevious (some node) l.back
  let m ← m.linkNext l.back (some node)
  some (⟨front, some node⟩, m)

/-- `spliceToBack`; the spliced list comes second, also in what is returned. -/
def spliceToBack (l spliceList : ListEnds ν) (m : Memory ν T) :
    Option (ListEnds ν × ListEnds ν × Memory ν T) := do
  let m ←
    if l.back.isSome ∧ spliceList.front.isSome then m.setNext l.back spliceList.front
    else some m
  let back := if spliceList.back.isSome then spliceList.back else l.back
  let front := if l.front.isNone ∧ spliceList.front.isSome then spliceList.front else l.front
  some (⟨front, back⟩, ⟨none, none⟩, m)

variable {m : Memory ν T} {l l' : ListEnds ν} {s t : List (ν × T)} {node : ν} {object : T}

theorem pushBack_turns (h : HasNodes m l s) (ha : m.node node = none) (object : T) :
    Turns m s (s ++ [(node, object)]) (pushBack l object node m) := by
  have hmem := h.not_mem_nodes ha
  obtain ⟨m', hm', hseg, hframe⟩ := (h.seg.store hmem ⟨object, l.back, none⟩).link_last h.nodup
    (by rw [store_self, h.back]) hmem
  rw [← h.back] at hm'
  refine ⟨⟨if l.front.isNone then some node else l.front, some node⟩, m', ?_,
    ⟨?_, ?_, hseg, ?_⟩, ?_, ?_⟩
  · simp only [pushBack, hm', Option.bind_eq_bind, Option.bind_some]
  · rw [h.front, first_append]
    cases first s <;> rfl
  · exact (last_append_of_ne_nil (s := s) (t := [(node, object)]) (List.cons_ne_nil _ _)).symm
  · rw [nodes_append, nodes_cons, nodes_nil, ← List.concat_eq_append]
    exact h.nodup.concat hmem
  · intro b hb
    rcases List.mem_append.1 (nodes_append s _ ▸ hb) with hb | hb
    · exact .inl hb
    · obtain rfl := List.mem_singleton.1 hb
      exact .inr ha
  · intro b hb hb'
    rw [nodes_append, List.mem_append, not_or] at hb'
    exact (hframe b hb).trans (store_of_ne _ (List.ne_of_not_mem_cons hb'.2))

theorem popFront_turns (h : HasNodes m l s) : Turns m s s.tail (popFront l m) := by
  rcases s with - | ⟨⟨a, x⟩, s⟩
  · exact ⟨l, m, if_pos h.front, h, fun _ hb => .inl hb, fun _ _ _ => rfl⟩
  · obtain ⟨hnode, hrest⟩ := h.seg
    have hnodup := List.nodup_cons.1 h.nodup
    have hfront : l.front = some a := h.front
    rw [Option.or_none] at hnode
    obtain ⟨m₁, hm₁, hseg, hframe₁⟩ := hrest.relink_first hnodup.2 none
    have hone : l.front = l.back ↔ s = [] := hfront ▸ h.eq_back (s := [])
    have hholds : HasNodes m₁ ⟨first s, if l.front = l.back then none else l.back⟩ s := by
      refine ⟨rfl, ?_, hseg, hnodup.2⟩
      simp only [hone]
      split_ifs with hs
      · rw [hs, last_nil]
      · rw [h.back]
        exact last_append_of_ne_nil (s := [(a, x)]) hs
    obtain ⟨m', hm', hholds', hframe⟩ := hholds.delete (a := a) hnodup.1
      (by rw [hframe₁ a hnodup.1, hnode, Option.isSome_some])
    refine ⟨_, m', ?_, hholds', fun b hb => .inl (List.mem_cons_of_mem _ hb), fun b hb hb' => ?_⟩
    · simp only [popFront, hfront, reduceCtorEq, if_false, next_eq hnode, hm₁, hm',
        Option.bind_eq_bind, Option.bind_some]
    · exact (hframe b (List.ne_of_not_mem_cons hb)).trans (hframe₁ b hb')

theorem popBack_turns (h : HasNodes m l s) : Turns m s s.dropLast (popBack l m) := by
  rcases List.eq_nil_or_concat s with rfl | ⟨s, ⟨a, x⟩, rfl⟩
  · exact ⟨l, m, if_pos h.back, h, fun _ hb => .inl hb, fun _ _ _ => rfl⟩
  · rw [List.concat_eq_append, List.dropLast_concat] at *
    have hback := h.back_concat
    have hmem := (nodup_unlink h.nodup).1
    rw [List.append_nil] at hmem
    obtain ⟨l', m₁, hm₁, hholds, hframe₁⟩ := h.popBack
    obtain ⟨m', hm', hholds', hframe⟩ := hholds.delete hmem
      (by rw [hframe₁ a hmem]; exact h.seg.isSome (by simp))
    refine ⟨l', m', ?_, hholds', fun b hb => .inl (by simp [hb]), fun b hb hb' => ?_⟩
    · simp only [popBack, hback, reduceCtorEq, if_false, hm₁, hm', Option.bind_eq_bind,
        Option.bind_some]
    · refine (hframe b ?_).trans (hframe₁ b hb')
      rintro rfl
      exact hb (by simp)

theorem erase_turns (h : HasNodes m l (s ++ (node, object) :: t)) :
    Turns m (s ++ (node, object) :: t) (s ++ t) (erase l node m) := by
  obtain ⟨-, hnode, -⟩ := seg_split.1 h.seg
  rw [Option.or_none, Option.or_none] at hnode
  obtain ⟨m₁, m₂, hm₁, hm₂, hnode₁, hnode₂, hseg, hframe⟩ := h.seg.unlink h.nodup
  have hnodup := nodup_unlink h.nodup
  have hholds : HasNodes m₂ ⟨first (s ++ t), last (s ++ t)⟩ (s ++ t) := ⟨rfl, rfl, hseg, hnodup.2⟩
  obtain ⟨m', hm', hholds', hframe'⟩ := hholds.delete hnodup.1
    (by rw [hnode₂, Option.isSome_some])
  refine ⟨_, m', ?_, hholds', fun b hb => .inl (mem_unlink.2 (.inr hb)), fun b hb _ => ?_⟩
  · have hfront := h.eq_front
    have hback := h.eq_back
    by_cases hs : s = [] <;> by_cases ht : t = []
    · subst hs ht
      obtain rfl := Option.some.inj hm₁
      obtain rfl := Option.some.inj hm₂
      simp only [erase, hfront, hback, and_self, if_true, hm', Option.bind_eq_bind,
        Option.bind_some, List.append_nil, first_nil, last_nil]
    · subst hs
      obtain rfl := Option.some.inj hm₁
      rw [linkPrevious_eq (mt first_eq_none.1 ht)] at hm₂
      rw [last_nil] at hm₂
      simp only [erase, hfront, hback, ht, and_false, if_true, if_false, next_eq hnode, hm₂, hm',
        Option.bind_eq_bind, Option.bind_some]
      rw [h.back_unlink ht, List.nil_append]
    · subst ht
      obtain rfl := Option.some.inj hm₂
      rw [linkNext_eq (mt last_eq_none.1 hs)] at hm₁
      rw [first_nil] at hm₁
      simp only [erase, hfront, hback, hs, false_and, if_true, if_false, previous_eq hnode, hm₁,
        hm', Option.bind_eq_bind, Option.bind_some]
      rw [h.front_unlink hs, List.append_nil]
    · rw [linkPrevious_eq (mt first_eq_none.1 ht)] at hm₂
      rw [linkNext_eq (mt last_eq_none.1 hs)] at hm₁
      simp only [erase, hfront, hback, hs, ht, false_and, if_false, previous_eq hnode,
        next_eq hnode, hm₁, next_eq hnode₁, previous_eq hnode₁, hm₂, hm', ← h.front_unlink hs,
        ← h.back_unlink ht, Option.bind_eq_bind, Option.bind_some]
  · obtain ⟨hne, hb⟩ := not_or.1 (mt mem_unlink.2 hb)
    exact (hframe' b hne).trans (hframe b hb)

theorem moveToBack_turns (h : HasNodes m l (s ++ (node, object) :: t)) :
    Turns m (s ++ (node, object) :: t) (s ++ t ++ [(node, object)]) (moveToBack l node m) := by
  by_cases ht : t = []
  · subst ht
    rw [List.append_nil]
    exact ⟨l, m, if_pos (h.eq_back.2 rfl), h, fun b hb => .inl hb, fun _ _ _ => rfl⟩
  have hback : some node ≠ l.back := mt h.eq_back.1 ht
  have hlast := h.back_unlink ht
  obtain ⟨-, hnode, -⟩ := seg_split.1 h.seg
  rw [Option.or_none, Option.or_none] at hnode
  obtain ⟨m₁, m₂, hm₁, hm₂, hnode₁, hnode₂, hseg, hframe⟩ := h.seg.unlink h.nodup
  have hnodup := nodup_unlink h.nodup
  obtain ⟨m', hm', hseg', hframe'⟩ := ((hseg.store hnodup.1 ⟨object, last s, none⟩).store hnodup.1
    ⟨object, l.back, none⟩).link_last hnodup.2 (by rw [store_self, hlast]) hnodup.1
  rw [← hlast] at hm'
  have hne : s ++ t ≠ [] := mt List.append_eq_nil_iff.1 fun h => ht h.2
  refine ⟨⟨first (s ++ t ++ [(node, object)]), some node⟩, m', ?_, ⟨rfl, ?_, hseg', ?_⟩, ?_, ?_⟩
  · simp only [moveToBack, if_neg hback, previous_eq hnode, next_eq hnode, hm₁,
      previous_eq hnode₁, next_eq hnode₁, hm₂, next_eq hnode₂, setNext_eq hnode₂,
      setPrevious_eq (store_self _), hm', Option.bind_eq_bind, Option.bind_some]
    split_ifs with hfirst
    · obtain rfl := h.eq_front.1 hfirst
      rw [first_append_of_ne_nil hne, List.nil_append]
    · rw [first_append_of_ne_nil hne, h.front_unlink (mt h.eq_front.2 hfirst)]
  · rw [last_append]
    rfl
  · rw [nodes_append, nodes_cons, nodes_nil, ← List.concat_eq_append]
    exact hnodup.2.concat hnodup.1
  · intro b hb
    rw [nodes_append, List.mem_append, nodes_cons, nodes_nil, List.mem_singleton, or_comm] at hb
    exact .inl (mem_unlink.2 hb)
  · intro b hb _
    obtain ⟨hne, hb⟩ := not_or.1 (mt mem_unlink.2 hb)
    rw [hframe' b hb, store_of_ne _ hne, store_of_ne _ hne, hframe b hb]

/-- Splicing is right if one of the two lists has no nodes. -/
theorem spliceToBack_holds (h : HasNodes m l s) (h' : HasNodes m l' t) (hempty : s = [] ∨ t = []) :
    ∃ l₁, spliceToBack l l' m = some (l₁, ⟨none, none⟩, m) ∧ HasNodes m l₁ (s ++ t) := by
  have hnone (e : ListEnds ν) (he : HasNodes m e []) : e = ⟨none, none⟩ := by
    cases e
    rw [ListEnds.mk.injEq]
    exact ⟨he.front, he.back⟩
  rcases hempty with rfl | rfl
  · obtain rfl := hnone l h
    refine ⟨l', ?_, h'⟩
    obtain ⟨front, back⟩ := l'
    cases front <;> cases back <;> rfl
  · obtain rfl := hnone l' h'
    refine ⟨l, ?_, (List.append_nil s).symm ▸ h⟩
    obtain ⟨front, back⟩ := l
    cases front <;> cases back <;> rfl

end LinkedList

/-! ### Programs -/

/-- The calls on the lists `ι`.  A new node gets an address from the allocator. -/
inductive ListCall (ι ν T : Type) where
  | pushFront (i : ι) (object : T) (node : ν)
  | pushBack (i : ι) (object : T) (node : ν)
  | popFront (i : ι)
  | popBack (i : ι)
  | erase (i : ι) (node : ν)
  | moveToFront (i : ι) (node : ν)
  | moveToBack (i : ι) (node : ν)
  | spliceToBack (i splice : ι)

/-- The lists of a program; beside them the ordinary sequences that the same calls make. -/
structure Lists (ι ν T : Type) where
  memory : Memory ν T
  list : ι → ListEnds ν
  sequence : ι → List (ν × T)

variable {ι : Type} [DecidableEq ι]

namespace Lists

/-- What a call does to ordinary sequences of nodes. -/
def order (S : ι → List (ν × T)) : ListCall ι ν T → ι → List (ν × T)
  | .pushFront i object node => Function.update S i ((node, object) :: S i)
  | .pushBack i object node => Function.update S i (S i ++ [(node, object)])
  | .popFront i => Function.update S i (S i).tail
  | .popBack i => Function.update S i (S i).dropLast
  | .erase i node => Function.update S i ((S i).filter (·.1 ≠ node))
  | .moveToFront i node =>
    Function.update S i ((S i).filter (·.1 = node) ++ (S i).filter (·.1 ≠ node))
  | .moveToBack i node =>
    Function.update S i ((S i).filter (·.1 ≠ node) ++ (S i).filter (·.1 = node))
  | .spliceToBack i splice => Function.update (Function.update S i (S i ++ S splice)) splice []

/-- One list is changed. -/
def on (P : Lists ι ν T) (i : ι) (f : ListEnds ν → Memory ν T → Option (ListEnds ν × Memory ν T))
    (S : ι → List (ν × T)) : Option (Lists ι ν T) := do
  let (l, m) ← f (P.list i) P.memory
  some ⟨m, Function.update P.list i l, S⟩

/-- One call; `none` if it goes through a pointer to no node. -/
def call (c : ListCall ι ν T) (P : Lists ι ν T) : Option (Lists ι ν T) :=
  let S := order P.sequence c
  match c with
  | .pushFront i object node => P.on i (LinkedList.pushFront · object node) S
  | .pushBack i object node => P.on i (LinkedList.pushBack · object node) S
  | .popFront i => P.on i LinkedList.popFront S
  | .popBack i => P.on i LinkedList.popBack S
  | .erase i node => P.on i (LinkedList.erase · node) S
  | .moveToFront i node => P.on i (LinkedList.moveToFront · node) S
  | .moveToBack i node => P.on i (LinkedList.moveToBack · node) S
  | .spliceToBack i splice => do
    let (l, l', m) ← LinkedList.spliceToBack (P.list i) (P.list splice) P.memory
    some ⟨m, Function.update (Function.update P.list i l) splice l', S⟩

/-- No list has a node. -/
def init : Lists ι ν T := ⟨⟨fun _ => none⟩, fun _ => ⟨none, none⟩, fun _ => []⟩

/-- A program may call: a new node is at an unused address, a node that is erased or moved is in its
list, and a list is not spliced to itself. -/
def Calls (P : Lists ι ν T) : ListCall ι ν T → Prop
  | .pushFront _ _ node | .pushBack _ _ node => P.memory.node node = none
  | .popFront _ | .popBack _ => True
  | .erase i node | .moveToFront i node | .moveToBack i node => node ∈ nodes (P.sequence i)
  | .spliceToBack i splice => i ≠ splice

instance (P : Lists ι ν T) : ∀ c, Decidable (P.Calls c)
  | .pushFront _ _ node | .pushBack _ _ node =>
    inferInstanceAs (Decidable (P.memory.node node = none))
  | .popFront _ | .popBack _ => .isTrue trivial
  | .erase i node | .moveToFront i node | .moveToBack i node =>
    inferInstanceAs (Decidable (node ∈ nodes (P.sequence i)))
  | .spliceToBack i splice => inferInstanceAs (Decidable (i ≠ splice))

/-- Of two lists that are spliced, one has no nodes. -/
def SplicesEmpty (P : Lists ι ν T) : ListCall ι ν T → Prop
  | .spliceToBack i splice => (P.list i).front = none ∨ (P.list splice).front = none
  | _ => True

instance (P : Lists ι ν T) : ∀ c, Decidable (P.SplicesEmpty c)
  | .spliceToBack i splice =>
    inferInstanceAs (Decidable ((P.list i).front = none ∨ (P.list splice).front = none))
  | .pushFront .. | .pushBack .. | .popFront _ | .popBack _ | .erase .. | .moveToFront ..
  | .moveToBack .. => .isTrue trivial

/-- Every list is its sequence, seen from both ends. -/
def InOrder (P : Lists ι ν T) : Prop :=
  ∀ i, DoublyLinked P.memory (P.list i) (P.sequence i)

variable {P P' : Lists ι ν T} {c : ListCall ι ν T}

/-- The lists hold their sequences. -/
def Good (P : Lists ι ν T) : Prop := Family P.memory P.list P.sequence

omit [DecidableEq ν] [DecidableEq ι] in
theorem good_init : Good (init : Lists ι ν T) where
  holds _ := ⟨rfl, rfl, seg_nil, List.nodup_nil⟩
  disjoint _ _ _ _ h := nomatch h

omit [DecidableEq ν] [DecidableEq ι] in
theorem Good.inOrder (h : Good P) : P.InOrder := fun i => (h.holds i).linked

omit [DecidableEq ν] in
theorem Good.on (h : Good P) {i : ι} {s : List (ν × T)}
    {f : ListEnds ν → Memory ν T → Option (ListEnds ν × Memory ν T)}
    (hf : Turns P.memory (P.sequence i) s (f (P.list i) P.memory)) :
    ∃ P', P.on i f (Function.update P.sequence i s) = some P' ∧ Good P' := by
  obtain ⟨l, m, hret, hgood⟩ := h.update hf
  refine ⟨⟨m, Function.update P.list i l, Function.update P.sequence i s⟩, ?_, hgood⟩
  simp only [Lists.on, hret, Option.bind_eq_bind, Option.bind_some]

/-- One call on lists that hold their sequences. -/
theorem Good.call (h : Good P) (hc : P.Calls c) (hs : P.SplicesEmpty c) :
    ∃ P', Lists.call c P = some P' ∧ Good P' := by
  cases c with
  | pushFront i object node =>
    exact h.on (f := (LinkedList.pushFront · object node)) ((h.holds i).pushFront hc object)
  | pushBack i object node =>
    exact h.on (f := (LinkedList.pushBack · object node))
      (LinkedList.pushBack_turns (h.holds i) hc object)
  | popFront i => exact h.on (LinkedList.popFront_turns (h.holds i))
  | popBack i => exact h.on (LinkedList.popBack_turns (h.holds i))
  | erase i node =>
    refine h.on (f := (LinkedList.erase · node)) ?_
    have hold := h.holds i
    obtain ⟨s, object, t, hsplit⟩ := exists_split hc
    rw [hsplit] at hold ⊢
    rw [(filter_split hold.nodup).2]
    exact LinkedList.erase_turns hold
  | moveToFront i node =>
    refine h.on (f := (LinkedList.moveToFront · node)) ?_
    have hold := h.holds i
    obtain ⟨s, object, t, hsplit⟩ := exists_split hc
    rw [hsplit] at hold ⊢
    rw [(filter_split hold.nodup).1, (filter_split hold.nodup).2]
    exact hold.moveToFront
  | moveToBack i node =>
    refine h.on (f := (LinkedList.moveToBack · node)) ?_
    have hold := h.holds i
    obtain ⟨s, object, t, hsplit⟩ := exists_split hc
    rw [hsplit] at hold ⊢
    rw [(filter_split hold.nodup).1, (filter_split hold.nodup).2]
    exact LinkedList.moveToBack_turns hold
  | spliceToBack i splice =>
    have hempty : P.sequence i = [] ∨ P.sequence splice = [] :=
      hs.imp (h.holds i).front_eq_none.1 (h.holds splice).front_eq_none.1
    obtain ⟨l, hret, hholds⟩ :=
      LinkedList.spliceToBack_holds (h.holds i) (h.holds splice) hempty
    refine ⟨⟨P.memory, Function.update (Function.update P.list i l) splice ⟨none, none⟩,
      order P.sequence (.spliceToBack i splice)⟩, ?_, ?_⟩
    · simp only [Lists.call, hret, Option.bind_eq_bind, Option.bind_some]
    · exact h.merge hc hholds

/-- Splicing two lists that both have nodes leaves the walk from the back short. -/
theorem Good.splice_breaks (h : Good P) {i splice : ι} (hne : i ≠ splice)
    (hi : P.sequence i ≠ []) (hs : P.sequence splice ≠ []) :
    ∃ P', Lists.call (.spliceToBack i splice) P = some P' ∧ ¬P'.InOrder := by
  have hli := h.holds i
  have hls := h.holds splice
  have hfirst := mt hli.front_eq_none.1 hi
  have hback := mt hli.back_eq_none.1 hi
  have hfront := mt hls.front_eq_none.1 hs
  have hlast := mt hls.back_eq_none.1 hs
  obtain ⟨m', hm', -, hframe⟩ := hli.seg.relink_last hli.nodup (first (P.sequence splice))
  rw [← hli.back, ← hls.front, linkNext_eq hback] at hm'
  refine ⟨⟨m', Function.update (Function.update P.list i ⟨(P.list i).front, (P.list splice).back⟩)
    splice ⟨none, none⟩, order P.sequence (.spliceToBack i splice)⟩, ?_, fun hP' => ?_⟩
  · obtain ⟨a, ha⟩ := Option.ne_none_iff_exists'.1 hfirst
    obtain ⟨b, hb⟩ := Option.ne_none_iff_exists'.1 hback
    obtain ⟨c, hc⟩ := Option.ne_none_iff_exists'.1 hfront
    obtain ⟨d, hd⟩ := Option.ne_none_iff_exists'.1 hlast
    rw [hb, hc] at hm'
    simp only [Lists.call, LinkedList.spliceToBack, ha, hb, hc, hd, Option.isSome_some,
      Option.isNone_some, and_self, if_true, reduceCtorEq, false_and, if_false, hm',
      Option.bind_eq_bind, Option.bind_some]
  · have hwalk := (hP' i).backward
    have hseg := hls.seg.congr fun b hb => hframe b fun hmem => h.disjoint i splice hne hmem hb
    have hshort := hls.back ▸ hseg.backward
    simp only [order, Function.update_of_ne hne, Function.update_self] at hwalk
    have hlen := congrArg List.length (hwalk.unique hshort)
    rw [List.length_reverse, List.length_reverse, nodes_append, List.length_append] at hlen
    have hnil : (nodes (P.sequence i)).length ≠ 0 := by simpa [nodes] using hi
    omega

end Lists

/-- **A list is an ordinary sequence** in every program that never splices two lists that both have
nodes: seen from either end it has the nodes of the sequence that the same calls make, and no call
goes through a pointer to no node. -/
theorem lists_linked {P : Lists ι ν T}
    (h : Reach Lists.call (fun P c => P.Calls c ∧ P.SplicesEmpty c) Lists.init P) :
    P.InOrder ∧ ∀ c, P.Calls c → P.SplicesEmpty c → (Lists.call c P).isSome := by
  have hgood : P.Good := h.invariant Lists.good_init fun P c P' hP hc hcall => by
    obtain ⟨P₁, hP₁, hgood⟩ := hP.call hc.1 hc.2
    obtain rfl := Option.some.inj (hP₁.symm.trans hcall)
    exact hgood
  refine ⟨hgood.inOrder, fun c hc hs => ?_⟩
  obtain ⟨P', hP', -⟩ := hgood.call hc hs
  rw [hP', Option.isSome_some]

/-- Nodes are moved and erased, and the list is spliced to an empty one. -/
def moveCalls : List (ListCall Bool ℕ ℕ) :=
  [.pushBack false 7 0, .pushFront false 8 1, .pushBack false 9 2, .moveToFront false 2,
    .erase false 1, .spliceToBack true false, .moveToBack true 2, .popFront true]

theorem lists_linked_moves :
    ∃ P : Lists Bool ℕ ℕ, nodes (P.sequence true) = [2] ∧ P.InOrder ∧
      ∀ c, P.Calls c → P.SplicesEmpty c → (Lists.call c P).isSome := by
  refine ⟨_, ?_, lists_linked (Reach.of_play_if (Option.some_get (show (play (fun c P =>
    if P.Calls c ∧ P.SplicesEmpty c then Lists.call c P else none) moveCalls
      Lists.init).isSome by decide)).symm)⟩
  decide

/-- The lists `1, 2, 3` and `4, 5, 6` are made and spliced. -/
def spliceCalls : List (ListCall Bool ℕ ℕ) :=
  [.pushBack false 1 0, .pushBack false 2 1, .pushBack false 3 2, .pushBack true 4 3,
    .pushBack true 5 4, .pushBack true 6 5, .spliceToBack false true]

theorem not_lists_linked :
    ¬∀ P : Lists Bool ℕ ℕ, Reach Lists.call Lists.Calls Lists.init P → P.InOrder := by
  intro h
  have hreach := Reach.of_play_if (Option.some_get (show (play (fun c P =>
    if P.Calls c then Lists.call c P else none) spliceCalls Lists.init).isSome by decide)).symm
  exact absurd (h _ hreach false).backward (by decide)

end MegaTree
