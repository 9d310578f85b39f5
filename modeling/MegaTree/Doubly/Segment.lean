import Mathlib.Data.List.Induction
import Mathlib.Data.List.Nodup
import Mathlib.Logic.Function.Basic

/-!
# Doubly linked nodes in a memory

A memory holds nodes with an object and two pointers.  A node is read and written through a pointer;
there is nothing to read through a null pointer or where a node has been deleted.

* `Memory.Seg m p s n` : the nodes `s` lie in the memory, linked in order, between the pointers `p`
  and `n`.
* `Memory.seg_append` : a segment is cut anywhere.
* `Memory.Seg.congr` : the frame rule.
* `Memory.Seg.relink_last`, `Memory.Seg.relink_first` : the pointer that leaves a segment at its
  end, or at its beginning, is set.
* `Memory.Seg.link_first`, `Memory.Seg.link_last`, `Memory.Seg.unlink` : a node comes and goes.
* `Walk` : the nodes that are visited along one of the two pointers.
-/

namespace Doubly

universe u

/-- A node of a doubly linked list. -/
structure Node (ν T : Type u) where
  object : T
  previous : Option ν
  next : Option ν

/-- The nodes at their addresses; `none` where there is no node. -/
structure Memory (ν T : Type u) where
  node : ν → Option (Node ν T)

variable {ν T : Type u}

/-- The addresses of some nodes. -/
def nodes (s : List (ν × T)) : List ν := s.map Prod.fst

/-- The pointer to the first of some nodes. -/
def first (s : List (ν × T)) : Option ν := (nodes s).head?

/-- The pointer to the last of some nodes. -/
def last (s : List (ν × T)) : Option ν := (nodes s).getLast?

section Ends

variable (a : ν) (x : T) (s t : List (ν × T))

@[simp] theorem nodes_nil : nodes ([] : List (ν × T)) = [] := rfl
@[simp] theorem nodes_cons : nodes ((a, x) :: s) = a :: nodes s := rfl
@[simp] theorem nodes_append : nodes (s ++ t) = nodes s ++ nodes t := List.map_append

@[simp] theorem first_nil : first ([] : List (ν × T)) = none := rfl
@[simp] theorem first_cons : first ((a, x) :: s) = some a := rfl

@[simp] theorem first_append : first (s ++ t) = (first s).or (first t) := by
  rw [first, nodes_append, List.head?_append, first, first]

@[simp] theorem last_nil : last ([] : List (ν × T)) = none := rfl

@[simp] theorem last_append : last (s ++ t) = (last t).or (last s) := by
  rw [last, nodes_append, List.getLast?_append, last, last]

@[simp] theorem last_cons : last ((a, x) :: s) = (last s).or (some a) :=
  last_append [(a, x)] s

variable {s t}

theorem first_eq_none : first s = none ↔ s = [] := by
  cases s <;> simp [first, nodes]

theorem last_eq_none : last s = none ↔ s = [] := by
  simp [last, nodes]

theorem first_append_of_ne_nil (hs : s ≠ []) : first (s ++ t) = first s := by
  rw [first_append, Option.or_of_isSome (Option.isSome_iff_ne_none.2 (mt first_eq_none.1 hs))]

theorem last_append_of_ne_nil (ht : t ≠ []) : last (s ++ t) = last t := by
  rw [last_append, Option.or_of_isSome (Option.isSome_iff_ne_none.2 (mt last_eq_none.1 ht))]

theorem mem_nodes_first {b : ν} (h : first s = some b) : b ∈ nodes s :=
  List.mem_of_mem_head? h

theorem mem_nodes_last {b : ν} (h : last s = some b) : b ∈ nodes s :=
  List.mem_of_getLast? h

theorem mem_nodes {b : ν} : b ∈ nodes s ↔ ∃ x, (b, x) ∈ s := by
  simp [nodes]

/-- A node of a list has nodes before it and nodes behind it. -/
theorem exists_split {b : ν} (h : b ∈ nodes s) : ∃ s₁ x s₂, s = s₁ ++ (b, x) :: s₂ := by
  obtain ⟨x, hx⟩ := mem_nodes.1 h
  obtain ⟨s₁, s₂, hs⟩ := List.append_of_mem hx
  exact ⟨s₁, x, s₂, hs⟩

variable {a x}

/-- A node that is taken out of a list is not in the rest of it. -/
theorem nodup_unlink (h : (nodes (s ++ (a, x) :: t)).Nodup) :
    a ∉ nodes (s ++ t) ∧ (nodes (s ++ t)).Nodup := by
  rw [nodes_append, nodes_cons] at h
  rw [nodes_append]
  exact List.nodup_cons.1 (List.nodup_middle.1 h)

theorem mem_unlink {b : ν} : b ∈ nodes (s ++ (a, x) :: t) ↔ b = a ∨ b ∈ nodes (s ++ t) := by
  rw [nodes_append, nodes_cons, List.perm_middle.mem_iff, List.mem_cons, nodes_append]

/-- An element of a list with no key twice is picked out by its key. -/
theorem filter_key_split {α κ : Type*} [DecidableEq κ] {key : α → κ} {l₁ l₂ : List α} {c : α}
    (h : ((l₁ ++ c :: l₂).map key).Nodup) :
    (l₁ ++ c :: l₂).filter (key · = key c) = [c] ∧
      (l₁ ++ c :: l₂).filter (key · ≠ key c) = l₁ ++ l₂ := by
  rw [List.map_append, List.map_cons] at h
  have hmem := (List.nodup_cons.1 (List.nodup_middle.1 h)).1
  rw [List.mem_append, not_or] at hmem
  have hne {r : List α} (hr : key c ∉ r.map key) (d : α) (hd : d ∈ r) : key d ≠ key c :=
    fun heq => hr (heq ▸ List.mem_map_of_mem hd)
  constructor
  · rw [List.filter_append, List.filter_cons_of_pos (by simp),
      List.filter_eq_nil_iff.2 (by simpa using hne hmem.1),
      List.filter_eq_nil_iff.2 (by simpa using hne hmem.2), List.nil_append]
  · rw [List.filter_append, List.filter_cons_of_neg (by simp),
      List.filter_eq_self.2 (by simpa using hne hmem.1),
      List.filter_eq_self.2 (by simpa using hne hmem.2)]

/-- A node of a sequence with no node twice is picked out by its address. -/
theorem filter_split [DecidableEq ν] (h : (nodes (s ++ (a, x) :: t)).Nodup) :
    (s ++ (a, x) :: t).filter (·.1 = a) = [(a, x)] ∧
      (s ++ (a, x) :: t).filter (·.1 ≠ a) = s ++ t :=
  filter_key_split h

end Ends

namespace Memory

/-- The node that a pointer points to. -/
def load (m : Memory ν T) (p : Option ν) : Option (Node ν T) := p.bind m.node

/-- `p->next` -/
def next (m : Memory ν T) (p : Option ν) : Option (Option ν) := (m.load p).map Node.next

/-- `p->previous` -/
def previous (m : Memory ν T) (p : Option ν) : Option (Option ν) := (m.load p).map Node.previous

variable [DecidableEq ν]

def store (m : Memory ν T) (a : ν) (x : Node ν T) : Memory ν T where
  node := Function.update m.node a (some x)

/-- `p->next = q` -/
def setNext (m : Memory ν T) (p q : Option ν) : Option (Memory ν T) := do
  let a ← p
  let x ← m.node a
  some (m.store a { x with next := q })

/-- `p->previous = q` -/
def setPrevious (m : Memory ν T) (p q : Option ν) : Option (Memory ν T) := do
  let a ← p
  let x ← m.node a
  some (m.store a { x with previous := q })

/-- `p->object = x` -/
def setObject (m : Memory ν T) (p : Option ν) (x : T) : Option (Memory ν T) := do
  let a ← p
  let c ← m.node a
  some (m.store a { c with object := x })

/-- `if (p) p->next = q` -/
def linkNext (m : Memory ν T) (p q : Option ν) : Option (Memory ν T) :=
  if p.isSome then m.setNext p q else some m

/-- `if (p) p->previous = q` -/
def linkPrevious (m : Memory ν T) (p q : Option ν) : Option (Memory ν T) :=
  if p.isSome then m.setPrevious p q else some m

/-- `delete p` -/
def delete (m : Memory ν T) (p : Option ν) : Option (Memory ν T) := do
  let a ← p
  let _ ← m.node a
  some ⟨Function.update m.node a none⟩

omit [DecidableEq ν] in
/-- The nodes `s` are linked in order between the pointers `p` and `n`. -/
def Seg (m : Memory ν T) : Option ν → List (ν × T) → Option ν → Prop
  | _, [], _ => True
  | p, (a, x) :: s, n => m.node a = some ⟨x, p, (first s).or n⟩ ∧ m.Seg (some a) s n

variable {m m' : Memory ν T} {p q n : Option ν} {a b : ν} {x : T} {s t : List (ν × T)}

@[simp] theorem store_self (c : Node ν T) : (m.store a c).node a = some c :=
  Function.update_self ..

theorem store_of_ne (c : Node ν T) (h : b ≠ a) : (m.store a c).node b = m.node b :=
  Function.update_of_ne h ..

section Reading

omit [DecidableEq ν]

@[simp] theorem seg_nil : m.Seg p [] n := trivial

theorem seg_cons : m.Seg p ((a, x) :: s) n ↔
    m.node a = some ⟨x, p, (first s).or n⟩ ∧ m.Seg (some a) s n := Iff.rfl

theorem next_eq {c : Node ν T} (h : m.node a = some c) : m.next (some a) = some c.next := by
  rw [next, load, Option.bind_some, h, Option.map_some]

theorem previous_eq {c : Node ν T} (h : m.node a = some c) :
    m.previous (some a) = some c.previous := by
  rw [previous, load, Option.bind_some, h, Option.map_some]

/-- A segment is cut anywhere. -/
theorem seg_append :
    m.Seg p (s ++ t) n ↔ m.Seg p s ((first t).or n) ∧ m.Seg ((last s).or p) t n := by
  induction s generalizing p with
  | nil => simp
  | cons c s ih =>
    obtain ⟨b, y⟩ := c
    rw [List.cons_append, seg_cons, seg_cons, ih, first_append, Option.or_assoc, last_cons,
      Option.or_assoc, Option.some_or, and_assoc]

theorem seg_split :
    m.Seg p (s ++ (a, x) :: t) n ↔
      m.Seg p s (some a) ∧ m.node a = some ⟨x, (last s).or p, (first t).or n⟩ ∧
        m.Seg (some a) t n := by
  rw [seg_append, seg_cons, first_cons, Option.some_or]

/-- What is not in a segment may change. -/
theorem Seg.congr (h : m.Seg p s n) (hm : ∀ b ∈ nodes s, m'.node b = m.node b) :
    m'.Seg p s n := by
  induction s generalizing p with
  | nil => exact seg_nil
  | cons c s ih =>
    obtain ⟨b, y⟩ := c
    rw [nodes_cons, List.forall_mem_cons] at hm
    exact ⟨hm.1.trans h.1, ih h.2 hm.2⟩

theorem Seg.isSome (h : m.Seg p s n) (hb : b ∈ nodes s) : (m.node b).isSome := by
  obtain ⟨s₁, y, s₂, rfl⟩ := exists_split hb
  rw [(seg_split.1 h).2.1, Option.isSome_some]

end Reading

@[simp] theorem linkNext_some : m.linkNext (some a) q = m.setNext (some a) q := rfl
@[simp] theorem linkPrevious_some : m.linkPrevious (some a) q = m.setPrevious (some a) q := rfl

theorem linkNext_eq (h : p ≠ none) (q : Option ν) : m.linkNext p q = m.setNext p q :=
  if_pos (Option.isSome_iff_ne_none.2 h)

theorem linkPrevious_eq (h : p ≠ none) (q : Option ν) : m.linkPrevious p q = m.setPrevious p q :=
  if_pos (Option.isSome_iff_ne_none.2 h)

theorem setNext_eq {c : Node ν T} (h : m.node a = some c) (q : Option ν) :
    m.setNext (some a) q = some (m.store a { c with next := q }) := by
  simp only [setNext, h, Option.bind_eq_bind, Option.bind_some]

theorem setPrevious_eq {c : Node ν T} (h : m.node a = some c) (q : Option ν) :
    m.setPrevious (some a) q = some (m.store a { c with previous := q }) := by
  simp only [setPrevious, h, Option.bind_eq_bind, Option.bind_some]

theorem setObject_eq {c : Node ν T} (h : m.node a = some c) (x : T) :
    m.setObject (some a) x = some (m.store a { c with object := x }) := by
  simp only [setObject, h, Option.bind_eq_bind, Option.bind_some]

theorem delete_eq {c : Node ν T} (h : m.node a = some c) :
    m.delete (some a) = some ⟨Function.update m.node a none⟩ := by
  simp only [delete, h, Option.bind_eq_bind, Option.bind_some]

/-- A write to a node that is not in a segment keeps it. -/
theorem Seg.store (h : m.Seg p s n) (ha : a ∉ nodes s) (c : Node ν T) : (m.store a c).Seg p s n :=
  h.congr fun _ hb => store_of_ne c fun heq => ha (heq ▸ hb)

/-- The pointer that leaves a segment at its end is set, if there is a last node. -/
theorem Seg.relink_last (h : m.Seg p s n) (hs : (nodes s).Nodup) (q : Option ν) :
    ∃ m', m.linkNext (last s) q = some m' ∧ m'.Seg p s q ∧
      ∀ b ∉ nodes s, m'.node b = m.node b := by
  rcases List.eq_nil_or_concat s with rfl | ⟨s, ⟨a, x⟩, rfl⟩
  · exact ⟨m, rfl, seg_nil, fun _ _ => rfl⟩
  · rw [List.concat_eq_append] at h hs ⊢
    obtain ⟨hbefore, hnode, -⟩ := seg_split.1 h
    have ha : a ∉ nodes s := fun hmem =>
      (List.nodup_append.1 (nodes_append s _ ▸ hs)).2.2 a hmem a List.mem_cons_self rfl
    refine ⟨m.store a ⟨x, (last s).or p, q⟩, ?_, ?_, fun b hb => store_of_ne _ ?_⟩
    · rw [last_append, last_cons, last_nil, Option.none_or, Option.some_or, linkNext_some,
        setNext_eq hnode]
    · exact seg_split.2 ⟨hbefore.store ha _, store_self _, seg_nil⟩
    · rintro rfl
      exact hb (by simp)

/-- The pointer that leaves a segment at its beginning is set, if there is a first node. -/
theorem Seg.relink_first (h : m.Seg p s n) (hs : (nodes s).Nodup) (q : Option ν) :
    ∃ m', m.linkPrevious (first s) q = some m' ∧
      m'.Seg q s n ∧ ∀ b ∉ nodes s, m'.node b = m.node b := by
  rcases s with - | ⟨⟨a, x⟩, s⟩
  · exact ⟨m, rfl, seg_nil, fun _ _ => rfl⟩
  · obtain ⟨hnode, hrest⟩ := h
    refine ⟨m.store a ⟨x, q, (first s).or n⟩, ?_, ?_, fun b hb => store_of_ne _ ?_⟩
    · rw [first_cons, linkPrevious_some, setPrevious_eq hnode]
    · exact ⟨store_self _, hrest.store (List.nodup_cons.1 hs).1 _⟩
    · rintro rfl
      exact hb List.mem_cons_self

/-- A node of a segment gets another object. -/
theorem Seg.setObject (h : m.Seg p (s ++ (a, x) :: t) n) (hs : (nodes (s ++ (a, x) :: t)).Nodup)
    (y : T) : ∃ m', m.setObject (some a) y = some m' ∧ m'.Seg p (s ++ (a, y) :: t) n ∧
      ∀ b ≠ a, m'.node b = m.node b := by
  obtain ⟨hbefore, hnode, hbehind⟩ := seg_split.1 h
  rw [nodes_append, nodes_cons, List.nodup_append, List.nodup_cons] at hs
  have has : a ∉ nodes s := fun hmem => hs.2.2 a hmem a List.mem_cons_self rfl
  exact ⟨_, setObject_eq hnode y, seg_split.2 ⟨hbefore.store has _, store_self _,
    hbehind.store hs.2.1.1 _⟩, fun b hb => store_of_ne _ hb⟩

/-- The node `a`, which knows the segment `s` as its next, is put before it. -/
theorem Seg.link_first (h : m.Seg none s none) (hs : (nodes s).Nodup)
    (ha : m.node a = some ⟨x, none, first s⟩) (hmem : a ∉ nodes s) :
    ∃ m', m.linkPrevious (first s) (some a) = some m' ∧
      m'.Seg none ((a, x) :: s) none ∧ ∀ b ∉ nodes s, m'.node b = m.node b := by
  obtain ⟨m', hm', hseg, hframe⟩ := h.relink_first hs (some a)
  exact ⟨m', hm', ⟨(hframe a hmem).trans (Option.or_none ▸ ha), hseg⟩, hframe⟩

/-- The node `a`, which knows the segment `s` as its previous, is put behind it. -/
theorem Seg.link_last (h : m.Seg none s none) (hs : (nodes s).Nodup)
    (ha : m.node a = some ⟨x, last s, none⟩) (hmem : a ∉ nodes s) :
    ∃ m', m.linkNext (last s) (some a) = some m' ∧
      m'.Seg none (s ++ [(a, x)]) none ∧ ∀ b ∉ nodes s, m'.node b = m.node b := by
  obtain ⟨m', hm', hseg, hframe⟩ := h.relink_last hs (some a)
  exact ⟨m', hm', seg_split.2 ⟨hseg, (hframe a hmem).trans (Option.or_none ▸ ha), seg_nil⟩, hframe⟩

/-- The neighbours of the node `a` are linked to each other; the node still knows them. -/
theorem Seg.unlink (h : m.Seg none (s ++ (a, x) :: t) none)
    (hs : (nodes (s ++ (a, x) :: t)).Nodup) :
    ∃ m₁ m₂,
      m.linkNext (last s) (first t) = some m₁ ∧
      m₁.linkPrevious (first t) (last s) = some m₂ ∧
      m₁.node a = some ⟨x, last s, first t⟩ ∧ m₂.node a = some ⟨x, last s, first t⟩ ∧
      m₂.Seg none (s ++ t) none ∧ ∀ b ∉ nodes (s ++ t), m₂.node b = m.node b := by
  obtain ⟨hbefore, hnode, hbehind⟩ := seg_split.1 h
  rw [nodes_append, nodes_cons, List.nodup_append, List.nodup_cons] at hs
  obtain ⟨hs₁, ⟨hat, hs₂⟩, hne⟩ := hs
  have has : a ∉ nodes s := fun hmem => hne a hmem a List.mem_cons_self rfl
  have hdisj (b : ν) (hb : b ∈ nodes t) : b ∉ nodes s :=
    fun hmem => hne b hmem b (List.mem_cons_of_mem _ hb) rfl
  rw [Option.or_none, Option.or_none] at hnode
  obtain ⟨m₁, hm₁, hseg₁, hframe₁⟩ := hbefore.relink_last hs₁ (first t)
  obtain ⟨m₂, hm₂, hseg₂, hframe₂⟩ :=
    (hbehind.congr fun b hb => hframe₁ b (hdisj b hb)).relink_first hs₂ (last s)
  have hnode₁ := (hframe₁ a has).trans hnode
  refine ⟨m₁, m₂, hm₁, hm₂, hnode₁, (hframe₂ a hat).trans hnode₁, seg_append.2 ⟨?_, ?_⟩, ?_⟩
  · rw [Option.or_none]
    exact hseg₁.congr fun b hb => hframe₂ b fun hmem => hdisj b hmem hb
  · rwa [Option.or_none]
  · intro b hb
    rw [nodes_append, List.mem_append, not_or] at hb
    exact (hframe₂ b hb.2).trans (hframe₁ b hb.1)

end Memory

/-- The nodes that are visited from a pointer on, up to the null pointer. -/
def Walk (follow : Option ν → Option (Option ν)) : Option ν → List ν → Prop
  | p, [] => p = none
  | p, a :: l => p = some a ∧ ∃ q ∈ follow p, Walk follow q l

instance Walk.decidable [DecidableEq ν] (follow : Option ν → Option (Option ν)) :
    ∀ p l, Decidable (Walk follow p l)
  | p, [] => inferInstanceAs (Decidable (p = none))
  | p, a :: l =>
    match hq : follow p with
    | none => isFalse fun h => by simp [Walk, hq] at h
    | some q =>
      have := Walk.decidable follow q l
      decidable_of_iff (p = some a ∧ Walk follow q l) (by simp [Walk, hq])

/-- A walk visits the same nodes every time. -/
theorem Walk.unique {follow : Option ν → Option (Option ν)} {p : Option ν} {l l' : List ν}
    (h : Walk follow p l) (h' : Walk follow p l') : l = l' := by
  induction l generalizing p l' with
  | nil =>
    cases l' with
    | nil => rfl
    | cons a l' => cases h.symm.trans h'.1
  | cons a l ih =>
    obtain ⟨hp, q, hq, hl⟩ := h
    cases l' with
    | nil => cases hp.symm.trans h'
    | cons b l' =>
      obtain ⟨hp', q', hq', hl'⟩ := h'
      obtain rfl := Option.some.inj (hp.symm.trans hp')
      obtain rfl := Option.some.inj (hq.symm.trans hq')
      rw [ih hl hl']

namespace Memory

variable {m : Memory ν T} {p n : Option ν} {s : List (ν × T)}

/-- Along `next` a segment is visited in order. -/
theorem Seg.forward (h : m.Seg p s none) : Walk m.next (first s) (nodes s) := by
  induction s generalizing p with
  | nil => rfl
  | cons c s ih =>
    obtain ⟨b, y⟩ := c
    exact ⟨rfl, (first s).or none, next_eq h.1, Option.or_none ▸ ih h.2⟩

/-- Along `previous` a segment is visited in opposite order. -/
theorem Seg.backward (h : m.Seg none s n) : Walk m.previous (last s) (nodes s).reverse := by
  induction s using List.reverseRecOn generalizing n with
  | nil => rfl
  | append_singleton s c ih =>
    obtain ⟨b, y⟩ := c
    obtain ⟨hbefore, hnode, -⟩ := seg_split.1 h
    rw [nodes_append, List.reverse_append, last_append]
    exact ⟨rfl, (last s).or none, previous_eq hnode, Option.or_none ▸ ih hbefore⟩

end Memory

end Doubly
