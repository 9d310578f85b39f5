import MegaTree.Doubly.ListEnds
import MegaTree.Web.CellObject
import Mathlib.Data.List.AList

/-!
# The cell cache of the browser

`LRUCache` of `lru_cache.js`: a hash from ids to the nodes of a doubly linked list, and a counter.
It does what the cache as a list does, `touch` and `put`, and that is to keep the ids that were used
last.

* `LRUCache.Good.get`, `LRUCache.Good.put` : one call.
* `take_use` : what was used last of what was used last.
* `lruCache_refines` : any calls.
-/

namespace MegaTree.Web

open Doubly Doubly.Memory

variable {K V : Type} [DecidableEq K]

/-! ### The list -/

namespace LinkedList

variable {T : Type}

/-- `push_front`; the new object is `iter`. -/
def pushFront (l : ListEnds ℕ) (item : T) (iter : ℕ) (m : Memory ℕ T) :
    Option (ListEnds ℕ × Memory ℕ T) :=
  l.pushFront item iter m

/-- `pop_back`; the item that was in the list, or null. -/
def popBack (l : ListEnds ℕ) (m : Memory ℕ T) : Option (Option T × ListEnds ℕ × Memory ℕ T) := do
  if l.back = none then
    return (none, l, m)
  let (l', m) ← l.popBack m
  let oldBack ← m.load l.back
  some (some oldBack.object, l', m)

/-- `move_to_front` -/
def moveToFront (l : ListEnds ℕ) (iter : ℕ) (m : Memory ℕ T) : Option (ListEnds ℕ × Memory ℕ T) :=
  l.moveToFront iter m

def clear : ListEnds ℕ := ⟨none, none⟩

end LinkedList

/-! ### The cache -/

/-- The cache, and the objects that there are; the next object is `fresh`. -/
structure LRUCache (K V : Type) where
  maxSize : ℕ
  size : ℕ
  lookup : AList fun _ : K => ℕ
  list : ListEnds ℕ
  memory : Memory ℕ (K × V)
  fresh : ℕ

namespace LRUCache

def new (maxSize : ℕ) : LRUCache K V := ⟨maxSize, 0, ∅, ⟨none, none⟩, ⟨fun _ => none⟩, 0⟩

/-- At most `fuel` rounds of the loop of `_enforceOverflow`; `none` where `removed` is null. -/
def overflowLoop : ℕ → LRUCache K V → Option (LRUCache K V)
  | 0, c => some c
  | fuel + 1, c =>
    if c.maxSize < c.size then do
      let (removed, l, m) ← LinkedList.popBack c.list c.memory
      let removed ← removed
      overflowLoop fuel { c with
        list := l, memory := m, lookup := c.lookup.erase removed.1, size := c.size - 1 }
    else
      some c

/-- `_enforceOverflow()`.  Every round takes one off the size, so there are no more rounds than that.
-/
def enforceOverflow (c : LRUCache K V) : Option (LRUCache K V) := overflowLoop c.size c

/-- `put(id, item)`; `none` where it goes through null. -/
def put (id : K) (item : V) (c : LRUCache K V) : Option (LRUCache K V) :=
  match c.lookup.lookup id with
  | some existing => do
    let node ← c.memory.load (some existing)
    let m ← c.memory.setObject (some existing) (node.object.1, item)
    let (l, m) ← LinkedList.moveToFront c.list existing m
    some { c with list := l, memory := m }
  | none => do
    let iter := c.fresh
    let (l, m) ← LinkedList.pushFront c.list (id, item) iter c.memory
    enforceOverflow { c with
      list := l, memory := m, fresh := iter + 1, size := c.size + 1,
      lookup := c.lookup.insert id iter }

/-- `get(id)`: the item, or null. -/
def get (id : K) (c : LRUCache K V) : Option (Option V × LRUCache K V) :=
  match c.lookup.lookup id with
  | some existing => do
    let (l, m) ← LinkedList.moveToFront c.list existing c.memory
    let node ← m.load (some existing)
    some (some node.object.2, { c with list := l, memory := m })
  | none => some (none, c)

def clear (c : LRUCache K V) : LRUCache K V :=
  { c with size := 0, lookup := ∅, list := LinkedList.clear }

/-- Where the ids are. -/
def tags (s : List (ℕ × K × V)) : List (ℕ × K) := s.map fun x => (x.1, x.2.1)

/-- The entries of the cache, the one that was used last first. -/
def entries (s : List (ℕ × K × V)) : List (K × V) := s.map Prod.snd

/-- The hash, the list and the counter are in step; the list has the nodes `s`. -/
structure Good (c : LRUCache K V) (s : List (ℕ × K × V)) : Prop where
  holds : HasNodes c.memory c.list s
  ids : (nodes (entries s)).Nodup
  lookup : ∀ id a, c.lookup.lookup id = some a ↔ (a, id) ∈ tags s
  size : c.size = s.length
  fresh : ∀ a, c.fresh ≤ a → c.memory.node a = none

variable {c : LRUCache K V} {s s' s₁ s₂ : List (ℕ × K × V)} {id : K} {item : V} {a : ℕ}

omit [DecidableEq K] in
theorem tags_append : tags (s₁ ++ s₂) = tags s₁ ++ tags s₂ := List.map_append
omit [DecidableEq K] in
theorem entries_append : entries (s₁ ++ s₂) = entries s₁ ++ entries s₂ := List.map_append

omit [DecidableEq K] in
theorem nodes_entries : nodes (entries s) = (tags s).map Prod.snd := by
  rw [nodes, entries, tags, List.map_map, List.map_map]
  rfl

/-- What `lookup` has is a node of the list. -/
theorem Good.split (h : Good c s) (hget : c.lookup.lookup id = some a) :
    ∃ s₁ item s₂, s = s₁ ++ (a, id, item) :: s₂ := by
  obtain ⟨⟨b, id', item⟩, hmem, heq⟩ := List.mem_map.1 ((h.lookup id a).1 hget)
  obtain ⟨rfl, rfl⟩ := Prod.mk.inj heq
  obtain ⟨s₁, s₂, hs⟩ := List.append_of_mem hmem
  exact ⟨s₁, item, s₂, hs⟩

theorem lookup_split (h : (nodes (entries (s₁ ++ (a, id, item) :: s₂))).Nodup) :
    (entries (s₁ ++ (a, id, item) :: s₂)).lookup id = some item := by
  rw [entries_append] at h ⊢
  have hmem := (nodup_unlink h).1
  rw [nodes_append, List.mem_append, not_or] at hmem
  refine List.lookup_eq_some_iff.2 ⟨entries s₁, entries s₂, rfl, fun _ hx => ?_⟩
  exact bne_iff_ne.2 fun heq => hmem.1 (heq ▸ List.mem_map_of_mem hx)

theorem filter_entries (h : (nodes (entries (s₁ ++ (a, id, item) :: s₂))).Nodup) :
    (entries (s₁ ++ (a, id, item) :: s₂)).filter (·.1 ≠ id) = entries (s₁ ++ s₂) := by
  rw [entries_append] at h ⊢
  rw [entries_append]
  exact (filter_split h).2

/-- The hash has the ids of the entries. -/
theorem Good.lookup_eq_none (h : Good c s) (hget : c.lookup.lookup id = none) :
    id ∉ nodes (entries s) := by
  rw [nodes_entries]
  intro hmem
  obtain ⟨⟨a, id'⟩, htag, heq⟩ := List.mem_map.1 hmem
  obtain rfl : id' = id := heq
  cases hget.symm.trans ((h.lookup id' a).2 htag)

theorem lookup_of_not_mem {l : List (K × V)} (h : id ∉ nodes l) : l.lookup id = none :=
  List.lookup_eq_none_iff.2 fun _ hx => bne_iff_ne.2 fun heq => h (heq ▸ List.mem_map_of_mem hx)

/-- The nodes are put in another order. -/
theorem Good.reorder (h : Good c s) (hperm : (tags s').Perm (tags s)) {l : ListEnds ℕ}
    {m : Memory ℕ (K × V)} (hholds : HasNodes m l s')
    (hfresh : ∀ b, c.fresh ≤ b → m.node b = none) :
    Good { c with list := l, memory := m } s' where
  holds := hholds
  ids := by
    have hids := h.ids
    rw [nodes_entries] at hids ⊢
    exact (hperm.map _).nodup_iff.2 hids
  lookup id a := (h.lookup id a).trans hperm.mem_iff.symm
  size := by
    have hlen := hperm.length_eq
    rw [tags, tags, List.length_map, List.length_map] at hlen
    exact h.size.trans hlen.symm
  fresh := hfresh

/-- What is not in the list stays as it is. -/
theorem Good.not_mem_of_fresh (h : Good c s) {b : ℕ} (hb : c.fresh ≤ b) : b ∉ nodes s :=
  h.holds.not_mem_nodes (h.fresh b hb)

/-- A node is moved to the front. -/
theorem Good.moveToFront (h : Good c (s₁ ++ (a, id, item) :: s₂)) :
    ∃ l m, LinkedList.moveToFront c.list a c.memory = some (l, m) ∧
      Good { c with list := l, memory := m } ((a, id, item) :: (s₁ ++ s₂)) := by
  obtain ⟨l, m, hret, hholds, hnew, hframe⟩ := h.holds.moveToFront
  have hperm : (tags ((a, id, item) :: (s₁ ++ s₂))).Perm (tags (s₁ ++ (a, id, item) :: s₂)) :=
    List.perm_middle.symm.map _
  refine ⟨l, m, hret, h.reorder hperm hholds fun b hb => ?_⟩
  have hmem := h.not_mem_of_fresh hb
  exact (hframe b hmem fun hmem' => hmem (mem_unlink.2 (List.mem_cons.1 hmem'))).trans
    (h.fresh b hb)

/-- The item of a node is replaced. -/
theorem Good.setItem (h : Good c (s₁ ++ (a, id, item) :: s₂)) (item' : V) :
    ∃ m, c.memory.setObject (some a) (id, item') = some m ∧
      Good { c with memory := m } (s₁ ++ (a, id, item') :: s₂) := by
  obtain ⟨m, hret, hholds, hframe⟩ := h.holds.setObject (id, item')
  have hperm : tags (s₁ ++ (a, id, item') :: s₂) = tags (s₁ ++ (a, id, item) :: s₂) := by
    rw [tags_append, tags_append]
    rfl
  refine ⟨m, hret, h.reorder (.of_eq hperm) hholds fun b hb => ?_⟩
  refine (hframe b ?_).trans (h.fresh b hb)
  rintro rfl
  exact h.not_mem_of_fresh hb (mem_unlink.2 (.inl rfl))

/-- The entry of the id that was not used for the longest time is removed. -/
theorem Good.popBack (h : Good c (s ++ [(a, id, item)])) :
    ∃ l m, LinkedList.popBack c.list c.memory = some (some (id, item), l, m) ∧
      Good { c with
        list := l, memory := m, lookup := c.lookup.erase id, size := c.size - 1 } s := by
  obtain ⟨-, hnode, -⟩ := seg_split.1 h.holds.seg
  have hback : c.list.back = some a := by rw [h.holds.back, last_append]; rfl
  have hmem := (nodup_unlink h.holds.nodup).1
  rw [List.append_nil] at hmem
  obtain ⟨l, m, hpop, hholds, hframe⟩ := h.holds.popBack
  have hids := h.ids
  rw [entries_append, nodes_append, List.nodup_append] at hids
  refine ⟨l, m, ?_, ⟨hholds, hids.1, fun id' b => ?_, ?_, fun b hb => ?_⟩⟩
  · simp only [LinkedList.popBack, hback, reduceCtorEq, if_false, hpop, load, hframe a hmem, hnode,
      Option.bind_eq_bind, Option.bind_some]
  · have hlook := h.lookup id' b
    rw [tags_append, List.mem_append] at hlook
    by_cases heq : id' = id
    · subst heq
      rw [AList.lookup_erase]
      refine ⟨fun h => (by cases h), fun hb => ?_⟩
      rw [nodes_entries, nodes_entries] at hids
      exact absurd rfl (hids.2.2 id' (List.mem_map_of_mem hb) id' List.mem_cons_self)
    · rw [AList.lookup_erase_ne heq, hlook]
      refine or_iff_left fun hb => heq ?_
      exact (Prod.mk.inj (List.mem_singleton.1 hb)).2
  · change c.size - 1 = s.length
    rw [h.size, List.length_append, List.length_singleton, Nat.add_sub_cancel]
  · refine (hframe b fun hb' => h.not_mem_of_fresh hb ?_).trans (h.fresh b hb)
    rw [nodes_append]
    exact List.mem_append_left _ hb'

/-- The loop ends, and the entries that were used last remain. -/
theorem Good.overflowLoop (h : Good c s) {fuel : ℕ} (hfuel : c.size ≤ fuel + c.maxSize) :
    ∃ c', LRUCache.overflowLoop fuel c = some c' ∧ c'.maxSize = c.maxSize ∧
      Good c' (s.take c.maxSize) := by
  induction fuel generalizing c s with
  | zero =>
    rw [List.take_of_length_le (by have hsize := h.size; omega)]
    exact ⟨c, rfl, rfl, h⟩
  | succ fuel ih =>
    have hsize := h.size
    by_cases hlt : c.maxSize < c.size
    · rcases List.eq_nil_or_concat s with rfl | ⟨s, ⟨a, id, item⟩, rfl⟩
      · rw [hsize] at hlt
        cases hlt
      · rw [List.concat_eq_append] at h hsize ⊢
        rw [List.length_append, List.length_singleton] at hsize
        obtain ⟨l, m, hpop, hgood⟩ := h.popBack
        obtain ⟨c', hc', hmax, hgood'⟩ := ih hgood (show c.size - 1 ≤ fuel + c.maxSize by omega)
        refine ⟨c', ?_, hmax, ?_⟩
        · simp only [LRUCache.overflowLoop, if_pos hlt, hpop, Option.bind_eq_bind,
            Option.bind_some, hc']
        · rwa [List.take_append_of_le_length (by omega)]
    · rw [List.take_of_length_le (by omega)]
      exact ⟨c, if_neg hlt, rfl, h⟩

theorem Good.enforceOverflow (h : Good c s) :
    ∃ c', c.enforceOverflow = some c' ∧ c'.maxSize = c.maxSize ∧
      Good c' (s.take c.maxSize) :=
  h.overflowLoop (Nat.le_add_right ..)

/-- A new entry, at a new object. -/
theorem Good.pushFront (h : Good c s) (hget : c.lookup.lookup id = none) (item : V) :
    ∃ l m, LinkedList.pushFront c.list (id, item) c.fresh c.memory = some (l, m) ∧
      Good { c with
        list := l, memory := m, fresh := c.fresh + 1, size := c.size + 1,
        lookup := c.lookup.insert id c.fresh } ((c.fresh, id, item) :: s) := by
  obtain ⟨l, m, hret, hholds, -, hframe⟩ := h.holds.pushFront (h.fresh _ (Nat.le_refl _)) (id, item)
  have hid := h.lookup_eq_none hget
  refine ⟨l, m, hret, ⟨hholds, List.nodup_cons.2 ⟨hid, h.ids⟩, fun id' b => ?_, ?_, fun b hb => ?_⟩⟩
  · rw [show tags ((c.fresh, id, item) :: s) = (c.fresh, id) :: tags s from rfl, List.mem_cons]
    by_cases heq : id' = id
    · subst heq
      rw [AList.lookup_insert]
      refine ⟨fun hb => .inl (by rw [Option.some.inj hb]), ?_⟩
      rintro (hb | hb)
      · rw [(Prod.mk.inj hb).1]
      · rw [nodes_entries] at hid
        exact absurd (List.mem_map_of_mem hb) hid
    · rw [AList.lookup_insert_ne heq, h.lookup]
      refine (or_iff_right fun hb => heq ?_).symm
      exact (Prod.mk.inj hb).2
  · change c.size + 1 = s.length + 1
    rw [h.size]
  · change c.fresh + 1 ≤ b at hb
    have hmem := h.not_mem_of_fresh (Nat.le_of_succ_le hb)
    refine (hframe b hmem fun hb' => ?_).trans (h.fresh b (Nat.le_of_succ_le hb))
    rcases List.mem_cons.1 hb' with rfl | hb'
    · exact absurd hb (Nat.not_succ_le_self _)
    · exact hmem hb'

/-- `get` is `touch` of the list of entries. -/
theorem Good.get (h : Good c s) (id : K) :
    ∃ c' s', LRUCache.get id c = some ((entries s).lookup id, c') ∧ c'.maxSize = c.maxSize ∧
      Good c' s' ∧ entries s' = touch (entries s) id := by
  cases hget : c.lookup.lookup id with
  | none =>
    have hnone := lookup_of_not_mem (h.lookup_eq_none hget)
    refine ⟨c, s, ?_, rfl, h, ?_⟩
    · simp only [LRUCache.get, hget, hnone]
    · simp only [touch, hnone]
  | some a =>
    obtain ⟨s₁, item, s₂, rfl⟩ := h.split hget
    have hlook := lookup_split h.ids
    obtain ⟨l, m, hmove, hgood⟩ := h.moveToFront
    refine ⟨{ c with list := l, memory := m }, _, ?_, rfl, hgood, ?_⟩
    · have hnode : m.node a = some _ := hgood.holds.seg.1
      simp only [LRUCache.get, hget, hmove, hlook, load, hnode, Option.bind_eq_bind,
        Option.bind_some]
    · simp only [touch, hlook, filter_entries h.ids]
      rfl

/-- `put` is `put` of the list of entries. -/
theorem Good.put (h : Good c s) (id : K) (item : V) :
    ∃ c' s', LRUCache.put id item c = some c' ∧ c'.maxSize = c.maxSize ∧
      Good c' s' ∧ entries s' = Web.put c.maxSize (entries s) id item := by
  cases hget : c.lookup.lookup id with
  | none =>
    have hnone := lookup_of_not_mem (h.lookup_eq_none hget)
    obtain ⟨l, m, hpush, hgood⟩ := h.pushFront hget item
    obtain ⟨c', hc', hmax, hgood'⟩ := hgood.enforceOverflow
    refine ⟨c', _, ?_, hmax, hgood', ?_⟩
    · simp only [LRUCache.put, hget, hpush, Option.bind_eq_bind, Option.bind_some, hc']
    · simp only [Web.put, hnone]
      exact List.map_take ..
  | some a =>
    obtain ⟨s₁, old, s₂, rfl⟩ := h.split hget
    obtain ⟨-, hnode, -⟩ := seg_split.1 h.holds.seg
    obtain ⟨m₁, hset, hgood₁⟩ := h.setItem item
    obtain ⟨l, m, hmove, hgood⟩ := hgood₁.moveToFront
    refine ⟨{ c with list := l, memory := m }, _, ?_, rfl, hgood, ?_⟩
    · simp only [LRUCache.put, hget, load, hnode, hset, hmove, Option.bind_eq_bind,
        Option.bind_some]
    · simp only [Web.put, lookup_split h.ids, filter_entries h.ids]
      rfl

theorem Good.clear (h : Good c s) : Good c.clear [] where
  holds := ⟨rfl, rfl, seg_nil, List.nodup_nil⟩
  ids := List.nodup_nil
  lookup _ _ := ⟨nofun, nofun⟩
  size := rfl
  fresh := h.fresh

theorem good_new (maxSize : ℕ) : Good (new maxSize : LRUCache K V) [] where
  holds := ⟨rfl, rfl, seg_nil, List.nodup_nil⟩
  ids := List.nodup_nil
  lookup _ _ := ⟨nofun, nofun⟩
  size := rfl
  fresh _ _ := rfl

end LRUCache

/-! ### What was used last -/

/-- An id is used. -/
def use (id : K) (item : V) (used : List (K × V)) : List (K × V) :=
  (id, item) :: used.filter (·.1 ≠ id)

/-- The calls on the cache. -/
inductive CacheCall (K V : Type) where
  | put (id : K) (item : V)
  | get (id : K)
  | clear

/-- The reference: of the ids that were put or found, the one that was used last first, the first
`maxSize` are stored. -/
def reference (maxSize : ℕ) : CacheCall K V → List (K × V) → Option V × List (K × V)
  | .put id item, used => (none, use id item used)
  | .get id, used =>
    match (used.take maxSize).lookup id with
    | some item => (some item, use id item used)
    | none => (none, used)
  | .clear, _ => (none, [])

/-- What calls return, and what is used after them. -/
def references (maxSize : ℕ) : List (CacheCall K V) → List (K × V) → List (Option V) × List (K × V)
  | [], used => ([], used)
  | e :: calls, used =>
    let (r, used) := reference maxSize e used
    let (rs, used) := references maxSize calls used
    (r :: rs, used)

variable {used : List (K × V)} {id : K} {item : V} {maxSize : ℕ}

theorem nodup_use (h : (nodes used).Nodup) (id : K) (item : V) :
    (nodes (use id item used)).Nodup := by
  refine List.nodup_cons.2 ⟨fun hmem => ?_, (List.filter_sublist.map _).nodup h⟩
  obtain ⟨x, hx⟩ := mem_nodes.1 hmem
  simpa using (List.mem_filter.1 hx).2

/-- What is used last is used last of what was used last before. -/
theorem take_use (h : (nodes used).Nodup) (id : K) (item : V) (n : ℕ) :
    (use id item used).take n = (use id item (used.take n)).take n := by
  cases n with
  | zero => rfl
  | succ n =>
    rw [use, use, List.take_succ_cons, List.take_succ_cons]
    congr 1
    induction used generalizing n with
    | nil => rfl
    | cons x used ih =>
      obtain ⟨hx, h⟩ := List.nodup_cons.1 h
      rw [List.take_succ_cons]
      by_cases heq : x.1 = id
      · -- the id is in the first of the two, and nowhere else
        have hne (y : K × V) (hy : y ∈ used) : y.1 ≠ id :=
          fun hyid => hx (heq ▸ hyid ▸ List.mem_map_of_mem hy)
        have hdrop (l : List (K × V)) : (x :: l).filter (·.1 ≠ id) = l.filter (·.1 ≠ id) :=
          List.filter_cons_of_neg (by simpa using heq)
        rw [hdrop, hdrop,
          List.filter_eq_self.2 (by simpa using hne),
          List.filter_eq_self.2 (fun y hy => by simpa using hne y (List.mem_of_mem_take hy)),
          List.take_take, Nat.min_self]
      · have hkeep (l : List (K × V)) : (x :: l).filter (·.1 ≠ id) = x :: l.filter (·.1 ≠ id) :=
          List.filter_cons_of_pos (by simpa using heq)
        rw [hkeep, hkeep]
        cases n with
        | zero => rfl
        | succ n => rw [List.take_succ_cons, List.take_succ_cons, ih h n]

theorem length_use_of_lookup {l : List (K × V)} (h : l.lookup id = some item) (item' : V) :
    (use id item' l).length ≤ l.length := by
  obtain ⟨l₁, l₂, rfl, -⟩ := List.lookup_eq_some_iff.1 h
  have hle := List.length_filter_le (fun x : K × V => decide (x.1 ≠ id)) (l₁ ++ l₂)
  rw [use, List.length_cons, List.filter_append, List.filter_cons_of_neg (by simp),
    ← List.filter_append]
  rw [List.length_append] at hle ⊢
  rw [List.length_cons]
  omega

/-- `touch` is a use of what is found. -/
theorem touch_take (h : (nodes used).Nodup) :
    touch (used.take maxSize) id = (reference maxSize (.get id) used).2.take maxSize := by
  cases hlook : (used.take maxSize).lookup id with
  | none => simp only [touch, reference, hlook]
  | some item =>
    have hlen := length_use_of_lookup hlook item
    simp only [touch, reference, hlook]
    rw [take_use h, List.take_of_length_le (hlen.trans (List.length_take_le ..))]
    rfl

/-- `put` is a use, also if the id is new. -/
theorem put_take (h : (nodes used).Nodup) :
    put maxSize (used.take maxSize) id item = (use id item used).take maxSize := by
  rw [take_use h]
  cases hlook : (used.take maxSize).lookup id with
  | none =>
    have hne : (used.take maxSize).filter (·.1 ≠ id) = used.take maxSize :=
      List.filter_eq_self.2 fun x hx =>
        decide_eq_true (bne_iff_ne.1 (List.lookup_eq_none_iff.1 hlook x hx)).symm
    simp only [put, hlook, use, hne]
  | some old =>
    have hlen := length_use_of_lookup hlook item
    rw [List.take_of_length_le (hlen.trans (List.length_take_le ..))]
    simp only [put, hlook]
    rfl

namespace LRUCache

/-- A call, and what it returns. -/
def call (c : LRUCache K V) : CacheCall K V → Option (Option V × LRUCache K V)
  | .put id item => do
    let c ← c.put id item
    some (none, c)
  | .get id => c.get id
  | .clear => some (none, c.clear)

/-- Calls, and what they return. -/
def calls : List (CacheCall K V) → LRUCache K V → Option (List (Option V) × LRUCache K V)
  | [], c => some ([], c)
  | e :: es, c => do
    let (r, c) ← c.call e
    let (rs, c) ← calls es c
    some (r :: rs, c)

omit [DecidableEq K] in
/-- The hash, the list and the counter show the same entries. -/
structure Shows (c : LRUCache K V) (stored : List (K × V)) : Prop where
  keys : c.lookup.keys.length = c.size
  ids : ∀ id, id ∈ c.lookup ↔ id ∈ stored.map Prod.fst
  list : ∃ s : List (ℕ × K × V), DoublyLinked c.memory c.list s ∧ s.map Prod.snd = stored ∧
    s.length = c.size ∧
    ∀ id iter, c.lookup.lookup id = some iter → ∃ item, (iter, id, item) ∈ s

theorem Good.shows {c : LRUCache K V} {s : List (ℕ × K × V)} (h : Good c s) :
    c.Shows (entries s) := by
  have hmem (id : K) : id ∈ c.lookup ↔ id ∈ nodes (entries s) := by
    rw [← AList.lookup_isSome, Option.isSome_iff_exists, nodes_entries]
    simp only [h.lookup, List.mem_map, Prod.exists, exists_eq_right]
  refine ⟨?_, hmem, s, h.holds.linked, rfl, h.size.symm, fun id iter hget => ?_⟩
  · have hperm := (List.perm_ext_iff_of_nodup c.lookup.keys_nodup h.ids).2 hmem
    rw [hperm.length_eq, h.size, nodes, entries, List.length_map, List.length_map]
  · obtain ⟨s₁, item, s₂, rfl⟩ := h.split hget
    exact ⟨item, List.mem_append_right _ List.mem_cons_self⟩

/-- One call keeps the list and the reference in step. -/
theorem call_reference {c : LRUCache K V} {used : List (K × V)} {s : List (ℕ × K × V)}
    (h : Good c s) (hused : (nodes used).Nodup) (hs : entries s = used.take c.maxSize)
    (e : CacheCall K V) :
    ∃ c' s', c.call e = some ((reference c.maxSize e used).1, c') ∧ c'.maxSize = c.maxSize ∧
      Good c' s' ∧ (nodes (reference c.maxSize e used).2).Nodup ∧
      entries s' = (reference c.maxSize e used).2.take c.maxSize := by
  cases e with
  | put id item =>
    obtain ⟨c', s', hc', hmax, hgood, hentries⟩ := h.put id item
    refine ⟨c', s', ?_, hmax, hgood, nodup_use hused id item, ?_⟩
    · simp only [call, hc', reference, Option.bind_eq_bind, Option.bind_some]
    · rw [hentries, hs]
      exact put_take hused
  | get id =>
    obtain ⟨c', s', hc', hmax, hgood, hentries⟩ := h.get id
    rw [hs] at hc' hentries
    refine ⟨c', s', ?_, hmax, hgood, ?_, hentries.trans (touch_take hused)⟩
    · rw [call, hc', reference]
      cases (used.take c.maxSize).lookup id <;> rfl
    · rw [reference]
      cases (used.take c.maxSize).lookup id with
      | none => exact hused
      | some item => exact nodup_use hused id item
  | clear => exact ⟨c.clear, [], rfl, rfl, h.clear, List.nodup_nil, List.take_nil.symm⟩

theorem calls_references {c : LRUCache K V} {used : List (K × V)} {s : List (ℕ × K × V)}
    (h : Good c s) (hused : (nodes used).Nodup) (hs : entries s = used.take c.maxSize)
    (es : List (CacheCall K V)) :
    ∃ c' s', calls es c = some ((references c.maxSize es used).1, c') ∧ Good c' s' ∧
      entries s' = (references c.maxSize es used).2.take c.maxSize := by
  induction es generalizing c used s with
  | nil => exact ⟨c, s, rfl, h, hs⟩
  | cons e es ih =>
    obtain ⟨c₁, s₁, hc₁, hmax, hgood₁, hused₁, hs₁⟩ := call_reference h hused hs e
    obtain ⟨c', s', hc', hgood, hs'⟩ := ih hgood₁ hused₁ (hmax ▸ hs₁)
    rw [hmax] at hc' hs'
    refine ⟨c', s', ?_, hgood, hs'⟩
    simp only [calls, hc₁, hc', references, Option.bind_eq_bind, Option.bind_some]

end LRUCache

/-- **The cell cache of the browser is an LRU cache.**  After any calls it returned what the
reference returns and has the ids that the reference stores, in order. -/
theorem lruCache_refines (maxSize : ℕ) (es : List (CacheCall K V)) :
    ∃ c, LRUCache.calls es (.new maxSize) = some ((references maxSize es []).1, c) ∧
      c.Shows ((references maxSize es []).2.take maxSize) := by
  obtain ⟨c, s, hc, hgood, hs⟩ := LRUCache.calls_references (LRUCache.good_new maxSize)
    (show (nodes ([] : List (K × V))).Nodup from List.nodup_nil) List.take_nil.symm es
  exact ⟨c, hc, hs ▸ hgood.shows⟩

end MegaTree.Web
