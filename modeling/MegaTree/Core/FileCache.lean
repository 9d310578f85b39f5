import MegaTree.Core.LinkedList
import Mathlib.Data.List.AList

/-!
# The cache of files

`Cache` of `cache.h`: a list of objects with their ids, and a hash from the ids to the nodes of the
list.  The hash is the list, seen by ids: every call keeps them in step.

* `FileCache.Good.find_cases`, `FileCache.Good.next` : what an iterator is at, and where it goes.
* `CacheUse.good_call` : one call.
* `fileCache_inStep` : any calls; iterators to what is not erased stay as they are.
-/

namespace MegaTree

open Doubly Doubly.Memory Effect

variable {K ν T : Type}

/-- `Storage`: an object and its id. -/
structure Storage (K T : Type) where
  id : K
  object : T

/-- `CacheIterator`: whether it was made by the cache, and the node it is at. -/
structure CacheIterator (ν : Type) where
  b : Bool
  it : Option ν
deriving DecidableEq

namespace CacheIterator

variable (it : CacheIterator ν) (m : Memory ν (Storage K T))

def next : Option (CacheIterator ν) := (m.next it.it).map fun node => { it with it := node }
def previous : Option (CacheIterator ν) := (m.previous it.it).map fun node => { it with it := node }
def get : Option T := (m.load it.it).map fun node => node.object.object
def id : Option K := (m.load it.it).map fun node => node.object.id
def finished : Bool := !it.b || it.it.isNone

end CacheIterator

/-- `Cache`: the list, in the memory that has its nodes, and the hash. -/
structure FileCache (K ν T : Type) where
  memory : Memory ν (Storage K T)
  list : ListEnds ν
  hash : AList fun _ : K => Option ν

namespace FileCache

variable (c : FileCache K ν T)

def iterate : CacheIterator ν := ⟨true, c.list.front⟩

def iterateBack : CacheIterator ν := ⟨true, c.list.back⟩

def size : ℕ := c.hash.entries.length

variable [DecidableEq K] [DecidableEq ν]

def find (id : K) : CacheIterator ν :=
  match c.hash.lookup id with
  | some it => ⟨true, it⟩
  | none => ⟨false, none⟩

/-- A call on the list. -/
def onList (f : ListEnds ν → Memory ν (Storage K T) →
    Option (ListEnds ν × Memory ν (Storage K T))) : Option (FileCache K ν T) := do
  let (l, m) ← f c.list c.memory
  some { c with memory := m, list := l }

/-- `hash_.insert`, which keeps what is there. -/
def hashInsert (hash : AList fun _ : K => Option ν) (id : K) (it : Option ν) :
    AList fun _ : K => Option ν :=
  if id ∈ hash then hash else hash.insert id it

/-- `push_front`; the new node is at the address `node`. -/
def pushFront (id : K) (object : T) (node : ν) : Option (FileCache K ν T) := do
  let c ← c.onList (LinkedList.pushFront · ⟨id, object⟩ node)
  some { c with hash := hashInsert c.hash id c.list.front }

/-- `push_back` -/
def pushBack (id : K) (object : T) (node : ν) : Option (FileCache K ν T) := do
  let c ← c.onList (LinkedList.pushBack · ⟨id, object⟩ node)
  some { c with hash := hashInsert c.hash id c.list.back }

/-- `move_back_to_front`; a list with no node has no back, and the assertion fails. -/
def moveBackToFront : Option (FileCache K ν T) := do
  let node ← c.list.back
  c.onList (LinkedList.moveToFront · node)

/-- `move_to_front`, by an iterator -/
def moveIteratorToFront (it : CacheIterator ν) : Option (FileCache K ν T) := do
  let node ← it.it
  c.onList (LinkedList.moveToFront · node)

/-- `move_to_front`, by an id -/
def moveToFront (id : K) : Option (FileCache K ν T) :=
  match c.hash.lookup id with
  | some it => do
    let node ← it
    c.onList (LinkedList.moveToFront · node)
  | none => some c

/-- `move_to_back` -/
def moveToBack (id : K) : Option (FileCache K ν T) :=
  match c.hash.lookup id with
  | some it => do
    let node ← it
    c.onList (LinkedList.moveToBack · node)
  | none => some c

def erase (it : CacheIterator ν) : Option (FileCache K ν T) := do
  let id ← it.id c.memory
  let c := { c with hash := c.hash.erase id }
  let node ← it.it
  c.onList (LinkedList.erase · node)

/-- `pop_back`, or the text of what `list_.back()` throws where there is no node. -/
def popBack : Option (Except String (FileCache K ν T)) :=
  if c.list.back = none then some (.error "You called back on an empty list!")
  else do
    let node ← c.memory.load c.list.back
    let c := { c with hash := c.hash.erase node.object.id }
    let c ← c.onList LinkedList.popBack
    some (.ok c)

end FileCache

/-! ### The hash and the list -/

namespace FileCache

/-- What the hash has for an entry of the list. -/
def hashEntry (entry : ν × Storage K T) : Sigma fun _ : K => Option ν := ⟨entry.2.id, some entry.1⟩

/-- The list has the entries `s`, and the hash has the same ones in some order. -/
structure Good (c : FileCache K ν T) (s : List (ν × Storage K T)) : Prop where
  holds : HasNodes c.memory c.list s
  hash : c.hash.entries.Perm (s.map hashEntry)

variable {c : FileCache K ν T} {s s' t : List (ν × Storage K T)} {id : K} {object : T} {node : ν}

theorem keys_map_hashEntry : (s.map hashEntry).keys = s.map (·.2.id) := by
  rw [List.keys, List.map_map]
  rfl

theorem Good.nodup (h : Good c s) : (s.map (·.2.id)).Nodup := by
  rw [← keys_map_hashEntry]
  exact (List.perm_nodupKeys h.hash).1 c.hash.nodupKeys

theorem Good.mem_hash (h : Good c s) : id ∈ c.hash ↔ id ∈ s.map (·.2.id) := by
  rw [← keys_map_hashEntry, AList.mem_keys]
  exact (h.hash.map Sigma.fst).mem_iff

theorem Good.size (h : Good c s) : c.size = s.length := by
  rw [FileCache.size, h.hash.length_eq, List.length_map]

/-- The entries are put in another order. -/
theorem Good.reorder (h : Good c s) (hperm : s'.Perm s) {l : ListEnds ν}
    {m : Memory ν (Storage K T)} (hholds : HasNodes m l s') :
    Good { c with memory := m, list := l } s' where
  holds := hholds
  hash := h.hash.trans (hperm.map hashEntry).symm

theorem onList_of_turns {f : ListEnds ν → Memory ν (Storage K T) →
    Option (ListEnds ν × Memory ν (Storage K T))} (hf : Turns c.memory s s' (f c.list c.memory)) :
    ∃ l m, c.onList f = some { c with memory := m, list := l } ∧ HasNodes m l s' := by
  obtain ⟨l, m, hret, hholds, -, -⟩ := hf
  refine ⟨l, m, ?_, hholds⟩
  simp only [onList, hret, Option.bind_eq_bind, Option.bind_some]

/-- A call on the list that puts it in another order. -/
theorem Good.onList (h : Good c s) (hperm : s'.Perm s)
    {f : ListEnds ν → Memory ν (Storage K T) → Option (ListEnds ν × Memory ν (Storage K T))}
    (hf : Turns c.memory s s' (f c.list c.memory)) : ∃ c', c.onList f = some c' ∧ Good c' s' := by
  obtain ⟨l, m, hret, hholds⟩ := onList_of_turns hf
  exact ⟨_, hret, h.reorder hperm hholds⟩

variable [DecidableEq K]

/-- What is looked up is a node of the list with the id, or there is none. -/
theorem Good.lookup_cases (h : Good c s) (id : K) :
    (c.hash.lookup id = none ∧ id ∉ s.map (·.2.id)) ∨
      ∃ s₁ node object s₂, s = s₁ ++ (node, ⟨id, object⟩) :: s₂ ∧
        c.hash.lookup id = some (some node) := by
  cases hlook : c.hash.lookup id with
  | none => exact .inl ⟨rfl, fun hid => AList.lookup_eq_none.1 hlook (h.mem_hash.2 hid)⟩
  | some it =>
    have hmem := h.hash.mem_iff.1 (AList.mem_lookup_iff.1 hlook)
    obtain ⟨⟨node, id', object⟩, hentry, heq⟩ := List.mem_map.1 hmem
    cases heq
    obtain ⟨s₁, s₂, hs⟩ := List.append_of_mem hentry
    exact .inr ⟨s₁, node, object, s₂, hs, rfl⟩

theorem Good.lookup (h : Good c s) {entry : ν × Storage K T} (hentry : entry ∈ s) :
    c.hash.lookup entry.2.id = some (some entry.1) :=
  AList.mem_lookup_iff.2 (h.hash.mem_iff.2 (List.mem_map_of_mem hentry))

/-- A new entry. -/
theorem Good.hashInsert (h : Good c s) (hid : id ∉ s.map (·.2.id))
    (hperm : s'.Perm ((node, ⟨id, object⟩) :: s)) {l : ListEnds ν} {m : Memory ν (Storage K T)}
    (hholds : HasNodes m l s') :
    Good ⟨m, l, FileCache.hashInsert c.hash id (some node)⟩ s' where
  holds := hholds
  hash := by
    have hnew : id ∉ c.hash := fun hmem => hid (h.mem_hash.1 hmem)
    rw [FileCache.hashInsert, if_neg hnew, AList.entries_insert_of_notMem hnew]
    exact (h.hash.cons _).trans (hperm.map hashEntry).symm

/-- An entry is removed. -/
theorem Good.hashErase (h : Good c (s ++ (node, ⟨id, object⟩) :: t)) {l : ListEnds ν}
    {m : Memory ν (Storage K T)} (hholds : HasNodes m l (s ++ t)) :
    Good ⟨m, l, c.hash.erase id⟩ (s ++ t) where
  holds := hholds
  hash := by
    have hfirst : c.hash.entries.Perm (hashEntry (node, ⟨id, object⟩) :: (s ++ t).map hashEntry) :=
      h.hash.trans (List.perm_middle.map hashEntry)
    exact (List.Perm.kerase c.hash.nodupKeys hfirst).trans (.of_eq (List.kerase_cons_eq rfl))

variable [DecidableEq ν]

theorem Good.pushFront (h : Good c s) (hnode : c.memory.node node = none)
    (hid : id ∉ s.map (·.2.id)) (object : T) :
    ∃ c', c.pushFront id object node = some c' ∧ Good c' ((node, ⟨id, object⟩) :: s) := by
  obtain ⟨l, m, hret, hholds⟩ := onList_of_turns
    (f := (LinkedList.pushFront · ⟨id, object⟩ node)) (h.holds.pushFront hnode ⟨id, object⟩)
  refine ⟨_, ?_, h.hashInsert hid (.refl _) hholds⟩
  have hfront : l.front = some node := hholds.front
  simp only [FileCache.pushFront, hret, hfront, Option.bind_eq_bind, Option.bind_some]

theorem Good.pushBack (h : Good c s) (hnode : c.memory.node node = none)
    (hid : id ∉ s.map (·.2.id)) (object : T) :
    ∃ c', c.pushBack id object node = some c' ∧ Good c' (s ++ [(node, ⟨id, object⟩)]) := by
  obtain ⟨l, m, hret, hholds⟩ := onList_of_turns
    (f := (LinkedList.pushBack · ⟨id, object⟩ node))
    (LinkedList.pushBack_turns h.holds hnode ⟨id, object⟩)
  refine ⟨_, ?_, h.hashInsert hid (List.perm_append_singleton ..) hholds⟩
  have hback := hholds.back_concat
  simp only [FileCache.pushBack, hret, hback, Option.bind_eq_bind, Option.bind_some]

omit [DecidableEq K] in
theorem Good.moveNodeToFront (h : Good c (s ++ (node, ⟨id, object⟩) :: t)) :
    ∃ c', c.onList (LinkedList.moveToFront · node) = some c' ∧
      Good c' ((node, ⟨id, object⟩) :: (s ++ t)) :=
  h.onList List.perm_middle.symm h.holds.moveToFront

omit [DecidableEq K] in
theorem Good.moveNodeToBack (h : Good c (s ++ (node, ⟨id, object⟩) :: t)) :
    ∃ c', c.onList (LinkedList.moveToBack · node) = some c' ∧
      Good c' (s ++ t ++ [(node, ⟨id, object⟩)]) :=
  h.onList ((List.perm_append_singleton ..).trans List.perm_middle.symm)
    (LinkedList.moveToBack_turns h.holds)

theorem Good.erase (h : Good c (s ++ (node, ⟨id, object⟩) :: t)) :
    ∃ c', c.erase ⟨true, some node⟩ = some c' ∧ Good c' (s ++ t) := by
  obtain ⟨l, m, hret, hholds⟩ := onList_of_turns
    (c := { c with hash := c.hash.erase id }) (f := (LinkedList.erase · node))
    (LinkedList.erase_turns h.holds)
  refine ⟨_, ?_, h.hashErase hholds⟩
  have hnode := (seg_split.1 h.holds.seg).2.1
  simp only [FileCache.erase, CacheIterator.id, load, hnode, hret, Option.bind_eq_bind,
    Option.bind_some, Option.map_some]

theorem Good.popBack (h : Good c (s ++ [(node, ⟨id, object⟩)])) :
    ∃ c', c.popBack = some (.ok c') ∧ Good c' s := by
  have hback := h.holds.back_concat
  have hturns := LinkedList.popBack_turns h.holds
  rw [List.dropLast_concat] at hturns
  obtain ⟨l, m, hret, hholds⟩ := onList_of_turns
    (c := { c with hash := c.hash.erase id }) (f := LinkedList.popBack) hturns
  have hgood := h.hashErase (t := []) ((List.append_nil s).symm ▸ hholds)
  rw [List.append_nil] at hgood
  refine ⟨_, ?_, hgood⟩
  have hnode := (seg_split.1 h.holds.seg).2.1
  simp only [FileCache.popBack, hback, reduceCtorEq, if_false, load, hnode, hret,
    Option.bind_eq_bind, Option.bind_some]

/-! ### Iterators -/

omit [DecidableEq K] [DecidableEq ν] in
theorem Good.iterate (h : Good c s) :
    c.iterate = ⟨true, first s⟩ ∧ c.iterateBack = ⟨true, last s⟩ := by
  rw [FileCache.iterate, FileCache.iterateBack, h.holds.front, h.holds.back]
  exact ⟨rfl, rfl⟩

omit [DecidableEq K] [DecidableEq ν] in
/-- An iterator goes on to the entries beside its own. -/
theorem Good.next (h : Good c (s ++ (node, ⟨id, object⟩) :: t)) :
    CacheIterator.next ⟨true, some node⟩ c.memory = some ⟨true, first t⟩ ∧
      CacheIterator.previous ⟨true, some node⟩ c.memory = some ⟨true, last s⟩ := by
  have hnode := (seg_split.1 h.holds.seg).2.1
  rw [Option.or_none, Option.or_none] at hnode
  rw [CacheIterator.next, CacheIterator.previous, next_eq hnode, previous_eq hnode]
  exact ⟨rfl, rfl⟩

omit [DecidableEq ν] in
/-- `find` gives an iterator at the entry with the id, or one that is finished. -/
theorem Good.find_cases (h : Good c s) (id : K) :
    ((c.find id).finished = true ∧ id ∉ s.map (·.2.id)) ∨
      ∃ node object, c.find id = ⟨true, some node⟩ ∧ (node, ⟨id, object⟩) ∈ s := by
  rcases h.lookup_cases id with ⟨hlook, hid⟩ | ⟨s₁, node, object, s₂, rfl, hlook⟩
  · refine .inl ⟨?_, hid⟩
    rw [FileCache.find, hlook]
    rfl
  · refine .inr ⟨node, object, ?_, by simp⟩
    rw [FileCache.find, hlook]

end FileCache

/-! ### Calls -/

/-- The calls on a cache.  A new node gets an address from the allocator. -/
inductive CacheCall (K ν T : Type) where
  | pushFront (id : K) (object : T) (node : ν)
  | pushBack (id : K) (object : T) (node : ν)
  | find (id : K)
  | moveToFront (id : K)
  | moveIteratorToFront (it : CacheIterator ν)
  | moveToBack (id : K)
  | moveBackToFront
  | erase (it : CacheIterator ν)
  | popBack

/-- One call; `none` if it goes through a pointer to no node.  After an exception the cache is used as
it was. -/
def FileCache.call [DecidableEq K] [DecidableEq ν] (c : FileCache K ν T) :
    CacheCall K ν T → Option (FileCache K ν T)
  | .pushFront id object node => c.pushFront id object node
  | .pushBack id object node => c.pushBack id object node
  | .find _ => some c
  | .moveToFront id => c.moveToFront id
  | .moveIteratorToFront it => c.moveIteratorToFront it
  | .moveToBack id => c.moveToBack id
  | .moveBackToFront => c.moveBackToFront
  | .erase it => c.erase it
  | .popBack => do
    match ← c.popBack with
    | .ok c => some c
    | .error _ => some c

/-- A cache in use; beside it the ordinary sequence that the same calls make. -/
structure CacheUse (K ν T : Type) where
  cache : FileCache K ν T
  sequence : List (ν × Storage K T)

namespace CacheUse

variable [DecidableEq K] [DecidableEq ν]

/-- What a call does to an ordinary sequence. -/
def order (s : List (ν × Storage K T)) : CacheCall K ν T → List (ν × Storage K T)
  | .pushFront id object node => (node, ⟨id, object⟩) :: s
  | .pushBack id object node => s ++ [(node, ⟨id, object⟩)]
  | .find _ => s
  | .moveToFront id => s.filter (·.2.id = id) ++ s.filter (·.2.id ≠ id)
  | .moveIteratorToFront it => s.filter (some ·.1 = it.it) ++ s.filter (some ·.1 ≠ it.it)
  | .moveToBack id => s.filter (·.2.id ≠ id) ++ s.filter (·.2.id = id)
  | .moveBackToFront => s.getLast?.toList ++ s.dropLast
  | .erase it => s.filter (some ·.1 ≠ it.it)
  | .popBack => s.dropLast

/-- One call, of the cache and of the sequence. -/
def call (d : CacheCall K ν T) (P : CacheUse K ν T) : Option (CacheUse K ν T) := do
  let c ← P.cache.call d
  some ⟨c, order P.sequence d⟩

/-- Nothing is in the cache. -/
def init : CacheUse K ν T := ⟨⟨⟨fun _ => none⟩, ⟨none, none⟩, ∅⟩, []⟩

/-- A client may call: what it pushes is not in the cache and is put at an unused address, and an
iterator that it uses is at a node of the list. -/
def Calls (P : CacheUse K ν T) : CacheCall K ν T → Prop
  | .pushFront id _ node | .pushBack id _ node =>
    P.cache.memory.node node = none ∧ id ∉ P.sequence.map (·.2.id)
  | .moveIteratorToFront it | .erase it => ∃ node ∈ nodes P.sequence, it = ⟨true, some node⟩
  | .find _ | .moveToFront _ | .moveToBack _ | .moveBackToFront | .popBack => True

instance (P : CacheUse K ν T) : ∀ d, Decidable (P.Calls d)
  | .pushFront id _ node | .pushBack id _ node =>
    inferInstanceAs
      (Decidable (P.cache.memory.node node = none ∧ id ∉ P.sequence.map (·.2.id)))
  | .moveIteratorToFront it | .erase it =>
    inferInstanceAs (Decidable (∃ node ∈ nodes P.sequence, it = ⟨true, some node⟩))
  | .find _ | .moveToFront _ | .moveToBack _ | .moveBackToFront | .popBack => .isTrue trivial

/-- The list and the hash are in step. -/
structure InStep (P : CacheUse K ν T) : Prop where
  list : DoublyLinked P.cache.memory P.cache.list P.sequence
  once : (P.sequence.map (·.2.id)).Nodup
  hash : ∀ id, id ∈ P.cache.hash ↔ id ∈ P.sequence.map (·.2.id)
  node : ∀ entry ∈ P.sequence, P.cache.hash.lookup entry.2.id = some (some entry.1)
  size : P.cache.size = P.sequence.length

/-- The iterator is at an entry of the list, and reading it shows this one. -/
structure IsAt (P : CacheUse K ν T) (it : CacheIterator ν) (entry : Storage K T) : Prop where
  finished : it.finished = false
  mem : ∃ node, it.it = some node ∧ (node, entry) ∈ P.sequence
  id : it.id P.cache.memory = some entry.id
  get : it.get P.cache.memory = some entry.object

/-- A call takes the entry away that the iterator is at. -/
def Removes (P : CacheUse K ν T) (it : CacheIterator ν) : CacheCall K ν T → Prop
  | .erase it' => it'.it = it.it
  | .popBack => P.cache.list.back = it.it
  | _ => False

variable {P P' : CacheUse K ν T} {d : CacheCall K ν T} {it : CacheIterator ν}

def Good (P : CacheUse K ν T) : Prop := P.cache.Good P.sequence

omit [DecidableEq ν] [DecidableEq K] in
theorem good_init : Good (init : CacheUse K ν T) where
  holds := ⟨rfl, rfl, seg_nil, List.nodup_nil⟩
  hash := .refl _

omit [DecidableEq ν] in
theorem Good.inStep (h : Good P) : P.InStep where
  list := h.holds.linked
  once := h.nodup
  hash _ := h.mem_hash
  node _ hentry := h.lookup hentry
  size := h.size

omit [DecidableEq ν] in
/-- The entry with an id is picked out of the sequence by it. -/
theorem filter_id {c : FileCache K ν T} {s t : List (ν × Storage K T)} {node : ν} {id : K}
    {object : T} (h : c.Good (s ++ (node, ⟨id, object⟩) :: t)) :
    (s ++ (node, ⟨id, object⟩) :: t).filter (·.2.id = id) = [(node, ⟨id, object⟩)] ∧
      (s ++ (node, ⟨id, object⟩) :: t).filter (·.2.id ≠ id) = s ++ t :=
  filter_key_split h.nodup

omit [DecidableEq ν] in
theorem filter_id_of_not_mem {s : List (ν × Storage K T)} {id : K}
    (h : id ∉ s.map (·.2.id)) :
    s.filter (·.2.id = id) = [] ∧ s.filter (·.2.id ≠ id) = s := by
  have hne (entry : ν × Storage K T) (hentry : entry ∈ s) : entry.2.id ≠ id := fun heq =>
    h (heq ▸ List.mem_map_of_mem hentry)
  exact ⟨List.filter_eq_nil_iff.2 (by simpa using hne), List.filter_eq_self.2 (by simpa using hne)⟩

omit [DecidableEq K] in
/-- The entry at an iterator is picked out of the sequence by it. -/
theorem filter_it {c : FileCache K ν T} {s t : List (ν × Storage K T)} {node : ν}
    {entry : Storage K T} (h : c.Good (s ++ (node, entry) :: t)) :
    (s ++ (node, entry) :: t).filter (some ·.1 = some node) = [(node, entry)] ∧
      (s ++ (node, entry) :: t).filter (some ·.1 ≠ some node) = s ++ t := by
  simp only [Option.some.injEq, ne_eq]
  exact filter_split h.holds.nodup

/-- One call on a cache does what it does to the sequence. -/
theorem good_call {c : FileCache K ν T} {s : List (ν × Storage K T)} (h : c.Good s)
    (hd : Calls ⟨c, s⟩ d) :
    (∃ c', c.call d = some c' ∧ c'.Good (order s d)) ∨ d = .moveBackToFront ∧ s = [] := by
  cases d with
  | pushFront id object node => exact .inl (h.pushFront hd.1 hd.2 object)
  | pushBack id object node => exact .inl (h.pushBack hd.1 hd.2 object)
  | find id => exact .inl ⟨c, rfl, h⟩
  | moveToFront id =>
    rcases h.lookup_cases id with ⟨hlook, hid⟩ | ⟨s₁, node, object, s₂, rfl, hlook⟩
    · refine .inl ⟨c, ?_, ?_⟩
      · simp only [FileCache.call, FileCache.moveToFront, hlook]
      · rwa [order, (filter_id_of_not_mem hid).1, (filter_id_of_not_mem hid).2]
    · obtain ⟨c', hret, hgood⟩ := h.moveNodeToFront
      refine .inl ⟨c', ?_, ?_⟩
      · simp only [FileCache.call, FileCache.moveToFront, hlook]
        exact hret
      · rwa [order, (filter_id h).1, (filter_id h).2]
  | moveIteratorToFront it =>
    obtain ⟨node, hnode, rfl⟩ := hd
    obtain ⟨s₁, entry, s₂, rfl⟩ := exists_split hnode
    obtain ⟨c', hret, hgood⟩ := h.moveNodeToFront
    refine .inl ⟨c', hret, ?_⟩
    rwa [order, (filter_it h).1, (filter_it h).2]
  | moveToBack id =>
    rcases h.lookup_cases id with ⟨hlook, hid⟩ | ⟨s₁, node, object, s₂, rfl, hlook⟩
    · refine .inl ⟨c, ?_, ?_⟩
      · simp only [FileCache.call, FileCache.moveToBack, hlook]
      · rwa [order, (filter_id_of_not_mem hid).1, (filter_id_of_not_mem hid).2, List.append_nil]
    · obtain ⟨c', hret, hgood⟩ := h.moveNodeToBack
      refine .inl ⟨c', ?_, ?_⟩
      · simp only [FileCache.call, FileCache.moveToBack, hlook]
        exact hret
      · rwa [order, (filter_id h).1, (filter_id h).2]
  | moveBackToFront =>
    rcases List.eq_nil_or_concat s with rfl | ⟨s, ⟨node, entry⟩, rfl⟩
    · exact .inr ⟨rfl, rfl⟩
    · rw [List.concat_eq_append] at h ⊢
      obtain ⟨c', hret, hgood⟩ := h.moveNodeToFront
      refine .inl ⟨c', ?_, ?_⟩
      · have hback := h.holds.back_concat
        simp only [FileCache.call, FileCache.moveBackToFront, hback]
        exact hret
      · rw [List.append_nil] at hgood
        simpa [order] using hgood
  | erase it =>
    obtain ⟨node, hnode, rfl⟩ := hd
    obtain ⟨s₁, entry, s₂, rfl⟩ := exists_split hnode
    obtain ⟨c', hret, hgood⟩ := h.erase
    refine .inl ⟨c', hret, ?_⟩
    rwa [order, (filter_it h).2]
  | popBack =>
    rcases List.eq_nil_or_concat s with rfl | ⟨s, ⟨node, entry⟩, rfl⟩
    · refine .inl ⟨c, ?_, h⟩
      have hback : c.list.back = none := h.holds.back
      simp only [FileCache.call, FileCache.popBack, hback]
      rfl
    · rw [List.concat_eq_append] at h ⊢
      obtain ⟨c', hret, hgood⟩ := h.popBack
      refine .inl ⟨c', ?_, ?_⟩
      · simp only [FileCache.call, hret]
        rfl
      · rwa [order, List.dropLast_concat]

theorem Good.call (h : Good P) (hd : P.Calls d) :
    (∃ P', call d P = some P' ∧ Good P') ∨ d = .moveBackToFront ∧ P.sequence = [] := by
  refine (good_call h hd).imp_left ?_
  rintro ⟨c, hret, hgood⟩
  refine ⟨⟨c, order P.sequence d⟩, ?_, hgood⟩
  simp only [CacheUse.call, hret, Option.bind_eq_bind, Option.bind_some]

theorem sequence_of_call (h : call d P = some P') : P'.sequence = order P.sequence d := by
  obtain ⟨c, -, hP'⟩ := Option.bind_eq_some_iff.1 h
  obtain rfl := Option.some.inj hP'
  rfl

theorem Good.of_call (h : Good P) (hd : P.Calls d) (hcall : CacheUse.call d P = some P') :
    Good P' := by
  rcases h.call hd with ⟨P₁, hP₁, hgood⟩ | ⟨rfl, hnil⟩
  · obtain rfl := Option.some.inj (hP₁.symm.trans hcall)
    exact hgood
  · -- the assertion of `move_back_to_front` fails
    have hback : P.cache.list.back = none := by rw [h.holds.back, hnil, last_nil]
    simp [CacheUse.call, FileCache.call, FileCache.moveBackToFront, hback] at hcall

omit [DecidableEq K] [DecidableEq ν] in
/-- An iterator at a node of the list shows its entry. -/
theorem Good.isAt_iff (h : Good P) {entry : Storage K T} :
    P.IsAt it entry ↔ ∃ node, it = ⟨true, some node⟩ ∧ (node, entry) ∈ P.sequence := by
  constructor
  · intro hat
    obtain ⟨node, hnode, hmem⟩ := hat.mem
    obtain ⟨b, node'⟩ := it
    obtain rfl : node' = some node := hnode
    have hb : b = true := by simpa [CacheIterator.finished] using hat.finished
    exact ⟨node, by rw [hb], hmem⟩
  · rintro ⟨node, rfl, hmem⟩
    obtain ⟨s₁, s₂, hs⟩ := List.append_of_mem hmem
    have hnode := (seg_split.1 (hs ▸ h.holds.seg)).2.1
    refine ⟨rfl, ⟨node, rfl, hmem⟩, ?_, ?_⟩
    · simp only [CacheIterator.id, load, Option.bind_some, hnode, Option.map_some]
    · simp only [CacheIterator.get, load, Option.bind_some, hnode, Option.map_some]

/-- An entry stays in the sequence until a call takes it away. -/
theorem mem_order (h : Good P) {node : ν} {entry : Storage K T}
    (hmem : (node, entry) ∈ P.sequence) (hkeep : ¬P.Removes ⟨true, some node⟩ d) :
    (node, entry) ∈ order P.sequence d := by
  cases d with
  | pushFront id object new => exact List.mem_cons_of_mem _ hmem
  | pushBack id object new => exact List.mem_append_left _ hmem
  | find id => exact hmem
  | moveToFront id =>
    by_cases hid : entry.id = id <;> simp [order, hmem, hid]
  | moveIteratorToFront it' =>
    by_cases hit : some node = it'.it <;> simp [order, hmem, hit]
  | moveToBack id =>
    by_cases hid : entry.id = id <;> simp [order, hmem, hid]
  | moveBackToFront =>
    rcases List.eq_nil_or_concat P.sequence with hs | ⟨s, last, hs⟩
    · simp [hs] at hmem
    · rw [hs, List.concat_eq_append] at hmem
      rw [order, hs, List.concat_eq_append, List.getLast?_concat, List.dropLast_concat]
      exact List.perm_append_singleton last s |>.mem_iff.1 hmem
  | erase it' =>
    have hne : some node ≠ it'.it := fun heq => hkeep heq.symm
    simp [order, hmem, hne]
  | popBack =>
    rcases List.eq_nil_or_concat P.sequence with hs | ⟨s, ⟨last, x⟩, hs⟩
    · simp [hs] at hmem
    · rw [hs, List.concat_eq_append] at hmem
      rw [order, hs, List.concat_eq_append, List.dropLast_concat]
      rw [Good, hs, List.concat_eq_append] at h
      have hback := h.holds.back_concat
      rcases List.mem_append.1 hmem with hmem | hmem
      · exact hmem
      · cases List.mem_singleton.1 hmem
        exact absurd hback hkeep

end CacheUse

/-- **The list and the hash are in step** after any calls, and every call returns that a client may
make, but for `move_back_to_front` on an empty list.  An iterator stays at its entry, through any
calls, until one of them takes the entry away. -/
theorem fileCache_inStep [DecidableEq K] [DecidableEq ν] {P : CacheUse K ν T}
    (h : Reach CacheUse.call CacheUse.Calls CacheUse.init P) :
    P.InStep ∧
      (∀ d, P.Calls d →
        (CacheUse.call d P).isSome ∨ d = .moveBackToFront ∧ P.sequence = []) ∧
      ∀ it entry, P.IsAt it entry → ∀ P',
        Reach CacheUse.call (fun P d => P.Calls d ∧ ¬P.Removes it d) P P' → P'.IsAt it entry := by
  have hgood : P.Good := h.invariant CacheUse.good_init fun _ _ _ hP hd hcall => hP.of_call hd hcall
  refine ⟨hgood.inStep, fun d hd => ?_, fun it entry hat P' hreach => ?_⟩
  · refine (hgood.call hd).imp_left ?_
    rintro ⟨P', hP', -⟩
    rw [hP', Option.isSome_some]
  · obtain ⟨node, rfl, hmem⟩ := hgood.isAt_iff.1 hat
    have hkept : P'.Good ∧ (node, entry) ∈ P'.sequence := by
      refine hreach.invariant (I := fun P => P.Good ∧ (node, entry) ∈ P.sequence) ⟨hgood, hmem⟩ ?_
      rintro P₁ d P₂ ⟨hgood₁, hmem₁⟩ ⟨hd, hkeep⟩ hcall
      refine ⟨hgood₁.of_call hd hcall, ?_⟩
      rw [CacheUse.sequence_of_call hcall]
      exact CacheUse.mem_order hgood₁ hmem₁ hkeep
    exact hkept.1.isAt_iff.2 ⟨node, rfl, hkept.2⟩

/-- Entries come, are moved and go. -/
def cacheCalls : List (CacheCall ℕ ℕ ℕ) :=
  [.pushFront 10 7 0, .pushBack 20 8 1, .pushFront 30 9 2, .find 20, .moveToBack 30,
    .moveIteratorToFront (.mk true (some 1)), .moveBackToFront, .erase (.mk true (some 1)),
    .popBack, .pushBack 20 5 1, .moveToFront 20]

theorem fileCache_inStep_cacheCalls :
    ∃ P : CacheUse ℕ ℕ ℕ, P.sequence.map (·.2.id) = [20, 30] ∧ P.InStep ∧
      (∀ d, P.Calls d →
        (CacheUse.call d P).isSome ∨ d = .moveBackToFront ∧ P.sequence = []) ∧
      ∀ it entry, P.IsAt it entry → ∀ P',
        Reach CacheUse.call (fun P d => P.Calls d ∧ ¬P.Removes it d) P P' → P'.IsAt it entry := by
  refine ⟨_, ?_, fileCache_inStep (Reach.of_play_if (Option.some_get (show (play (fun d P =>
    if P.Calls d then CacheUse.call d P else none) cacheCalls
      CacheUse.init).isSome by decide)).symm)⟩
  decide

end MegaTree
