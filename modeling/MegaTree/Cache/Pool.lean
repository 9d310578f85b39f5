import MegaTree.Cache.Counters
import MegaTree.Cache.Modified

/-!
# The pool of node objects

`node_allocator` has a fixed number of `Node` objects.  A step of the client or of a callback takes
objects from it: `createNode` and the placeholders of `readNode` one, and `deserialize` one for each
record, which it gives back when the file already holds the node.

* `Supplied` : the assertion of `allocate` does not fail in a step.
* `heldNodes_le` : the files hold no more objects after a step than the step asked for.
* `HasRoom` : what the code does not check, in terms of its own counter.
* `pool_suffices` : as long as there is room in this sense, the assertion does not fail; and where
  there is none, it fails.
-/

namespace MegaTree

open Effect CacheState

variable {cfg : Config} {m m' : CacheState} {f : LongId} {file : NodeFile} {b b' : Bool}

/-! ### The allocator -/

/-- `allocate()`: the number of objects that are left, or `none` where the assertion fails. -/
def allocate : ℕ → Option ℕ
  | 0 => none
  | free + 1 => some free

theorem allocate_isSome {free : ℕ} : (allocate free).isSome ↔ 1 ≤ free := by
  cases free with
  | zero => simp [allocate]
  | succ free => simp [allocate]

/-- The loop of `deserialize(buffer)`, with the objects that are left: `cache` has the nodes that the
file holds. -/
def allocateNodes (buffer : ByteVec) : ℕ → ℕ → NodeMap → ℕ → Option ℕ
  | 0, _, _, _ => none
  | fuel + 1, offset, cache, free =>
    if offset < buffer.length then
      (allocate free).bind fun free =>
        match deserializeNode buffer offset with
        | some (n, shortId, offset') =>
          -- the object of a node that is there already is given back
          allocateNodes buffer fuel offset' (cache.insert shortId n)
            (if (cache[shortId]?).isSome then free + 1 else free)
        | none => none
    else some free

/-- The most objects that this loop has taken at any time. -/
def objectsNeeded (buffer : ByteVec) : ℕ → ℕ → NodeMap → ℕ
  | 0, _, _ => 0
  | fuel + 1, offset, cache =>
    if offset < buffer.length then
      match deserializeNode buffer offset with
      | some (n, shortId, offset') =>
        max 1 ((if (cache[shortId]?).isSome then 0 else 1) +
          objectsNeeded buffer fuel offset' (cache.insert shortId n))
      | none => 1
    else 0

theorem size_insert_eq {cache : NodeMap} {s : ShortId} {n : Node} :
    (cache.insert s n).size = cache.size + if (cache[s]?).isSome then 0 else 1 := by
  by_cases h : (cache[s]?).isSome
  · rw [if_pos h]
    exact size_setNode_of_isSome (d := ⟨0, cache⟩) h
  · rw [if_neg h]
    exact size_setNode_of_none (d := ⟨0, cache⟩) (Option.not_isSome_iff_eq_none.1 h)

/-- A file has no more nodes after it was read than the loop asked for. -/
theorem size_le_objectsNeeded {buffer : ByteVec} {fuel offset : ℕ} {cache nodes : NodeMap}
    (h : deserializeNodes buffer fuel offset cache = some nodes) :
    nodes.size ≤ cache.size + objectsNeeded buffer fuel offset cache := by
  induction fuel generalizing offset cache with
  | zero => cases h
  | succ fuel ih =>
    rw [deserializeNodes] at h
    rw [objectsNeeded]
    split_ifs at h ⊢ with hlt hend
    · cases hd : deserializeNode buffer offset with
      | none => simp only [hd] at h; cases h
      | some x =>
        obtain ⟨n, s, offset'⟩ := x
        simp only [hd] at h ⊢
        have hsize := ih h
        rw [size_insert_eq] at hsize
        omega
    · obtain rfl := Option.some.inj h
      exact Nat.le_add_right ..

/-- The assertion does not fail in the loop when there are as many objects as it needs. -/
theorem allocateNodes_isSome {buffer : ByteVec} {fuel offset free : ℕ} {cache nodes : NodeMap}
    (h : deserializeNodes buffer fuel offset cache = some nodes) :
    (allocateNodes buffer fuel offset cache free).isSome ↔
      objectsNeeded buffer fuel offset cache ≤ free := by
  induction fuel generalizing offset cache free with
  | zero => cases h
  | succ fuel ih =>
    rw [deserializeNodes] at h
    rw [allocateNodes, objectsNeeded]
    split_ifs at h ⊢ with hlt hend
    · cases hd : deserializeNode buffer offset with
      | none => simp only [hd] at h; cases h
      | some x =>
        obtain ⟨n, s, offset'⟩ := x
        simp only [hd] at h ⊢
        cases free with
        | zero =>
          refine iff_of_false (fun hno => by cases hno) ?_
          omega
        | succ free =>
          rw [allocate, Option.bind_some, ih h]
          split_ifs <;> omega
    · exact iff_of_true rfl (Nat.zero_le _)

/-! ### The objects that the files hold -/

namespace CacheState

/-- `readNode` makes a placeholder. -/
def makesPlaceholder (m : CacheState) (f : LongId) (s : ShortId) : Bool :=
  (m.files f).any fun file => decide (file.nodeState = .loading) && (file.data.nodeCache[s]?).isNone

/-- The objects that are left when an operation of the client takes what it needs. -/
def allocateFor (m : CacheState) (free : ℕ) : CacheOp → Option ℕ
  | .createNode _ _ => allocate free
  | .readNode f s => if m.makesPlaceholder f s then allocate free else some free
  | _ => some free

/-- The objects that are left when a callback takes what it needs. -/
def allocateIn (m : CacheState) (free : ℕ) : Event → Option ℕ
  | .callback f (.read (some buffer)) => (m.files f).bind fun file =>
      allocateNodes buffer (buffer.length + 1) 1 file.data.nodeCache free
  | _ => some free

/-- The number of objects that an operation of the client needs. -/
def neededFor (m : CacheState) : CacheOp → ℕ
  | .createNode _ _ => 1
  | .readNode f s => if m.makesPlaceholder f s then 1 else 0
  | _ => 0

/-- The number of objects that a callback needs. -/
def neededIn (m : CacheState) : Event → ℕ
  | .callback f (.read (some buffer)) => ((m.files f).map fun file =>
      objectsNeeded buffer (buffer.length + 1) 1 file.data.nodeCache).getD 0
  | _ => 0

theorem allocateFor_isSome {free : ℕ} {o : CacheOp} :
    (m.allocateFor free o).isSome ↔ m.neededFor o ≤ free := by
  cases o with
  | createNode f s => exact allocate_isSome
  | readNode f s =>
    rw [allocateFor, neededFor]
    split_ifs
    · exact allocate_isSome
    · exact iff_of_true rfl (Nat.zero_le _)
  | _ => exact iff_of_true rfl (Nat.zero_le _)

theorem deserialize_nodes {buffer : ByteVec} {cache : NodeMap} {d : FileData}
    (h : deserialize buffer cache = some d) :
    deserializeNodes buffer (buffer.length + 1) 1 cache = some d.nodeCache := by
  obtain ⟨c, -, h⟩ := Option.bind_eq_some_iff.1 h
  obtain ⟨nodes, hnodes, h⟩ := Option.bind_eq_some_iff.1 h
  rw [hnodes, ← Option.some.inj h]

theorem allocateIn_isSome {free : ℕ} {e : Event} (h : CacheState.env cfg e m = some m') :
    (m.allocateIn free e).isSome ↔ m.neededIn e ≤ free := by
  cases e with
  | callback f r =>
    cases r with
    | read buffer =>
      cases buffer with
      | none => exact iff_of_true rfl (Nat.zero_le _)
      | some buffer =>
        obtain ⟨-, h⟩ := Option.ite_none_right_eq_some.1 h
        obtain ⟨-, h⟩ := Option.ite_none_right_eq_some.1 h
        obtain ⟨file, hf, h⟩ := Option.bind_eq_some_iff.1 h
        obtain ⟨d, hd, -⟩ := Option.map_eq_some_iff.1 h
        simp only at hf
        rw [allocateIn, neededIn, hf]
        exact allocateNodes_isSome (deserialize_nodes hd)
    | _ => exact iff_of_true rfl (Nat.zero_le _)
  | _ => exact iff_of_true rfl (Nat.zero_le _)

end CacheState

theorem CacheState.nodesOf_congr (hs : m'.shape f = m.shape f) : m'.nodesOf f = m.nodesOf f := by
  have h : ∀ m : CacheState, m.nodesOf f = ((m.shape f).map Prod.snd).getD 0 := by
    intro m
    rw [CacheState.nodesOf, CacheState.shape, Option.map_map]
    rfl
  rw [h, h, hs]

theorem SameSizes.heldNodes (h : SameSizes m m') : m'.heldNodes = m.heldNodes := by
  rw [CacheState.heldNodes, CacheState.heldNodes, h.order,
    List.map_congr_left fun f _ => nodesOf_congr (h.shape f)]

theorem CacheState.heldNodes_congr (hf : m'.files = m.files) (ho : m'.order = m.order) :
    m'.heldNodes = m.heldNodes := by
  have hnodes : m'.nodesOf = m.nodesOf := funext fun f => nodesOf_of_files (congrFun hf f)
  rw [CacheState.heldNodes, CacheState.heldNodes, ho, hnodes]

namespace Accounted

/-- An object is put in the place of a file. -/
theorem heldNodes_put {file' : NodeFile} (h : Accounted m b)
    (hm : m'.files = Function.update m.files f (some file'))
    (ho : m'.order = f :: m.order.erase f ∨ (m.files f).isSome ∧ m'.order = m.order) :
    m'.heldNodes + m.nodesOf f = m.heldNodes + file'.data.nodeCache.size := by
  have hmem : f ∈ m'.order := by
    rcases ho with ho | ⟨hf, ho⟩ <;> rw [ho]
    · exact List.mem_cons_self
    · exact (h.mem f).2 hf
  have herase : m'.order.erase f = m.order.erase f := by
    rcases ho with ho | ⟨-, ho⟩ <;> rw [ho]
    exact List.erase_cons_head ..
  have hsum := sum_map_update m.nodesOf m'.nodesOf h.nodup herase
    (fun g hg => nodesOf_of_files (by rw [hm, Function.update_of_ne hg]))
    (fun hno => nodesOf_of_none (Option.isNone_iff_eq_none.1 (by simpa [h.mem] using hno)))
    (fun hno => absurd hmem hno)
  rwa [nodesOf_of_some (by rw [hm, Function.update_self] : m'.files f = some file')] at hsum

/-- An object is put in the place of one with as many nodes. -/
theorem heldNodes_eq {file' : NodeFile} (h : Accounted m b) (hf : m.files f = some file)
    (hm : m'.files = Function.update m.files f (some file'))
    (ho : m'.order = f :: m.order.erase f ∨ m'.order = m.order)
    (hn : file'.data.nodeCache.size = file.data.nodeCache.size) : m'.heldNodes = m.heldNodes := by
  have hput := h.heldNodes_put hm (ho.imp_right fun ho => ⟨by rw [hf]; rfl, ho⟩)
  rw [nodesOf_of_some hf] at hput
  omega

/-- A file gets more nodes. -/
theorem heldNodes_grow {file' : NodeFile} {n : ℕ} (h : Accounted m b) (hf : m.files f = some file)
    (hm : m'.files = Function.update m.files f (some file')) (ho : m'.order = m.order)
    (hn : file'.data.nodeCache.size ≤ file.data.nodeCache.size + n) :
    m'.heldNodes ≤ m.heldNodes + n := by
  have hput := h.heldNodes_put hm (.inr ⟨by rw [hf]; rfl, ho⟩)
  rw [nodesOf_of_some hf] at hput
  omega

/-- A file that is not in memory yet holds nothing. -/
theorem heldNodes_new {file' : NodeFile} (h : Accounted m b) (hf : m.files f = none)
    (hm : m'.files = Function.update m.files f (some file')) (ho : m'.order = f :: m.order)
    (hd : file'.data = .empty) : m'.heldNodes = m.heldNodes := by
  have hno : f ∉ m.order := fun hmem => by
    rw [h.mem, hf] at hmem
    cases hmem
  have hput := h.heldNodes_put hm (.inl (by rw [ho, List.erase_of_not_mem hno]))
  have hempty : FileData.empty.nodeCache.size = 0 := rfl
  rw [nodesOf_of_none hf, hd, hempty] at hput
  omega

theorem heldNodes_maintenance {busy : LongId → Bool} (h : Accounted m b) (hfl : Flights m)
    (hc : m.cacheMaintenance cfg busy = some m') : m'.heldNodes ≤ m.heldNodes := by
  refine (cacheMaintenance_induct (P := fun m₁ => Accounted m₁ b ∧ Flights m₁ ∧
    m₁.owner .fileCacheMutex = none ∧ m₁.heldNodes ≤ m.heldNodes) ?_ ?_ hc
    ⟨h, hfl, Flights.free_of_maintenance hc, le_rfl⟩).2.2.2
  · rintro m₁ f file ⟨h, hfl, ho, hle⟩ hf hs - -
    exact ⟨h.dropFile hfl hf hs, hfl.dropFile ho hf hs, ho,
      (h.heldNodes_dropFile_le f file).trans hle⟩
  · rintro m₁ f file ⟨h, hfl, ho, hle⟩ hf hs - -
    have heq : (m₁.startEvict f file).heldNodes = m₁.heldNodes :=
      h.heldNodes_eq hf files_startEvict (.inr rfl) rfl
    exact ⟨h.startEvict hfl hf hs, hfl.startEvict ho hf hs, ho, heq ▸ hle⟩

/-- The client gets no more objects than it asks for. -/
theorem heldNodes_client {c : CacheChoice} {o : CacheOp} {r : o.Res} (h : Accounted m b)
    (hfl : Flights m) (hc : CacheState.client cfg c o m = some (r, m')) :
    m'.heldNodes ≤ m.heldNodes + m.neededFor o := by
  cases o with
  | getNodeFile f =>
    obtain ⟨-, ⟨file, hf, rfl⟩ | ⟨hf, rfl⟩⟩ := getNodeFile_cases hc
    · exact le_of_eq (h.heldNodes_eq hf rfl (.inl rfl) rfl)
    · exact le_of_eq (h.heldNodes_new hf rfl rfl rfl)
  | createNodeFile f =>
    obtain ⟨-, hf, rfl⟩ := createNodeFile_cases hc
    exact le_of_eq (h.heldNodes_new hf rfl rfl rfl)
  | cacheMaintenance =>
    obtain ⟨m₁, hm, he⟩ := Option.map_eq_some_iff.1 hc
    obtain ⟨-, rfl⟩ := Prod.mk.inj he
    exact h.heldNodes_maintenance hfl hm
  | readNode f s =>
    obtain ⟨file, hf, ⟨-, -, rfl⟩ | ⟨hn, hs, -, rfl⟩ | ⟨-, -, rfl⟩⟩ := readNode_cases hc
    · exact Nat.le_add_right_of_le (le_of_eq (h.heldNodes_eq hf rfl (.inr rfl) rfl))
    · -- only a placeholder takes an object
      have hneeded : m.neededFor (.readNode f s) = 1 := by
        simp [neededFor, makesPlaceholder, hf, hn, hs]
      rw [hneeded]
      exact h.heldNodes_grow (n := 1) hf rfl rfl (size_setNode_of_none hn).le
    · exact Nat.le_add_right ..
  | createNode f s =>
    obtain ⟨file, hf, he⟩ := Option.map_eq_some_iff.1 hc
    obtain ⟨-, rfl⟩ := Prod.mk.inj he
    refine h.heldNodes_grow hf rfl rfl ?_
    rw [neededFor]
    split_ifs with hn
    · exact Nat.le_succ _
    · exact (size_setNode_of_none (Option.not_isSome_iff_eq_none.1 hn)).le
  | countNode =>
    obtain ⟨-, rfl⟩ := Prod.mk.inj (Option.some.inj hc)
    exact le_rfl
  | _ => exact (SameSizes.of_client hc trivial).heldNodes.le

/-- The files get no more objects than the callbacks ask for. -/
theorem heldNodes_env {e : Event} (h : Accounted m b) (hfl : Flights m)
    (he : CacheState.env cfg e m = some m') : m'.heldNodes ≤ m.heldNodes + m.neededIn e := by
  cases e with
  | complete f r =>
    obtain ⟨-, he⟩ := Option.ite_none_right_eq_some.1 he
    rcases r with (_ | buffer) | ⟨data, _ | _⟩ | ⟨data, _ | _⟩ <;> simp only at he
    · obtain ⟨buffer, -, rfl⟩ := Option.map_eq_some_iff.1 he
      exact le_of_eq (heldNodes_congr rfl rfl)
    · cases he
    · obtain rfl := Option.some.inj he
      exact le_of_eq (heldNodes_congr rfl rfl)
    · cases he
    · obtain rfl := Option.some.inj he
      exact le_of_eq (heldNodes_congr rfl rfl)
    · cases he
  | callback f r =>
    obtain ⟨hp, he⟩ := Option.ite_none_right_eq_some.1 he
    rcases r with (_ | buffer) | ⟨data, _ | _⟩ | ⟨data, _ | _⟩ <;> simp only at he
    · cases he
    · obtain ⟨-, he⟩ := Option.ite_none_right_eq_some.1 he
      obtain ⟨file, hf, he⟩ := Option.bind_eq_some_iff.1 he
      obtain ⟨d, hd, rfl⟩ := Option.map_eq_some_iff.1 he
      simp only at hf
      rw [neededIn, hf]
      exact h.heldNodes_grow hf rfl rfl (size_le_objectsNeeded (deserialize_nodes hd))
    · cases he
    · rcases evictNodeFileCb_cases
        { m with pending := m.pending.erase (f, .evict data true) } f with
        ⟨file, hf, -, hs, ho, hcb⟩ | ⟨file, owner, hf, -, -, -, -, hcb⟩ | ⟨owner, -, -, hcb⟩ |
        hcb | hcb <;> rw [hcb] at he
      · obtain rfl := Option.some.inj he
        exact (heldNodes_congr rfl rfl).trans_le (h.heldNodes_dropFile_le f file)
      · obtain rfl := Option.some.inj he
        exact le_of_eq (h.heldNodes_eq hf rfl (.inr rfl) rfl)
      · obtain rfl := Option.some.inj he
        exact le_of_eq (heldNodes_congr rfl rfl)
      · cases he
      · cases he
    · cases he
    · obtain ⟨-, he⟩ := Option.ite_none_right_eq_some.1 he
      obtain ⟨file, hf, rfl⟩ := Option.map_eq_some_iff.1 he
      exact le_of_eq (h.heldNodes_eq hf rfl (.inr rfl) rfl)
  | maintenance busy =>
    obtain ⟨-, hc⟩ := Option.ite_none_right_eq_some.1 he
    have h' : Accounted { m with loaders := m.loaders - 1 } b :=
      ⟨h.nodup, h.mem, h.cache, h.write, h.frozen⟩
    exact h'.heldNodes_maintenance (hfl.congr (fun _ => rfl) rfl rfl rfl) hc

end Accounted

/-! ### Room -/

namespace CacheState

/-- The objects of the files whose first read is not finished. -/
def readAhead (m : CacheState) : ℕ := ((m.order.filter fun f => !m.isCounted f).map m.nodesOf).sum

theorem sizeOf_eq_nodesOf (h : m.nodesOf f < UInt32.size) : m.sizeOf f = m.nodesOf f := by
  cases hf : m.files f with
  | none => rw [sizeOf_of_none hf, nodesOf_of_none hf]
  | some file =>
    rw [nodesOf_of_some hf] at h ⊢
    rw [sizeOf_of_some hf, NodeFile.cacheSize, UInt32.toNat_ofNat_of_lt' h]

/-- The files hold what the cache counts and what is read ahead. -/
theorem heldNodes_eq_add (h : m.heldNodes < UInt32.size) :
    m.heldNodes = m.cachedNodes + m.readAhead := by
  have hsplit : ∀ l : List LongId, (∀ f ∈ l, m.nodesOf f < UInt32.size) → (l.map m.nodesOf).sum =
      m.sizes (l.filter m.isCounted) + ((l.filter fun f => !m.isCounted f).map m.nodesOf).sum := by
    intro l hl
    induction l with
    | nil => rfl
    | cons f l ih =>
      have hf := sizeOf_eq_nodesOf (hl f List.mem_cons_self)
      rw [List.map_cons, List.sum_cons, ih fun g hg => hl g (List.mem_cons_of_mem f hg)]
      cases hc : m.isCounted f <;> simp [hc, hf] <;> omega
  exact hsplit m.order fun f hf => lt_of_le_of_lt
    (List.single_le_sum (fun _ _ => Nat.zero_le _) _ (List.mem_map_of_mem hf)) h

end CacheState

/-- What is left of the program of the client, and the cache. -/
abbrev Running := TreeM Client × CacheState

namespace Running

/-- The objects that are left when a step of the client or of the environment takes what it needs. -/
def allocateAt (x : Running) (free : ℕ) : CacheChoice ⊕ Event → Option ℕ
  | .inl _ =>
    match x.1 with
    | .call o _ => x.2.allocateFor free o
    | _ => some free
  | .inr e => x.2.allocateIn free e

/-- The number of objects that a step needs. -/
def needed (x : Running) : CacheChoice ⊕ Event → ℕ
  | .inl _ =>
    match x.1 with
    | .call o _ => x.2.neededFor o
    | _ => 0
  | .inr e => x.2.neededIn e

/-- `current_cache_size`, with the node that the client is about to count. -/
def sizeCounted (x : Running) : UInt32 :=
  match x.1 with
  | .call .countNode _ => x.2.currentCacheSize + 1
  | _ => x.2.currentCacheSize

end Running

/-- The assertion of `allocate` does not fail in a step. -/
def Supplied (cfg : Config) (x : Running) (d : CacheChoice ⊕ Event) : Prop :=
  (x.allocateAt (cfg.poolSize.toNat - x.2.heldNodes) d).isSome

/-- The nodes that the code has counted, those that it has read ahead and those that a step needs are
not more than the allocator has.  Nothing in the code checks this. -/
def HasRoom (cfg : Config) (x : Running) (d : CacheChoice ⊕ Event) : Prop :=
  x.sizeCounted.toNat + x.2.readAhead + x.needed d ≤ cfg.poolSize.toNat

instance (x : Running) (d : CacheChoice ⊕ Event) : Decidable (HasRoom cfg x d) :=
  inferInstanceAs (Decidable (_ ≤ _))

variable {x x' : Running} {d : CacheChoice ⊕ Event}

theorem supplied_iff (hd : (cacheMachine cfg).step d x = some x')
    (hheld : x.2.heldNodes ≤ cfg.poolSize.toNat) :
    Supplied cfg x d ↔ x.2.heldNodes + x.needed d ≤ cfg.poolSize.toNat := by
  have hiff : Supplied cfg x d ↔ x.needed d ≤ cfg.poolSize.toNat - x.2.heldNodes := by
    rcases Machine.step_cases hd with ⟨c, o, k, r, rfl, hx, -, -⟩ | ⟨e, rfl, -, he, -⟩
    · simp only [Supplied, Running.allocateAt, Running.needed, hx]
      exact allocateFor_isSome
    · exact allocateIn_isSome he
  rw [hiff]
  omega

/-- The files hold no more objects after a step than before it and what the step needed. -/
theorem heldNodes_le (hd : (cacheMachine cfg).step d x = some x') (h : Accounted x.2 b)
    (hfl : Flights x.2) : x'.2.heldNodes ≤ x.2.heldNodes + x.needed d := by
  rcases Machine.step_cases hd with ⟨c, o, k, r, rfl, hx, hc, -⟩ | ⟨e, rfl, -, he, -⟩
  · simp only [Running.needed, hx]
    exact h.heldNodes_client hfl hc
  · exact h.heldNodes_env hfl he

/-! ### Runs -/

/-- The operations that a store without evictions allows are those that the comments ask for. -/
theorem Sim.proper {E : FileData → FileData → Prop} {σ : Store} (hE : Similarity E) (h : Sim E m σ)
    {o : CacheOp} (hs : (Store.step .plain o σ).isSome) : Proper m o := by
  cases o with
  | createNode f s =>
    intro file hf
    obtain ⟨d, hd, hph⟩ := h.exists_data hf
    simp only [Store.step, hd] at hs
    obtain ⟨-, hb⟩ := Store.of_check hs
    simp only [Bool.and_eq_true, decide_eq_true_eq, Option.isNone_iff_eq_none] at hb
    obtain ⟨d', modified, he, hfile, -⟩ := hph.of_ready hb.1.1 hb.1.2
    obtain rfl := Option.some.inj (hfile.symm.trans hf)
    rw [← Option.not_isSome_iff_eq_none, hE.nodes he, hb.2]
    exact Bool.false_ne_true
  | readNode f s =>
    rintro file hf hl ⟨data, w, hp⟩
    obtain ⟨d, hd, hph⟩ := h.exists_data hf
    obtain ⟨d', d'', st, b, rest, he, he', rfl, hf', hreq, hrest, hu, -⟩ :=
      hph.of_evict (mem_inFlight.2 hp)
    obtain rfl := Option.some.inj (hf'.symm.trans hf)
    -- the client has not seen the file loaded, so the store only lets it read a node that is there
    cases hlook : d.nodeCache[s]? with
    | some n => rw [hE.nodes he, hlook]; rfl
    | none =>
      simp only [Store.step, Store.lookup, hd, Option.bind_some, hlook] at hs
      obtain ⟨-, hb⟩ := Store.of_check hs
      simp only [Bool.and_eq_true, decide_eq_true_eq] at hb
      rcases hu with ⟨rfl, -⟩ | ⟨-, hready⟩
      · cases hl
      · have : (σ.uses f).ready = false := hready hb.1
        rw [hb.2] at this
        cases this
  | _ => trivial

/-- The counter, with a node that was created and has yet to be counted, is exact. -/
theorem Audited.toNat_sizeCounted {q : TreeM Client} {y : Ledger} {X : Err → Prop} (h : Audited m y)
    (hq : ∀ e, q ≠ .fail e) (hw : q.wp Ledger.step (fun _ y => y.2 = false) X y)
    (hheld : m.heldNodes < UInt32.size) : (Running.sizeCounted (q, m)).toNat = m.cachedNodes := by
  have hle : m.cachedNodes ≤ m.heldNodes := sizes_le_heldNodes List.filter_sublist
  have hcounter : Running.sizeCounted (q, m) = m.currentCacheSize + .ofNat y.2.toNat := by
    cases q with
    | ret s =>
      rw [Audited.counted (q := .ret s) trivial hw]
      exact (UInt32.add_zero _).symm
    | fail e => exact absurd rfl (hq e)
    | call o k =>
      by_cases ho : o = .countNode
      · subst ho
        obtain ⟨r, z, hz, -⟩ := hw .plain
        obtain ⟨b', hb, -⟩ := Option.bind_eq_some_iff.1 hz
        rw [(Option.ite_none_right_eq_some.1 hb).1]
        rfl
      · have hsettled : y.2 = false := Audited.counted (q := .call o k) ho hw
        rw [hsettled]
        cases o with
        | countNode => exact absurd rfl ho
        | _ => exact (UInt32.add_zero _).symm
  rw [hcounter, h.accounts.cache, UInt32.toNat_ofNat_of_lt' (lt_of_le_of_lt hle hheld)]

variable {create : Bool} {storage : LongId → Option ByteVec} {calls : List Call} {σ : Store}

/-- In a session that inserts points the counter is exact in every configuration, up to a node that is
about to be counted. -/
theorem exists_audited (h₀ : Found cfg create storage σ) (hx : ∀ x ∈ calls, x.writes = true)
    (hrun : (cacheMachine cfg).Run (fun _ _ => True) (life cfg create calls) (.opened storage) x.1 x.2) :
    ∃ y, Audited x.2 y ∧ x.1.wp Ledger.step (fun _ y => y.2 = false) (fun _ => True) y := by
  have hproper : (cacheMachine cfg).Run Proper (life cfg create calls)
    (.opened storage) x.1 x.2 := by
    refine (simulatesUpTo similarity_sameShape cfg).run_mono (fun m σ o hsim hall => ?_) hrun
      (h₀.sim similarity_sameShape) (h₀.shape_life hx)
    have hstep := hall (.plain, .id similarity_sameShape)
    unfold Store.stepUpTo at hstep
    split_ifs at hstep
    · rw [change_id] at hstep
      exact hsim.proper similarity_sameShape hstep
    · cases hstep
  obtain ⟨y, -, haud, hw⟩ := (audited_simulates cfg).run hproper (.opened storage) ledger_life
  exact ⟨y, haud, hw⟩

/-- **The pool does not run dry where there is room.**  In a session that inserts points, and in which
before every step the counted nodes, the nodes that are read ahead and those that the step needs fit
into the allocator, the files never hold more objects than it has, and the assertion of `allocate`
does not fail.  Where they do not fit, it fails. -/
theorem pool_suffices (h₀ : Found cfg create storage σ) (hx : ∀ x ∈ calls, x.writes = true)
    (hreach : Reach (cacheMachine cfg).step (HasRoom cfg)
      (life cfg create calls, CacheState.opened storage) x) :
    x.2.heldNodes ≤ cfg.poolSize.toNat ∧
      ∀ d x', (cacheMachine cfg).step d x = some x' → (Supplied cfg x d ↔ HasRoom cfg x d) := by
  have hlt : cfg.poolSize.toNat < UInt32.size := cfg.poolSize.toNat_lt
  -- the condition is exact in every configuration in which the files hold what the allocator has
  have hexact : ∀ {x x' : Running} {d}, (cacheMachine cfg).Run (fun _ _ => True)
      (life cfg create calls) (.opened storage) x.1 x.2 → x.2.heldNodes ≤ cfg.poolSize.toNat →
      (cacheMachine cfg).step d x = some x' → x'.2.heldNodes ≤ x.2.heldNodes + x.needed d ∧
        (HasRoom cfg x d ↔ x.2.heldNodes + x.needed d ≤ cfg.poolSize.toNat) := by
    intro x x' d hrun hheld hd
    obtain ⟨y, haud, hw⟩ := exists_audited h₀ hx hrun
    have hfail : ∀ e, x.1 ≠ .fail e := by
      rcases Machine.step_cases hd with ⟨c, o, k, r, -, hcall, -⟩ | ⟨e, -, hne, -⟩
      · rw [hcall]
        exact nofun
      · exact hne
    have hcount : x.sizeCounted.toNat = x.2.cachedNodes :=
      haud.toNat_sizeCounted hfail hw (by omega)
    refine ⟨heldNodes_le hd haud.accounts haud.flights, ?_⟩
    rw [HasRoom, hcount, heldNodes_eq_add (by omega : x.2.heldNodes < UInt32.size)]
  have hheld : x.2.heldNodes ≤ cfg.poolSize.toNat := by
    induction hreach with
    | refl => exact Nat.zero_le _
    | tail d hreach hroom hd ih =>
      obtain ⟨hle, hiff⟩ := hexact (.of_reach hreach) ih hd
      exact hle.trans (hiff.1 hroom)
  exact ⟨hheld, fun d x' hd =>
    (supplied_iff hd hheld).trans (hexact (.of_reach hreach) hheld hd).2.symm⟩

/-- Four points fill the pool to the last object, while a file is written. -/
theorem pool_suffices_crowded :
    let cfg := { Config.sample with maxCacheSize := 6 }
    ∃ x : Running, x.2.heldNodes = cfg.poolSize.toNat ∧ 0 < x.2.writingNodes ∧
      ∀ d x', (cacheMachine cfg).step d x = some x' → (Supplied cfg x d ↔ HasRoom cfg x d) := by
  intro cfg
  let test (x : Running) : Bool :=
    decide (cfg.poolSize.toNat ≤ x.2.heldNodes) && decide (0 < x.2.writingNodes)
  have hplay : (play (fun d x => if HasRoom cfg x d then (cacheMachine cfg).step d x else none)
      (List.replicate 352 (.inl .plain)) (life cfg true crowded, .opened fun _ => none)).any
        test = true := by decide +kernel
  obtain ⟨x, hplay, htest⟩ := (Option.any_eq_true _ _).1 hplay
  simp only [test, Bool.and_eq_true, decide_eq_true_eq] at htest
  have hsup := pool_suffices .new (by decide) (.of_play_if hplay)
  exact ⟨x, hsup.1.antisymm htest.1, htest.2, hsup.2⟩

/-- One point for each of the children of the first node. -/
def octants : List Call :=
  (List.finRange 8).map fun i => .addPoint (fun k => if i.val.testBit k.val then 3 else -3) fun _ =>
    0

/-- The program asks for a new node next. -/
def asksNode : TreeM Client → Bool
  | .call (.createNode _ _) _ => true
  | _ => false

theorem of_asksNode {q : TreeM Client} (h : asksNode q = true) :
    ∃ f s k, q = .call (.createNode f s) k := by
  cases q with
  | ret a => cases h
  | fail e => cases h
  | call o k =>
    cases o with
    | createNode f s => exact ⟨f, s, k, rfl⟩
    | _ => cases h

/-- The nodes of all children are in one file, so no `cacheMaintenance` comes between them, and the
seventh node finds the allocator empty. -/
theorem pool_exhausted :
    let cfg := { Config.sample with maxCacheSize := 4 }
    ∃ x f s k, Reach (cacheMachine cfg).step (fun _ _ => True)
        (life cfg true octants, CacheState.opened fun _ => none) x ∧
      x.1 = .call (.createNode f s) k ∧ x.2.heldNodes = cfg.poolSize.toNat ∧
      ¬ Supplied cfg x (.inl .plain) ∧
      ∃ x', (cacheMachine cfg).step (.inl .plain) x = some x' ∧
        cfg.poolSize.toNat < x'.2.heldNodes := by
  intro cfg
  let test (x : Running) : Bool :=
    asksNode x.1 &&
      decide (x.2.heldNodes = cfg.poolSize.toNat) &&
      ((cacheMachine cfg).step (.inl .plain) x).any fun x' =>
        decide (cfg.poolSize.toNat < x'.2.heldNodes)
  have hplay : (play (cacheMachine cfg).step (List.replicate 266 (.inl .plain))
      (life cfg true octants, .opened fun _ => none)).any test = true := by decide +kernel
  obtain ⟨⟨q, m⟩, hplay, htest⟩ := (Option.any_eq_true _ _).1 hplay
  simp only [test, Bool.and_eq_true, decide_eq_true_eq] at htest
  obtain ⟨⟨hcall, hheld⟩, hnext⟩ := htest
  obtain ⟨x', hx', hmore⟩ := (Option.any_eq_true _ _).1 hnext
  obtain ⟨f, s, k, rfl⟩ := of_asksNode hcall
  refine ⟨_, f, s, k, .of_play hplay, rfl, hheld, fun hsup => ?_, x', hx',
    of_decide_eq_true hmore⟩
  rw [Supplied, hheld, Nat.sub_self] at hsup
  cases hsup

end MegaTree
