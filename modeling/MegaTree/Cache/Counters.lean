import MegaTree.Cache.Accounting

/-!
# No subtraction from a counter wraps around

* `Destroys` : what happens in the destructor after its call of `flushCache`.
* `SizesRight` : the counters are exact, and what is subtracted from them is not more than they are.
* `sizes_right` : that holds along every run of every session, and while the tree is destroyed.
-/

namespace MegaTree

open Effect CacheState

variable {cfg : Config} {m m' m₁ m₂ : CacheState} {f : LongId} {file : NodeFile} {b : Bool}
  {busy : LongId → Bool} {l fs : List LongId}

/-! ### The destructor -/

namespace CacheState

/-- The destructor deletes a file that it can lock and that is `LOADED`. -/
def deleteLoaded (busy : LongId → Bool) (m : CacheState) (f : LongId) : CacheState :=
  match m.files f with
  | some file => if !busy f && file.nodeState == .loaded then m.dropFile f file else m
  | none => m

/-- One pass of the destructor over a part of the list. -/
def deletePass (busy : LongId → Bool) (fs : List LongId) (m : CacheState) : CacheState :=
  fs.foldl (deleteLoaded busy) m

end CacheState

/-- The destructor makes passes over the list, and callbacks run between them. -/
inductive Destroys (cfg : Config) (m : CacheState) : CacheState → Prop
  | refl : Destroys cfg m m
  | env {m₁ m₂ : CacheState} (e : Event) : Destroys cfg m m₁ → CacheState.env cfg e m₁ = some m₂ →
      Destroys cfg m m₂
  | pass {m₁ : CacheState} (busy : LongId → Bool) : Destroys cfg m m₁ →
      m₁.owner .fileCacheMutex = none → Destroys cfg m (m₁.deletePass busy m₁.order)

/-- What a pass of the destructor keeps. -/
structure Passing (m : CacheState) (b : Bool) : Prop where
  accounts : Accounted m b
  flights : Flights m
  free : m.owner .fileCacheMutex = none

theorem Accounted.heldNodes_dropFile_le (h : Accounted m b) (f : LongId) (file : NodeFile) :
    (m.dropFile f file).heldNodes ≤ m.heldNodes := by
  have hnone : (m.dropFile f file).files f = none := Function.update_self ..
  have hsum := sum_map_update m.nodesOf (m.dropFile f file).nodesOf h.nodup
    (List.erase_of_not_mem h.nodup.not_mem_erase : (m.order.erase f).erase f = _)
    (fun g hg => nodesOf_of_files (Function.update_of_ne hg ..))
    (fun hno => nodesOf_of_none (Option.isNone_iff_eq_none.1 (by simpa [h.mem] using hno)))
    (fun _ => nodesOf_of_none hnone)
  rw [nodesOf_of_none hnone] at hsum
  change ((m.order.erase f).map (m.dropFile f file).nodesOf).sum ≤ _
  rw [heldNodes]
  omega

theorem Passing.deleteLoaded (busy : LongId → Bool) (f : LongId) (h : Passing m b) :
    Passing (m.deleteLoaded busy f) b ∧ (m.deleteLoaded busy f).heldNodes ≤ m.heldNodes := by
  unfold CacheState.deleteLoaded
  cases hf : m.files f with
  | none => exact ⟨h, le_rfl⟩
  | some file =>
    simp only
    split_ifs with hdel
    · have hs : file.nodeState = .loaded := by simpa using (Bool.and_eq_true_iff.1 hdel).2
      exact ⟨⟨h.accounts.dropFile h.flights hf hs, h.flights.dropFile h.free hf hs, h.free⟩,
        h.accounts.heldNodes_dropFile_le f file⟩
    · exact ⟨h, le_rfl⟩

theorem Passing.deletePass (busy : LongId → Bool) (fs : List LongId) (h : Passing m b) :
    Passing (m.deletePass busy fs) b ∧ (m.deletePass busy fs).heldNodes ≤ m.heldNodes := by
  induction fs generalizing m with
  | nil => exact ⟨h, le_rfl⟩
  | cons f fs ih =>
    obtain ⟨h', hle⟩ := h.deleteLoaded busy f
    obtain ⟨h'', hle'⟩ := ih h'
    exact ⟨h'', hle'.trans hle⟩

theorem Accounted.destroys (h : Accounted m b) (hfl : Flights m) (hd : Destroys cfg m m') :
    Accounted m' b ∧ Flights m' := by
  induction hd with
  | refl => exact ⟨h, hfl⟩
  | env e _ he ih => exact ⟨ih.1.env ih.2 (.of_env he), ih.2.env (.of_env he)⟩
  | @pass m₁ busy _ ho ih =>
    obtain ⟨hpass, -⟩ := Passing.deletePass busy m₁.order ⟨ih.1, ih.2, ho⟩
    exact ⟨hpass.accounts, hpass.flights⟩

/-! ### The subtractions -/

/-- The counters are exact, a file that is being written has as many nodes as were written, and no
function takes more from a counter than it is: `cacheMaintenance` when it deletes a file after
others, `evictNodeFileCb`, or the destructor in a pass.  `number_to_evict` is a difference of the
exact numbers as an `int`, so there the wrap-around of `unsigned` does not matter. -/
structure SizesRight (m : CacheState) : Prop where
  exact : m.SizesExact
  numberToEvict : ∀ cfg, (m.numberToEvict cfg).toInt =
    Int.bmod (m.cachedNodes - cfg.maxCacheSize.toNat - m.writingNodes) (2 ^ 32)
  frozen : ∀ f data w, (f, .evict data w) ∈ m.pending →
    ∃ file, m.files f = some file ∧ data.length = 1 + file.data.nodeCache.size * nodeSize
  maintenance : ∀ busy l f m₁ file, l ++ [f] <+: m.candidates busy → Evicts m l m₁ →
    m₁.files f = some file → file.isModified = false → file.cacheSize ≤ m₁.currentCacheSize
  callback : ∀ f data w file, (f, .evict data w) ∈ m.pending → m.files f = some file →
    file.cacheSize ≤ m.currentCacheSize ∧ file.cacheSize ≤ m.currentWriteSize
  destructor : m.owner .fileCacheMutex = none → ∀ busy fs f file,
    (m.deletePass busy fs).files f = some file → file.nodeState = .loaded →
    file.cacheSize ≤ (m.deletePass busy fs).currentCacheSize

theorem toInt_numberToEvict : (m.numberToEvict cfg).toInt = Int.bmod
    (m.currentCacheSize.toNat - cfg.maxCacheSize.toNat - m.currentWriteSize.toNat) (2 ^ 32) := by
  rw [CacheState.numberToEvict, ← Int32.toInt_toBitVec, UInt32.toBitVec_toInt32,
    UInt32.toBitVec_sub, UInt32.toBitVec_sub, BitVec.toInt_sub, BitVec.toInt_sub]
  simp only [Int.bmod_sub_bmod, Int.sub_bmod_bmod, BitVec.toInt_eq_toNat_bmod,
    UInt32.toNat_toBitVec]

namespace Accounted

theorem sizesExact (h : Accounted m false) (hst : ¬ Stuck m)
    (hpool : m.heldNodes ≤ cfg.poolSize.toNat) : m.SizesExact := by
  have hlt : cfg.poolSize.toNat < UInt32.size := cfg.poolSize.toNat_lt
  have hcached : m.cachedNodes ≤ m.heldNodes := sizes_le_heldNodes List.filter_sublist
  have hwriting : m.writingNodes ≤ m.heldNodes := sizes_le_heldNodes List.filter_sublist
  constructor
  · have hc : m.currentCacheSize = .ofNat m.cachedNodes := by
      rw [← h.cache]
      exact (UInt32.add_zero _).symm
    rw [hc, UInt32.toNat_ofNat_of_lt' (by omega)]
  · rw [h.write hst, UInt32.toNat_ofNat_of_lt' (by omega)]

theorem countedSize_le (h : Accounted m b) (f : LongId) : m.countedSize f ≤ m.cachedNodes := by
  by_cases hf : f ∈ m.order
  · rw [cachedNodes_eq]
    exact List.single_le_sum (fun _ _ => Nat.zero_le _) _ (List.mem_map_of_mem hf)
  · rw [countedSize_of_none (Option.isNone_iff_eq_none.1 (by simpa [h.mem] using hf))]
    exact Nat.zero_le _

theorem writtenSize_le (h : Accounted m b) (f : LongId) : m.writtenSize f ≤ m.writingNodes := by
  by_cases hf : f ∈ m.order
  · rw [writingNodes_eq]
    exact List.single_le_sum (fun _ _ => Nat.zero_le _) _ (List.mem_map_of_mem hf)
  · rw [writtenSize_of_none (Option.isNone_iff_eq_none.1 (by simpa [h.mem] using hf))]
    exact Nat.zero_le _

/-- The files that `cacheMaintenance` deletes one after the other count. -/
theorem maintenance_le (h : Accounted m false) (hsz : m.SizesExact)
    (hl : l ++ [f] <+: m.candidates busy)
    (hev : Evicts m l m₁) (hf : m₁.files f = some file) (hm : file.isModified = false) :
    file.cacheSize ≤ m₁.currentCacheSize := by
  have hnd : (m.candidates busy).Nodup := (List.nodup_reverse.2 h.nodup).filter _
  have hfl : f ∉ l := fun hmem =>
    (List.nodup_append.1 (hnd.sublist hl.sublist)).2.2 f hmem f List.mem_cons_self rfl
  rw [hev.kept f hfl] at hf
  have hclean : m.isDirty f = false := by rw [isDirty_of_some hf, hm]
  have hsum : m.sizes (l.filter fun f => !m.isDirty f) + file.cacheSize.toNat ≤
      m.currentCacheSize.toNat := by
    calc m.sizes (l.filter fun f => !m.isDirty f) + file.cacheSize.toNat
        = m.sizes ((l ++ [f]).filter fun f => !m.isDirty f) := by
          rw [List.filter_append, sizes_append]
          simp [hclean, sizeOf_of_some hf]
      _ ≤ m.sizes (m.candidates busy) := sizes_sublist (List.filter_sublist.trans hl.sublist)
      _ ≤ m.currentCacheSize.toNat := hsz.candidates_le busy
  have hcur := m.currentCacheSize.toNat_lt
  rw [hev.cacheSize, UInt32.le_iff_toNat_le, UInt32.toNat_sub_of_le]
  · rw [UInt32.toNat_ofNat_of_lt' (by rw [UInt32.size]; omega)]
    omega
  · rw [UInt32.le_iff_toNat_le, UInt32.toNat_ofNat_of_lt' (by rw [UInt32.size]; omega)]
    omega

theorem loaded_le (h : Accounted m b) (hsz : m.SizesExact) (hf : m.files f = some file)
    (hs : file.nodeState = .loaded) : file.cacheSize ≤ m.currentCacheSize := by
  rw [UInt32.le_iff_toNat_le, hsz.cache,
    ← countedSize_of_ready hf (by rw [hs]; exact nofun)]
  exact h.countedSize_le f

theorem sizesRight (h : Accounted m false) (hfl : Flights m) (hst : ¬ Stuck m)
    (hpool : m.heldNodes ≤ cfg.poolSize.toNat) : SizesRight m where
  exact := h.sizesExact hst hpool
  numberToEvict cfg := by
    rw [toInt_numberToEvict, (h.sizesExact hst hpool).cache, (h.sizesExact hst hpool).write]
  frozen f data w hp := h.frozen hst f data ⟨w, hp⟩
  maintenance busy l f m₁ file := h.maintenance_le (h.sizesExact hst hpool)
  callback f data w file hp hf := by
    have hsz := h.sizesExact hst hpool
    rw [UInt32.le_iff_toNat_le, UInt32.le_iff_toNat_le, hsz.cache, hsz.write]
    refine ⟨?_, ?_⟩
    · rw [← countedSize_of_written hf ⟨w, hp⟩]
      exact h.countedSize_le f
    · rw [← writtenSize_of_written hf ⟨w, hp⟩]
      exact h.writtenSize_le f
  destructor ho busy fs f file hf hs := by
    obtain ⟨hpass, hle⟩ := Passing.deletePass busy fs ⟨h, hfl, ho⟩
    have hst' : ¬ Stuck (m.deletePass busy fs) := fun ⟨g, hg⟩ => by
      rw [hpass.free] at hg
      cases hg
    exact hpass.accounts.loaded_le (hpass.accounts.sizesExact hst' (hle.trans hpool)) hf hs

end Accounted

/-! ### Runs -/

/-- The client has not failed, and has counted every node that it has created. -/
def AllCounted : TreeM Client → Prop
  | .ret _ => True
  | .fail _ => False
  | .call o _ => o ≠ .countNode

variable {create : Bool} {storage : LongId → Option ByteVec} {calls : List Call} {q : TreeM Client}

theorem Audited.counted {x : Ledger} {X : Err → Prop} (hq : AllCounted q)
    (hw : q.wp Ledger.step (fun _ x => x.2 = false) X x) : x.2 = false := by
  cases q with
  | ret s => exact hw
  | fail e => exact hq.elim
  | call o k =>
    obtain ⟨r, y, hy, -⟩ := hw .plain
    obtain ⟨b', hb, -⟩ := Option.bind_eq_some_iff.1 hy
    have hsettled : (if x.2 = false then some false else none) = some b' → x.2 = false := fun h =>
      (Option.ite_none_right_eq_some.1 h).1
    cases o with
    | createNode f s => exact (Option.ite_none_right_eq_some.1 hb).1.1
    | countNode => exact absurd rfl hq
    | _ => exact hsettled hb

/-- **The counters are exact and no subtraction from them wraps around**, in every run of a session
in which nodes are created where there is none and read where there is one, with evictions and
callbacks in any order, up to the end of the destructor; as long as no callback of an eviction is
stuck and the node allocator has not run out of objects. -/
theorem sizes_right (hrun : (cacheMachine cfg).Run Proper (life cfg create calls) (.opened storage) q m)
    (hq : AllCounted q) (hd : m' = m ∨ (∃ s, q = .ret s) ∧ Destroys cfg m m') (hstuck : ¬ Stuck m')
    (hpool : m'.heldNodes ≤ cfg.poolSize.toNat) : SizesRight m' := by
  obtain ⟨x, -, haud, hw⟩ := (audited_simulates cfg).run hrun (.opened storage) ledger_life
  have hx := Audited.counted hq hw
  have hdes : Destroys cfg m m' := by
    rcases hd with rfl | ⟨-, hd⟩
    · exact .refl
    · exact hd
  obtain ⟨hacc, hfl⟩ := Accounted.destroys haud.accounts haud.flights hdes
  rw [hx] at hacc
  exact hacc.sizesRight hfl hstuck hpool

/-- The check that an operation does what the comments of the functions ask. -/
def CacheState.isProper (m : CacheState) : CacheOp → Bool
  | .createNode f s => (m.files f).all fun file => (file.data.nodeCache[s]?).isNone
  | .readNode f s => (m.files f).all fun file =>
      !(file.nodeState == .loading && m.isWriting f) || (file.data.nodeCache[s]?).isSome
  | _ => true

theorem proper_of_check {o : CacheOp} (h : m.isProper o = true) : Proper m o := by
  cases o with
  | createNode f s =>
    intro file hf
    rw [CacheState.isProper, hf, Option.all_some] at h
    exact Option.isNone_iff_eq_none.1 h
  | readNode f s =>
    intro file hf hs hw
    rw [CacheState.isProper, hf, Option.all_some, hs, isWriting_iff.2 hw] at h
    exact h
  | _ => trivial

/-- A session that inserts four points into a cache that is too small for them. -/
def crowded : List Call :=
  let point (x : ℚ) : Call := .addPoint (fun _ => x) fun _ => 0
  [point (-7 / 2), point (-5 / 2), point (7 / 2), point (5 / 2)]

/-- While a file is written, all nodes of the allocator are in use. -/
theorem sizes_right_crowded : ∃ m, 0 < m.writingNodes ∧ SizesRight m := by
  let cfg := { Config.sample with maxCacheSize := 6 }
  let test (x : TreeM Client × CacheState) : Bool :=
    (match x.1 with | .ret _ => true | _ => false) && decide (0 < x.2.writingNodes) &&
      decide (x.2.owner .fileCacheMutex = none) && decide (x.2.heldNodes ≤ cfg.poolSize.toNat)
  have hplay : (((cacheMachine cfg).restrict CacheState.isProper).play
      (List.replicate 352 (.inl .plain)) (life cfg true crowded) (.opened fun _ => none)).any
        test = true := by decide +kernel
  obtain ⟨⟨q, m⟩, hplay, htest⟩ := (Option.any_eq_true _ _).1 hplay
  simp only [test, Bool.and_eq_true, decide_eq_true_eq] at htest
  obtain ⟨⟨⟨hret, hwriting⟩, hfree⟩, hpool⟩ := htest
  have hrun : (cacheMachine cfg).Run Proper (life cfg true crowded) (.opened fun _ => none) q m :=
    (Machine.Run.of_restrict (.of_play hplay)).mono fun m o ho => proper_of_check ho.1
  have hcounted : AllCounted q := by
    cases q with
    | ret s => trivial
    | fail e => cases hret
    | call o k => cases hret
  refine ⟨m, hwriting, sizes_right hrun hcounted (.inl rfl) (fun ⟨f, hf⟩ => ?_) hpool⟩
  rw [hfree] at hf
  cases hf

/-- A tree with a node in each of the files below the first one. -/
def threeFiles (f : LongId) : Option ByteVec :=
  if f = .ofValue 0 then
    some (serialize (((FileData.empty.setChildFile 1).setNode (shortOf .sample [])
      (Node.new.setChild 0)).setNode (shortOf .sample [0]) (Node.new.setChild 0)))
  else if f = rootId then
    some (serialize ((FileData.empty.setChildFile 0).setNode (shortOf .sample [0, 0])
      (Node.new.setChild 0)))
  else if f = .ofValue 8 then
    some (serialize (FileData.empty.setNode (shortOf .sample [0, 0, 0]) .new))
  else none

/-- The first `cacheMaintenance` of a new tree takes the size of the cache from no nodes.  And a client
that creates a child of a node for which it has not waited, and that has the child already, counts it
once more. -/
theorem sizes_wrong :
    (∃ k m, (cacheMachine .sample).Run (fun _ _ => True) (life .sample true [])
      (.opened fun _ => none) (.call .cacheMaintenance k) m ∧
      m.currentCacheSize < Config.sample.maxCacheSize) ∧
    ∃ s m, (cacheMachine .sample).Run (fun _ _ => True)
      (life .sample false [.getRoot, .getChildNode 0 0, .getChildNode 1 0, .createChildNode 2 0])
      (.opened threeFiles) (.ret s) m ∧ ¬ Stuck m ∧ m.heldNodes ≤ Config.sample.poolSize.toNat ∧
      m.currentCacheSize.toNat ≠ m.cachedNodes := by
  refine ⟨⟨_, _, .client .plain trivial rfl (.refl _ _), by decide⟩, ?_⟩
  let read (f : LongId) : List (CacheChoice ⊕ Event) :=
    [.inr (.complete f (.read none)), .inr (.callback f (.read (threeFiles f))),
      .inr (.maintenance fun _ => false)]
  let steps (n : ℕ) : List (CacheChoice ⊕ Event) := List.replicate n (.inl .plain)
  let schedule : List (CacheChoice ⊕ Event) := steps 1 ++ read (.ofValue 0) ++ steps 13 ++
    read rootId ++ steps 4 ++ read (.ofValue 8) ++ steps 7
  let test (x : TreeM Client × CacheState) : Bool :=
    (match x.1 with | .ret _ => true | _ => false) && decide (x.2.owner .fileCacheMutex = none) &&
      decide (x.2.heldNodes ≤ Config.sample.poolSize.toNat) &&
      decide (x.2.currentCacheSize.toNat ≠ x.2.cachedNodes)
  have hplay : ((cacheMachine .sample).play schedule (life .sample false
      [.getRoot, .getChildNode 0 0, .getChildNode 1 0, .createChildNode 2 0])
      (.opened threeFiles)).any test = true := by decide +kernel
  obtain ⟨⟨q, m⟩, hplay, htest⟩ := (Option.any_eq_true _ _).1 hplay
  simp only [test, Bool.and_eq_true, decide_eq_true_eq] at htest
  obtain ⟨⟨⟨hret, hfree⟩, hpool⟩, hne⟩ := htest
  cases q with
  | ret s =>
    refine ⟨s, m, .of_play hplay, fun ⟨f, hf⟩ => ?_, hpool, hne⟩
    rw [hfree] at hf
    cases hf
  | fail e => cases hret
  | call o k => cases hret

end MegaTree
