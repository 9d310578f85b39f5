import MegaTree.Cache.Phase

/-!
# The client keeps the relation

`Sim.client` : what the cache answers to an operation that the store allows, the store can answer
too, and the states stay related.  The only condition is on the writes of `mergeChild`
(`MergeCovered`), which do not raise `is_modified`.  There is one lemma for each operation.
-/

namespace MegaTree

open Effect

variable {E : FileData → FileData → Prop} {m m' : CacheState} {σ σ' : Store} {f : LongId}
  {cfg : Config} {fl : Bool} {d : FileData} {u : FileUse} {v : FileView}

/-! ### The client -/

/-- The store has the very contents of the loaded files. -/
def Exact (m : CacheState) (σ : Store) : Prop :=
  ∀ f file d, m.files f = some file → file.nodeState = .loaded → σ.files f = some d →
    E d file.data → d = file.data

theorem Store.of_check {α : Type} {b : Bool} {x : α} (h : (σ.check b x).isSome) :
    σ.flushing = false ∧ b = true := by
  unfold Store.check at h
  split_ifs at h with hb
  · exact hb
  · cases h

@[simp] theorem CacheState.view_file : (m.view f).file = m.files f := rfl
@[simp] theorem CacheState.view_stored : (m.view f).stored = m.storage f := rfl
@[simp] theorem CacheState.view_requests : (m.view f).requests = inFlight m.pending f := rfl
@[simp] theorem CacheState.view_marked : (m.view f).marked = m.marked f := rfl
@[simp] theorem Store.view_fst : (σ.view f).1 = σ.files f := rfl
@[simp] theorem Store.view_snd : (σ.view f).2 = σ.uses f := rfl

/-- A step of the client that changes an object and what the client holds of it. -/
theorem Sim.write (h : Sim E m σ) {file : NodeFile}
    (hf : m'.files = Function.update m.files f (some file))
    (hst : m'.storage = m.storage) (hp : m'.pending = m.pending) (ho : m'.owner = m.owner)
    (hr : m'.remaining = m.remaining) (hk : ∀ g, g ≠ f → m'.marked g = m.marked g)
    (hσf : σ'.files = Function.update σ.files f (some d))
    (hσu : σ'.uses = Function.update σ.uses f u)
    (hfl : σ'.flushing = σ.flushing) (hm : m'.marked f = u.marked) (hu : UseOk σ.flushing u)
    (hph : Phase E σ.flushing d u ⟨some file, m.storage f, inFlight m.pending f, m'.marked f⟩) :
    Sim E m' σ' := by
  refine h.update f (fun g hg => ?_) (fun g hg => ?_) hfl (by rw [ho]) (fun hfl => ?_) ⟨?_, ?_⟩ ?_
  · rw [CacheState.view, hf, Function.update_of_ne hg, hst, hp, hk g hg, CacheState.view]
  · rw [Store.view, hσf, hσu, Function.update_of_ne hg, Function.update_of_ne hg, Store.view]
  · rw [hr, hp]
    exact h.remaining hfl
  · rw [ho]; exact h.locks.file
  · rw [ho, hp]; exact h.locks.dead
  · have hx : σ'.view f = (some d, u) := by
      rw [Store.view, hσf, hσu, Function.update_self, Function.update_self]
    rw [hx, CacheState.view, hst, hp, hf, Function.update_self]
    refine ⟨hm, hu, fun h => (nomatch h), fun d' hd => ?_⟩
    obtain rfl := Option.some.inj hd
    exact hph

/-- The phase of a loaded file outside `flushCache`. -/
theorem Phase.of_loaded (hE : Similarity E) {modified : Bool} {stored : Option ByteVec} {n k : ℕ}
    (hn : n = u.users) (hs : modified = false → u.marked = 0 → Kept E d stored)
    (hm : 0 < u.users → u.dirty = true → modified = true) :
    Phase E fl d u ⟨some ⟨.loaded, d, n, modified⟩, stored, 0, k⟩ :=
  .loaded d modified (hE.refl d) (by rw [hn]) (fun r hr => absurd hr (Multiset.notMem_zero r)) hs hm

/-- A file that the client has seen loaded, as the store has it. -/
theorem Sim.loaded (h : Sim E m σ) (hx : Exact (E := E) m σ) (hd : σ.files f = some d)
    (hfl : σ.flushing = false) (hu : 0 < (σ.uses f).users) (hr : (σ.uses f).ready = true) :
    ∃ modified, m.files f = some ⟨.loaded, d, (σ.uses f).users, modified⟩ ∧
      inFlight m.pending f = 0 ∧ (modified = false → (σ.uses f).marked = 0 → Kept E d (m.storage f)) ∧
      ((σ.uses f).dirty = true → modified = true) := by
  have hf := h.file f
  rw [hfl] at hf
  obtain ⟨d', modified, he, hfile, hreq, hs, hm⟩ := (hf.phase d hd).of_ready hu hr
  obtain rfl := hx f _ d hfile rfl hd he
  exact ⟨modified, hfile, eq_zero_of_isFlush hreq, hs, hm⟩

/-- A file in the cache exists in the store. -/
theorem Sim.exists_data (h : Sim E m σ) {file : NodeFile} (hf : m.files f = some file) :
    ∃ d, σ.files f = some d ∧ Phase E σ.flushing d (σ.uses f) (m.view f) := by
  cases hd : σ.files f with
  | none =>
    have := ((h.file f).missing hd).1
    rw [CacheState.view_file, hf] at this
    cases this
  | some d => exact ⟨d, rfl, (h.file f).phase d hd⟩

/-- The store can answer an operation as the cache did. -/
def Matched (E : FileData → FileData → Prop) (m' : CacheState) (σ : Store) (o : CacheOp)
    (r : o.Res) : Prop :=
  ∃ c σ', Store.step c o σ = some (r, σ') ∧ Sim E m' σ'

variable {c : CacheChoice}

theorem Sim.getNodeFile (h : Sim E m σ) {r : Unit}
    (hc : CacheState.client cfg c (.getNodeFile f) m = some (r, m'))
    (hs : (Store.step .plain (.getNodeFile f) σ).isSome) : Matched E m' σ (.getNodeFile f) r := by
  obtain ⟨hfl, hsome⟩ := Store.of_check hs
  refine ⟨.plain, _, Store.check_eq_some hfl hsome, ?_⟩
  obtain ⟨d, hd⟩ := Option.isSome_iff_exists.1 hsome
  have hfs := h.file f
  have hphase := hfs.phase d hd
  have hmark : m.marked f = (σ.uses f).addUser.marked :=
    hfs.marked.trans (FileUse.addUser_marked hfs.use.marked_le).symm
  obtain ⟨-, ⟨file, hf, rfl⟩ | ⟨hf, rfl⟩⟩ := CacheState.getNodeFile_cases hc
  · exact h.write rfl rfl rfl rfl rfl (fun _ _ => rfl) (by simp [hd]) rfl rfl hmark hfs.use.addUser
      (hphase.addUser hfs.use hf)
  · cases hphase with
    | absent _ hr hu hst =>
      obtain ⟨d₁, he, hst⟩ := hst
      have hzero : (σ.uses f).addUser = ⟨1, 0, false, false⟩ := FileUse.addUser_of_zero hu
      refine h.update f (fun g hg => ?_) (fun g hg => ?_) rfl Iff.rfl (fun hfl' => ?_)
        ⟨h.locks.file, fun g data w ho hp => ?_⟩ ⟨?_, ?_, fun hn => ?_, fun d' hd' => ?_⟩
      · simp [CacheState.view, CacheState.setFile, hg, inFlight_cons_of_ne hg]
      · simp [Store.view, hg]
      · rw [hfl] at hfl'; cases hfl'
      · rcases Multiset.mem_cons.1 hp with hp | hp
        · cases hp
        · exact h.locks.dead g data w ho hp
      · simpa [CacheState.setFile] using hmark
      · simpa using hfs.use.addUser
      · rw [show σ.files f = none from hn] at hd; cases hd
      · obtain rfl := Option.some.inj (hd.symm.trans hd')
        refine .reading .empty d₁ c.modified none he ?_ ?_ ?_ (fun s _ => ?_)
          (fun b hb => by cases hb) hst
        · simp [CacheState.setFile, hzero]
        · rw [CacheState.view_requests, inFlight_cons_self]
          exact congrArg _ hr
        · simp [hzero]
        · simp [FileData.empty]
    | reading data d' b buffer hE hf' => rw [show m.files f = _ from hf'] at hf; cases hf
    | loaded d' b hE hf' => rw [show m.files f = _ from hf'] at hf; cases hf
    | evicting d' d'' st b w rest hE hE' hf' => rw [show m.files f = _ from hf'] at hf; cases hf

theorem Sim.createNodeFile (hE : Similarity E) (h : Sim E m σ) {r : Unit}
    (hc : CacheState.client cfg c (.createNodeFile f) m = some (r, m'))
    (hs : (Store.step .plain (.createNodeFile f) σ).isSome) :
    Matched E m' σ (.createNodeFile f) r := by
  obtain ⟨hfl, hnone⟩ := Store.of_check hs
  refine ⟨.plain, _, Store.check_eq_some hfl hnone, ?_⟩
  have hfs := h.file f
  obtain ⟨-, hreq, hu, -⟩ := hfs.missing (Option.isNone_iff_eq_none.1 hnone)
  have hm : (σ.uses f).marked = 0 := Nat.le_zero.1 (hu ▸ hfs.use.marked_le)
  obtain ⟨-, -, rfl⟩ := CacheState.createNodeFile_cases hc
  have hreq : inFlight m.pending f = 0 := hreq
  have huse : (σ.uses f).addUser = ⟨1, 0, false, false⟩ := FileUse.addUser_of_zero hu
  refine h.write rfl rfl rfl rfl rfl (fun _ _ => rfl) rfl rfl rfl ?_ ?_ ?_
  · rw [huse]
    exact hfs.marked.trans hm
  · rw [huse, hfl]
    exact ⟨Nat.zero_le _, fun _ => rfl, fun _ _ => rfl, fun h => (nomatch h)⟩
  · rw [hreq, huse]
    exact .of_loaded hE rfl (fun h => (nomatch h)) fun _ _ => rfl

/-- A loaded file without users is deleted when the storage has its contents. -/
theorem Sim.deleteFile {file : NodeFile} (h : Sim E m σ) (hfl : σ.flushing = false)
    (hf : m.files f = some file) (hl : file.nodeState = .loaded) (hu : file.useCount = 0)
    (hk : ∀ d, σ.files f = some d → Kept E d (m.storage f)) : Sim E (m.dropFile f file) σ := by
  obtain ⟨d, hd, hph⟩ := h.exists_data hf
  rw [hfl] at hph
  obtain ⟨-, hu', hr, -, -⟩ := hph.of_loaded_file hf hl
  refine h.update f (fun g hg => ?_) (fun _ _ => rfl) rfl Iff.rfl h.remaining
    ⟨h.locks.file, h.locks.dead⟩
    ⟨(h.file f).marked, (h.file f).use, fun hn => ?_, fun d' hd' => ?_⟩
  · simp [CacheState.view, CacheState.dropFile, hg]
  · rw [Store.view_fst, hd] at hn; cases hn
  · exact .absent (Function.update_self ..) (eq_zero_of_isFlush hr) (hu'.symm.trans hu) (hk d' hd')

theorem Sim.dropFile {file : NodeFile} (h : Sim E m σ) (hfl : σ.flushing = false)
    (hf : m.files f = some file) (hl : file.nodeState = .loaded) (hu : file.useCount = 0)
    (hc : file.isModified = false) : Sim E (m.dropFile f file) σ := by
  obtain ⟨d, hd, hph⟩ := h.exists_data hf
  obtain ⟨-, hu', -, hs, -⟩ := hph.of_loaded_file hf hl
  have hle := (h.file f).use.marked_le
  rw [Store.view_snd] at hle
  refine h.deleteFile hfl hf hl hu fun d' hd' => ?_
  obtain rfl := Option.some.inj (hd.symm.trans hd')
  exact hs hc (by omega)

theorem Sim.startEvict {file : NodeFile} (h : Sim E m σ) (hfl : σ.flushing = false)
    (ho : m.owner .fileCacheMutex = none) (hf : m.files f = some file)
    (hl : file.nodeState = .loaded) (hu : file.useCount = 0) : Sim E (m.startEvict f file) σ := by
  obtain ⟨d, hd, hph⟩ := h.exists_data hf
  rw [hfl] at hph
  obtain ⟨he, hu', hr, -, -⟩ := hph.of_loaded_file hf hl
  have hr : inFlight m.pending f = 0 := eq_zero_of_isFlush hr
  refine h.update f (fun g hg => ?_) (fun _ _ => rfl) rfl Iff.rfl (fun hfl' => ?_)
    ⟨h.locks.file, fun g data w ho' => ?_⟩
    ⟨(h.file f).marked, (h.file f).use, fun hn => ?_, fun d' hd' => ?_⟩
  · simp [CacheState.view, CacheState.startEvict, hg, inFlight_cons_of_ne hg]
  · rw [hfl] at hfl'; cases hfl'
  · rw [show m.owner .fileCacheMutex = _ from ho'] at ho; cases ho
  · rw [Store.view_fst, hd] at hn; cases hn
  · obtain rfl := Option.some.inj (hd.symm.trans hd')
    refine .evicting file.data file.data .evicting file.isModified false 0 he he ?_ ?_
      (fun r hr => absurd hr (Multiset.notMem_zero r)) (.inl ⟨rfl, hu'.symm.trans hu⟩)
      fun h => (nomatch h)
    · rw [Store.view_snd, ← hu']
      exact Function.update_self ..
    · rw [CacheState.view_requests, CacheState.startEvict, inFlight_cons_self, hr]

/-- Evictions keep the relation. -/
theorem Sim.maintenance {busy : LongId → Bool} (h : Sim E m σ)
    (hc : m.cacheMaintenance cfg busy = some m') : Sim E m' σ := by
  have ho : m.owner .fileCacheMutex = none := by
    unfold CacheState.cacheMaintenance at hc
    split_ifs at hc with ho
    exact ho
  have hfl : σ.flushing = false := by
    rw [← Bool.not_eq_true, h.flushing, ho]
    exact fun h => nomatch h
  refine (CacheState.cacheMaintenance_induct
    (P := fun m => Sim E m σ ∧ m.owner .fileCacheMutex = none) ?_ ?_ hc ⟨h, ho⟩).1
  · rintro m f file ⟨h, ho⟩ hf hl hu hm
    exact ⟨h.dropFile hfl hf hl hu hm, ho⟩
  · rintro m f file ⟨h, ho⟩ hf hl hu -
    exact ⟨h.startEvict hfl ho hf hl hu, ho⟩

/-- An operation that changes nothing. -/
theorem Sim.matched {o : CacheOp} {r : o.Res} (h : Sim E m σ)
    (hs : Store.step .plain o σ = some (r, σ)) : Matched E m σ o r :=
  ⟨.plain, σ, hs, h⟩

/-- An operation of the client after which the object and the books are as given. -/
theorem Sim.same_file (h : Sim E m σ) {file : NodeFile} (hf : m.files f = some file)
    (hd : σ.files f = some d) (hm : u.marked = (σ.uses f).marked) (hu : UseOk σ.flushing u)
    (hph : Phase E σ.flushing d u (m.view f)) : Sim E m (σ.setUse f u) :=
  h.write (Function.update_eq_self_iff.2 hf.symm).symm rfl rfl rfl rfl (fun _ _ => rfl)
    (Function.update_eq_self_iff.2 hd.symm).symm rfl rfl ((h.file f).marked.trans hm.symm) hu
    (by rw [← hf]; exact hph)

theorem Sim.waitUntilLoaded (h : Sim E m σ) {r : Unit}
    (hc : CacheState.client cfg c (.waitUntilLoaded f) m = some (r, m'))
    (hs : (Store.step .plain (.waitUntilLoaded f) σ).isSome) :
    Matched E m' σ (.waitUntilLoaded f) r := by
  obtain ⟨hfl, hpos⟩ := Store.of_check hs
  refine ⟨.plain, _, Store.check_eq_some hfl hpos, ?_⟩
  obtain ⟨file, hf, hc⟩ := Option.bind_eq_some_iff.1 hc
  split_ifs at hc with hl
  obtain ⟨-, rfl⟩ := Prod.mk.inj (Option.some.inj hc)
  obtain ⟨d, hd, hph⟩ := h.exists_data hf
  obtain ⟨he, hn, hr, hk, hm⟩ := hph.of_loaded_file hf hl
  have hu := (h.file f).use
  refine h.same_file hf hd rfl ⟨hu.marked_le, fun _ => rfl, fun _ _ => rfl, hu.idle⟩ ?_
  obtain ⟨st, data, n, modified⟩ := file
  obtain rfl : st = .loaded := hl
  obtain rfl : n = (σ.uses f).users := hn
  exact .loaded data modified he hf hr hk hm

theorem Sim.isLoaded (h : Sim E m σ) {r : Bool}
    (hc : CacheState.client cfg c (.isLoaded f) m = some (r, m'))
    (hs : (Store.step .plain (.isLoaded f) σ).isSome) : Matched E m' σ (.isLoaded f) r := by
  obtain ⟨hfl, hpos⟩ := Store.of_check hs
  obtain ⟨file, hf, hc⟩ := Option.map_eq_some_iff.1 hc
  obtain ⟨rfl, rfl⟩ := Prod.mk.inj hc
  obtain ⟨d, hd, hph⟩ := h.exists_data hf
  have hu := (h.file f).use
  simp only [decide_eq_true_eq] at hpos
  -- what the client has seen loaded is still loaded
  have hready : ((σ.uses f).ready || decide (file.nodeState = .loaded)) =
      decide (file.nodeState = .loaded) := by
    cases hr : (σ.uses f).ready with
    | false => rfl
    | true =>
      obtain ⟨d', modified, -, hf', -⟩ := hph.of_ready hpos hr
      obtain rfl := Option.some.inj (hf.symm.trans hf')
      rfl
  refine ⟨{ Choice.plain with loaded := decide (file.nodeState = .loaded) }, _,
    (Store.check_eq_some hfl (by simpa using hpos)).trans (by rw [hready]), ?_⟩
  by_cases hl : file.nodeState = .loaded
  · obtain ⟨he, hn, hr, hk, hm⟩ := hph.of_loaded_file hf hl
    refine h.same_file hf hd rfl ⟨hu.marked_le, fun _ => ?_, fun _ _ => ?_, hu.idle⟩ ?_
    · simp [hl]
    · simp [hl]
    · obtain ⟨st, data, n, modified⟩ := file
      obtain rfl : st = .loaded := hl
      obtain rfl : n = (σ.uses f).users := hn
      exact .loaded data modified he hf hr hk hm
  · have hr : (σ.uses f).ready = false := by simpa [hl] using hready
    have he : { σ.uses f with ready := decide (file.nodeState = .loaded) } = σ.uses f := by
      rw [decide_eq_false hl, ← hr]
    rw [he]
    exact h.same_file hf hd rfl hu hph

theorem Store.of_lookup {s : ShortId} {n : Node} (h : σ.lookup f s = some n) :
    ∃ d, σ.files f = some d ∧ d.nodeCache[s]? = some n :=
  Option.bind_eq_some_iff.1 h

theorem Sim.hasChildFile (h : Sim E m σ) (hx : Exact (E := E) m σ) {child : ChildNr} {r : Bool}
    (hc : CacheState.client cfg c (.hasChildFile f child) m = some (r, m'))
    (hs : (Store.step .plain (.hasChildFile f child) σ).isSome) :
    Matched E m' σ (.hasChildFile f child) r := by
  simp only [Store.step] at hs
  cases hd : σ.files f with
  | none => rw [hd] at hs; cases hs
  | some d =>
    rw [hd] at hs
    obtain ⟨hfl, hb⟩ := Store.of_check hs
    simp only [Bool.and_eq_true, decide_eq_true_eq] at hb
    obtain ⟨modified, hf, -⟩ := h.loaded hx hd hfl hb.1 hb.2
    obtain ⟨file, hf', hc⟩ := Option.map_eq_some_iff.1 hc
    obtain rfl := Option.some.inj (hf.symm.trans hf')
    obtain ⟨rfl, rfl⟩ := Prod.mk.inj hc
    exact h.matched (by simp [Store.step, hd, Store.check_eq_some hfl, hb])

theorem Sim.setChildFile (hE : Similarity E) (h : Sim E m σ) (hx : Exact (E := E) m σ)
    {child : ChildNr} {r : Unit}
    (hc : CacheState.client cfg c (.setChildFile f child) m = some (r, m'))
    (hs : (Store.step .plain (.setChildFile f child) σ).isSome) :
    Matched E m' σ (.setChildFile f child) r := by
  simp only [Store.step] at hs
  cases hd : σ.files f with
  | none => rw [hd] at hs; cases hs
  | some d =>
    rw [hd] at hs
    obtain ⟨hfl, hb⟩ := Store.of_check hs
    have hb' := hb
    simp only [Bool.and_eq_true, decide_eq_true_eq] at hb
    obtain ⟨modified, hf, hr, -⟩ := h.loaded hx hd hfl hb.1 hb.2
    obtain ⟨file, hf', hc⟩ := Option.map_eq_some_iff.1 hc
    obtain rfl := Option.some.inj (hf.symm.trans hf')
    obtain ⟨-, rfl⟩ := Prod.mk.inj hc
    have hu := (h.file f).use
    refine ⟨.plain, _, by simp only [Store.step, hd]; exact Store.check_eq_some hfl hb', ?_⟩
    refine h.write rfl rfl rfl rfl rfl (fun _ _ => rfl) rfl rfl rfl (h.file f).marked
      ⟨hu.marked_le, hu.marked_ready, fun _ _ => hb.2, fun h => ?_⟩ ?_
    · rw [hfl] at h; cases h
    · rw [hr]
      exact .of_loaded hE rfl (fun h => by cases h) fun _ _ => rfl

/-- A node that the file has is found, also before the file is loaded. -/
theorem Sim.readNode (hE : Similarity E) (h : Sim E m σ) (hx : Exact (E := E) m σ) {s : ShortId}
    {r : Bool} (hc : CacheState.client cfg c (.readNode f s) m = some (r, m'))
    (hs : (Store.step .plain (.readNode f s) σ).isSome) : Matched E m' σ (.readNode f s) r := by
  obtain ⟨file, hf, hc⟩ := Option.bind_eq_some_iff.1 hc
  obtain ⟨d, hd, hph⟩ := h.exists_data hf
  simp only [Store.step] at hs
  cases hn : d.nodeCache[s]? with
  | some n =>
    have hl : σ.lookup f s = some n := by rw [Store.lookup, hd]; exact hn
    rw [hl] at hs
    obtain ⟨hfl, hb⟩ := Store.of_check hs
    have hpos : 0 < (σ.uses f).users := by simpa using hb
    have hu := (h.file f).use
    have hmark : m.marked f = (σ.uses f).addUser.marked :=
      (h.file f).marked.trans (FileUse.addUser_marked hu.marked_le).symm
    have hph' := hph.addUser hu hf
    have hsome : ∀ {d'}, E d d' → (d'.nodeCache[s]?).isSome := fun he => by
      rw [hE.nodes he, hn]
      rfl
    suffices hw : ∃ file', r = true ∧ m' = m.setFile f file' ∧
        Phase E σ.flushing d (σ.uses f).addUser { m.view f with file := some file' } by
      obtain ⟨file', rfl, rfl, hph⟩ := hw
      refine ⟨.plain, _, by simp only [Store.step, hl]; exact Store.check_eq_some hfl hb, ?_⟩
      exact h.write rfl rfl rfl rfl rfl (fun _ _ => rfl)
        (Function.update_eq_self_iff.2 hd.symm).symm rfl rfl hmark hu.addUser hph
    cases hph with
    | absent hf' => rw [CacheState.view_file, hf] at hf'; cases hf'
    | loaded d' b he hf' =>
      obtain rfl := Option.some.inj (hf.symm.trans hf')
      obtain ⟨n', hn'⟩ := Option.isSome_iff_exists.1 (hsome he)
      simp only [hn'] at hc
      obtain ⟨rfl, rfl⟩ := Prod.mk.inj (Option.some.inj hc)
      exact ⟨_, rfl, rfl, hph'⟩
    | evicting d' d'' st b w rest he he' hf' hr hrest hu' =>
      obtain rfl := Option.some.inj (hf.symm.trans hf')
      obtain ⟨n', hn'⟩ := Option.isSome_iff_exists.1 (hsome he)
      simp only [hn'] at hc
      obtain ⟨rfl, rfl⟩ := Prod.mk.inj (Option.some.inj hc)
      refine ⟨_, rfl, rfl, ?_⟩
      rcases hu' with ⟨-, h0⟩ | ⟨rfl, -⟩
      · omega
      · exact hph'
    | reading data d' b buffer he hf' hr hu' hdata hb' hst =>
      obtain rfl := Option.some.inj (hf.symm.trans hf')
      cases hn' : data.nodeCache[s]? with
      | some n' =>
        simp only [hn'] at hc
        obtain ⟨rfl, rfl⟩ := Prod.mk.inj (Option.some.inj hc)
        exact ⟨_, rfl, rfl, hph'⟩
      | none =>
        -- the placeholder is a node that the file has
        simp only [hn'] at hc
        obtain ⟨rfl, rfl⟩ := Prod.mk.inj (Option.some.inj hc)
        refine ⟨_, rfl, rfl, .reading (data.setNode s c.stale.reset) d' b buffer he (by simp) hr
          (fun _ => ?_) (fun s' hs' => ?_) hb' hst⟩
        · rw [FileUse.addUser_of_pos hpos]
          exact hu' hpos
        · have hne : s' ≠ s := by
            rintro rfl
            rw [hn] at hs'; cases hs'
          rw [FileData.getElem?_setNode, if_neg (Ne.symm hne)]
          exact hdata s' hs'
  | none =>
    have hl : σ.lookup f s = none := by rw [Store.lookup, hd]; exact hn
    rw [hl] at hs
    obtain ⟨hfl, hb⟩ := Store.of_check hs
    have hb' := hb
    simp only [Bool.and_eq_true, decide_eq_true_eq] at hb
    obtain ⟨modified, hf', -⟩ := h.loaded hx hd hfl hb.1 hb.2
    obtain rfl := Option.some.inj (hf.symm.trans hf')
    simp only [hn] at hc
    obtain ⟨rfl, rfl⟩ := Prod.mk.inj (Option.some.inj hc)
    exact h.matched (by simp only [Store.step, hl]; exact Store.check_eq_some hfl hb')

theorem Sim.createNode (hE : Similarity E) (h : Sim E m σ) (hx : Exact (E := E) m σ) {s : ShortId}
    {r : Unit} (hc : CacheState.client cfg c (.createNode f s) m = some (r, m'))
    (hs : (Store.step .plain (.createNode f s) σ).isSome) : Matched E m' σ (.createNode f s) r := by
  simp only [Store.step] at hs
  cases hd : σ.files f with
  | none => rw [hd] at hs; cases hs
  | some d =>
    rw [hd] at hs
    obtain ⟨hfl, hb⟩ := Store.of_check hs
    have hb' := hb
    simp only [Bool.and_eq_true, decide_eq_true_eq, Option.isNone_iff_eq_none] at hb
    obtain ⟨⟨hpos, hready⟩, hn⟩ := hb
    obtain ⟨modified, hf, hr, -⟩ := h.loaded hx hd hfl hpos hready
    obtain ⟨file, hf', hc⟩ := Option.map_eq_some_iff.1 hc
    obtain rfl := Option.some.inj (hf.symm.trans hf')
    obtain ⟨-, rfl⟩ := Prod.mk.inj hc
    have hu := (h.file f).use
    refine ⟨{ Choice.plain with stale := c.stale }, _,
      by simp only [Store.step, hd]; exact Store.check_eq_some hfl hb', ?_⟩
    have huse : (σ.uses f).addUser = { σ.uses f with users := (σ.uses f).users + 1 } :=
      FileUse.addUser_of_pos hpos
    refine h.write rfl rfl rfl rfl rfl (fun _ _ => rfl) rfl rfl rfl
      ((h.file f).marked.trans (FileUse.addUser_marked hu.marked_le).symm)
      ⟨hu.addUser.marked_le, hu.addUser.marked_ready, fun _ _ => ?_, fun h => ?_⟩ ?_
    · rw [huse]
      exact hready
    · rw [hfl] at h; cases h
    · simp only [hn, Option.isSome_none, Bool.false_eq_true, if_false, hr]
      exact .of_loaded hE (by rw [huse]) (fun h => by cases h) fun _ _ => rfl

theorem Sim.countNode (h : Sim E m σ) {r : Unit}
    (hc : CacheState.client cfg c .countNode m = some (r, m'))
    (hs : (Store.step .plain .countNode σ).isSome) : Matched E m' σ .countNode r := by
  obtain ⟨hfl, hb⟩ := Store.of_check hs
  obtain ⟨-, rfl⟩ := Prod.mk.inj (Option.some.inj hc)
  exact ⟨.plain, σ, Store.check_eq_some hfl hb,
    h.congr (fun _ => rfl) Iff.rfl h.remaining ⟨h.locks.file, h.locks.dead⟩⟩

/-- A user goes, possibly a handle that is marked as modified. -/
theorem Sim.userGone (h : Sim E m σ) {file : NodeFile} {modified : Bool} (hfl : σ.flushing = false)
    (hf : m.files f = some file)
    (hm : if modified then 0 < (σ.uses f).marked else (σ.uses f).marked < (σ.uses f).users) :
    Sim E { m.setFile f { file with
        isModified := file.isModified || modified
        useCount := file.useCount - 1 } with
      marked := Function.update m.marked f (m.marked f - modified.toNat) }
      (σ.setUse f ((σ.uses f).removeUser modified)) := by
  obtain ⟨d, hd, hph⟩ := h.exists_data hf
  have hu := (h.file f).use
  have hle : (σ.uses f).marked ≤ (σ.uses f).users := hu.marked_le
  have hpos : 0 < (σ.uses f).users := by
    cases modified
    · exact Nat.lt_of_le_of_lt (Nat.zero_le _) hm
    · exact Nat.lt_of_lt_of_le hm hle
  have hmark : m.marked f = (σ.uses f).marked := (h.file f).marked
  have hph := hph.removeUser hu hf hpos fun he : modified = true => by simpa [he] using hm
  refine h.write rfl rfl rfl rfl rfl (fun g hg => Function.update_of_ne hg ..)
    (Function.update_eq_self_iff.2 hd.symm).symm rfl rfl ?_ (hu.removeUser hfl hm) ?_
  · change Function.update m.marked f _ f = _
    rw [Function.update_self, hmark]
    rfl
  · change Phase _ _ _ _ ⟨_, _, _, Function.update m.marked f _ f⟩
    rw [Function.update_self]
    exact hph

theorem Sim.removeUser (h : Sim E m σ) {r : Unit}
    (hc : CacheState.client cfg c (.removeUser f) m = some (r, m'))
    (hs : (Store.step .plain (.removeUser f) σ).isSome) : Matched E m' σ (.removeUser f) r := by
  obtain ⟨hfl, hb⟩ := Store.of_check hs
  obtain ⟨file, hf, hc⟩ := Option.bind_eq_some_iff.1 hc
  split_ifs at hc
  obtain ⟨-, rfl⟩ := Prod.mk.inj (Option.some.inj hc)
  refine ⟨.plain, _, Store.check_eq_some hfl hb, ?_⟩
  have hb : if false then 0 < (σ.uses f).marked else (σ.uses f).marked < (σ.uses f).users := by
    simpa using hb
  have := h.userGone hfl hf hb
  simpa [CacheState.setFile, Function.update_eq_self] using this

theorem Sim.releaseNode (h : Sim E m σ) {modified : Bool} {r : Unit}
    (hc : CacheState.client cfg c (.releaseNode f modified) m = some (r, m'))
    (hs : (Store.step .plain (.releaseNode f modified) σ).isSome) :
    Matched E m' σ (.releaseNode f modified) r := by
  obtain ⟨hfl, hb⟩ := Store.of_check hs
  obtain ⟨-, file, hf, -, rfl⟩ := CacheState.releaseNode_cases hc
  refine ⟨.plain, _, Store.check_eq_some hfl hb, h.userGone hfl hf ?_⟩
  cases modified
  · simpa using (Bool.and_eq_true_iff.1 hb).2
  · simpa using (Bool.and_eq_true_iff.1 hb).2

theorem Sim.getNode (h : Sim E m σ) (hx : Exact (E := E) m σ) {s : ShortId} {r : Node}
    (hc : CacheState.client cfg c (.getNode f s) m = some (r, m'))
    (hs : (Store.step .plain (.getNode f s) σ).isSome) : Matched E m' σ (.getNode f s) r := by
  simp only [Store.step] at hs
  cases hl : σ.lookup f s with
  | none => rw [hl] at hs; cases hs
  | some n =>
    rw [hl] at hs
    obtain ⟨hfl, hb⟩ := Store.of_check hs
    have hb' := hb
    simp only [Bool.and_eq_true, decide_eq_true_eq] at hb
    obtain ⟨d, hd, hn⟩ := Store.of_lookup hl
    obtain ⟨modified, hf, -⟩ := h.loaded hx hd hfl hb.1 hb.2
    obtain ⟨file, hf', hc⟩ := Option.bind_eq_some_iff.1 hc
    obtain rfl := Option.some.inj (hf.symm.trans hf')
    obtain ⟨n', hn', hc⟩ := Option.map_eq_some_iff.1 hc
    obtain rfl := Option.some.inj (hn.symm.trans hn')
    obtain ⟨rfl, rfl⟩ := Prod.mk.inj hc
    exact h.matched (by simp only [Store.step, hl]; exact Store.check_eq_some hfl hb')

/-- A write keeps the relation: the file is modified, or it will be when a marked handle is
released, or the write makes no difference. -/
theorem Sim.setNode (hE : Similarity E) (h : Sim E m σ) (hx : Exact (E := E) m σ) {s : ShortId}
    {n : Node} {w : Write} {r : Unit} (hok : MergeCovered E m (.setNode f s n w))
    (hc : CacheState.client cfg c (.setNode f s n w) m = some (r, m'))
    (hs : (Store.step .plain (.setNode f s n w) σ).isSome) :
    Matched E m' σ (.setNode f s n w) r := by
  simp only [Store.step] at hs
  cases hd : σ.files f with
  | none => rw [hd] at hs; cases hs
  | some d =>
    rw [hd] at hs
    obtain ⟨hfl, hb⟩ := Store.of_check hs
    have hb' := hb
    simp only [Bool.and_eq_true, decide_eq_true_eq] at hb
    obtain ⟨⟨⟨hpos, hready⟩, -⟩, hw⟩ := hb
    obtain ⟨modified, hf, hr, hk, hdirty⟩ := h.loaded hx hd hfl hpos hready
    obtain ⟨file, hf', hc⟩ := Option.bind_eq_some_iff.1 hc
    obtain rfl := Option.some.inj (hf.symm.trans hf')
    obtain ⟨-, hc⟩ := Option.ite_none_right_eq_some.1 hc
    obtain ⟨-, rfl⟩ := Prod.mk.inj (Option.some.inj hc)
    have hu := (h.file f).use
    have hmark : m.marked f = (σ.uses f).marked := (h.file f).marked
    refine ⟨.plain, _, by simp only [Store.step, hd]; exact Store.check_eq_some hfl hb', ?_⟩
    refine h.write rfl rfl rfl rfl rfl (fun g hg => Function.update_of_ne hg ..) rfl rfl rfl ?_
      ⟨?_, fun _ => hready, fun _ _ => hready, fun h => ?_⟩ ?_
    · change Function.update m.marked f _ f = _
      rw [Function.update_self, hmark]
    · have hle : (σ.uses f).marked ≤ (σ.uses f).users := hu.marked_le
      cases w with
      | first => exact of_decide_eq_true hw
      | _ => simpa using hle
    · rw [hfl] at h; cases h
    · rw [hr]
      refine .of_loaded hE rfl (fun hm h0 => ?_) fun _ => hdirty
      -- an unmodified file without marked handles is only reached by `mergeChild`
      have h0' : (σ.uses f).marked = 0 := by
        simp only at h0
        omega
      cases w with
      | first => simp at h0
      | again => exact absurd h0' (Nat.ne_of_gt (of_decide_eq_true hw))
      | copy =>
        rcases Bool.or_eq_true_iff.1 hw with hw | hw
        · rw [hdirty hw] at hm; cases hm
        · exact absurd h0' (Nat.ne_of_gt (of_decide_eq_true hw))
      | merge =>
        rcases hok _ hf with h' | h' | h'
        · rw [show modified = true from h'] at hm; cases hm
        · rw [hmark] at h'; omega
        · exact (hk hm h0').similar hE h'

/-! `flushCache` -/

/-- Between operations the requests of a file are no writes of `flushCache`. -/
theorem Phase.flush {u' : FileUse} (h : Phase E false d u v) (hn : u'.users = u.users)
    (hm : u'.marked = u.marked) (hr : u'.ready = u.ready) (hd : u'.dirty = false) :
    Phase E true d u' v := by
  have no : ∀ {rest : Multiset Request}, (∀ r ∈ rest, IsFlush E false v.stored d r) →
      ∀ r ∈ rest, IsFlush E true v.stored d r := by
    intro rest hr r hmem
    rw [eq_zero_of_isFlush hr] at hmem
    exact absurd hmem (Multiset.notMem_zero r)
  cases h with
  | absent hf hreq hu hs => exact .absent hf hreq (hn.trans hu) hs
  | reading data d' b buffer he hf hreq hu hdata hb hs =>
    exact .reading data d' b buffer he (by rw [hn]; exact hf) hreq (by rw [hn, hr]; exact hu) hdata
      hb hs
  | loaded d' b he hf hreq hs hm' =>
    refine .loaded d' b he (by rw [hn]; exact hf) (no hreq) (by rw [hm]; exact hs) fun _ h => ?_
    rw [hd] at h; cases h
  | evicting d' d'' st b w rest he he' hf hreq hrest hu hs =>
    exact .evicting d' d'' st b w rest he he' (by rw [hn]; exact hf) hreq (no hrest)
      (by rw [hn, hr]; exact hu) hs

/-- When the last write of `flushCache` is done, only other requests are in flight. -/
theorem Phase.flushed (h : Phase E true d u v) (hno : ∀ r ∈ v.requests, r.isFlush = false) :
    Phase E false d u v := by
  have no : ∀ {rest : Multiset Request}, rest ≤ v.requests →
      (∀ r ∈ rest, IsFlush E true v.stored d r) → ∀ r ∈ rest, IsFlush E false v.stored d r := by
    intro rest hle hr r hmem
    obtain ⟨d', w, -, rfl, -⟩ := hr r hmem
    cases hno _ (Multiset.mem_of_le hle hmem)
  cases h with
  | absent hf hreq hu hs => exact .absent hf hreq hu hs
  | reading data d' b buffer he hf hreq hu hdata hb hs =>
    exact .reading data d' b buffer he hf hreq hu hdata hb hs
  | loaded d' b he hf hreq hs hm => exact .loaded d' b he hf (no le_rfl hreq) hs hm
  | evicting d' d'' st b w rest he he' hf hreq hrest hu hs =>
    refine .evicting d' d'' st b w rest he he' hf hreq (no ?_ hrest) hu hs
    rw [hreq]
    exact Multiset.le_cons_self ..

theorem Phase.not_isFlush (h : Phase E false d u v) : ∀ r ∈ v.requests, r.isFlush = false := by
  intro r hr
  cases h with
  | absent hf hreq => rw [hreq] at hr; exact absurd hr (Multiset.notMem_zero r)
  | reading data d' b buffer he hf hreq =>
    rw [hreq, Multiset.mem_singleton] at hr
    rw [hr]; rfl
  | loaded d' b he hf hreq =>
    rw [eq_zero_of_isFlush hreq] at hr
    exact absurd hr (Multiset.notMem_zero r)
  | evicting d' d'' st b w rest he he' hf hreq hrest =>
    rw [hreq, eq_zero_of_isFlush hrest, Multiset.cons_zero, Multiset.mem_singleton] at hr
    rw [hr]; rfl

theorem flushes_cons_flush (pending : Multiset (LongId × Request)) (f : LongId) (data : ByteVec)
    (w : Bool) : flushes ((f, .flush data w) ::ₘ pending) = flushes pending + 1 :=
  Multiset.countP_cons_of_pos _ rfl

theorem flushes_cons_of_not (pending : Multiset (LongId × Request)) (f : LongId) {r : Request}
    (hr : r.isFlush = false) : flushes ((f, r) ::ₘ pending) = flushes pending :=
  Multiset.countP_cons_of_neg _ (by simp [hr])

theorem flushes_eq_zero {pending : Multiset (LongId × Request)} :
    flushes pending = 0 ↔ ∀ f, ∀ r ∈ inFlight pending f, r.isFlush = false := by
  simp only [flushes, Multiset.countP_eq_zero, Bool.not_eq_true, mem_inFlight]
  exact ⟨fun h f r hr => h (f, r) hr, fun h x hx => h x.1 x.2 hx⟩

theorem Sim.flushBegin (h : Sim E m σ) {r : List LongId}
    (hc : CacheState.client cfg c .flushBegin m = some (r, m'))
    (hs : (Store.step .plain .flushBegin σ).isSome) : Matched E m' σ .flushBegin r := by
  obtain ⟨hfl, hb⟩ := Store.of_check hs
  obtain ⟨ho, rfl, rfl⟩ := CacheState.flushBegin_cases hc
  have hfile := fun g => hfl ▸ h.file g
  refine ⟨{ Choice.plain with listing := m.order }, _, Store.check_eq_some hfl hb,
    ⟨?_, fun _ => ?_, ⟨fun g hg => ?_, fun g data w hg => ?_⟩, fun g => ?_⟩⟩
  · simp
  · symm
    refine flushes_eq_zero.2 fun g r hr => ?_
    cases hd : σ.files g with
    | none =>
      have := ((hfile g).missing hd).2.1
      rw [CacheState.view_requests] at this
      rw [this] at hr
      exact absurd hr (Multiset.notMem_zero r)
    | some d => exact ((hfile g).phase d hd).not_isFlush r hr
  · obtain ⟨g', hg'⟩ := h.locks.file g (by simpa using hg)
    rw [ho] at hg'; cases hg'
  · simp at hg
  · have hu := (hfile g).use
    exact ⟨(hfile g).marked, ⟨hu.marked_le, hu.marked_ready, fun _ h => (nomatch h), fun _ => rfl⟩,
      (hfile g).missing, fun d hd => ((hfile g).phase d hd).flush rfl rfl rfl rfl⟩

theorem Sim.flushFile (h : Sim E m σ) {r : Unit}
    (hc : CacheState.client cfg c (.flushFile f) m = some (r, m')) :
    Matched E m' σ (.flushFile f) r := by
  obtain ⟨ho, file, hf, ⟨hl, hm, rfl⟩ | ⟨-, rfl⟩⟩ := CacheState.flushFile_cases hc
  · have hfl : σ.flushing = true := h.flushing.2 ho
    have hfs := h.file f
    obtain ⟨d, hd, hph⟩ := h.exists_data hf
    refine ⟨.plain, σ, by simp [Store.step, hfl], ?_⟩
    refine h.update f (fun g hg => ?_) (fun _ _ => rfl) rfl Iff.rfl (fun _ => ?_)
      ⟨h.locks.file, fun g data w ho' => ?_⟩
      ⟨hfs.marked, hfs.use, fun hn => ?_, fun d' hd' => ?_⟩
    · simp [CacheState.view, inFlight_cons_of_ne hg]
    · exact (congrArg (· + 1) (h.remaining hfl)).trans (flushes_cons_flush ..).symm
    · rw [show m.owner .fileCacheMutex = _ from ho'] at ho; cases ho
    · rw [Store.view_fst, hd] at hn; cases hn
    · obtain rfl := Option.some.inj (hd.symm.trans hd')
      rw [hfl] at hph ⊢
      have hreq : inFlight ((f, Request.flush (serialize file.data) false) ::ₘ m.pending) f =
          .flush (serialize file.data) false ::ₘ inFlight m.pending f := inFlight_cons_self
      have hnew : ∀ {d'}, E d d' → ∀ {stored : Option ByteVec},
          IsFlush E true stored d (.flush (serialize d') false) :=
        fun he _ => ⟨_, false, he, rfl, rfl, fun h => by cases h⟩
      cases hph with
      | absent hf' => rw [CacheState.view_file, hf] at hf'; cases hf'
      | reading data d' b buffer he hf' =>
        obtain rfl := Option.some.inj (hf.symm.trans hf')
        exact absurd rfl hl
      | loaded d' b he hf' hr hs hm' =>
        obtain rfl := Option.some.inj (hf.symm.trans hf')
        refine .loaded d' b he hf' (fun r hr' => ?_) hs hm'
        rw [CacheState.view_requests, hreq] at hr'
        rcases Multiset.mem_cons.1 hr' with rfl | hr'
        · exact hnew he
        · exact hr r hr'
      | evicting d' d'' st b w rest he he' hf' hr hrest hu' hs =>
        obtain rfl := Option.some.inj (hf.symm.trans hf')
        refine .evicting d' d'' st b w (.flush (serialize d') false ::ₘ rest) he he' hf' ?_
          (fun r hr' => ?_) hu' hs
        · rw [CacheState.view_requests] at hr
          rw [CacheState.view_requests, hreq, hr, Multiset.cons_swap]
        · rcases Multiset.mem_cons.1 hr' with rfl | hr'
          · exact hnew he
          · exact hrest r hr'
  · exact h.matched (by simp [Store.step, h.flushing.2 ho])

theorem Sim.flushWait (h : Sim E m σ) {r : Unit}
    (hc : CacheState.client cfg c .flushWait m = some (r, m')) : Matched E m' σ .flushWait r := by
  obtain ⟨ho, hr, rfl⟩ := CacheState.flushWait_cases hc
  have hfl : σ.flushing = true := h.flushing.2 ho
  have hno := flushes_eq_zero.1 ((h.remaining hfl).symm.trans hr)
  refine ⟨.plain, { σ with flushing := false }, by simp [Store.step, hfl],
    ⟨?_, fun hf => (nomatch hf), ⟨fun g hg => ?_, fun g data w hg => ?_⟩, fun g => ?_⟩⟩
  · simp [CacheState.unlock]
  · obtain ⟨g', hg'⟩ := h.locks.file g (by simpa [CacheState.unlock] using hg)
    rw [ho] at hg'; cases hg'
  · simp [CacheState.unlock] at hg
  · have hfs := hfl ▸ h.file g
    exact ⟨hfs.marked, ⟨hfs.use.marked_le, hfs.use.marked_ready, hfs.use.dirty_ready,
      fun h => (nomatch h)⟩, hfs.missing, fun d hd => (hfs.phase d hd).flushed (hno g)⟩

/-- Every step of the client is matched. -/
theorem Sim.client (hE : Similarity E) (h : Sim E m σ) (hx : Exact (E := E) m σ) {o : CacheOp}
    {r : o.Res} (hok : MergeCovered E m o) (hc : CacheState.client cfg c o m = some (r, m'))
    (hs : ∀ c, (Store.step c o σ).isSome) : Matched E m' σ o r := by
  cases o with
  | getNodeFile f => exact h.getNodeFile hc (hs .plain)
  | createNodeFile f => exact h.createNodeFile hE hc (hs .plain)
  | cacheMaintenance =>
    obtain ⟨hfl, hb⟩ := Store.of_check (hs .plain)
    obtain ⟨m₁, hm, hr⟩ := Option.map_eq_some_iff.1 hc
    obtain ⟨-, rfl⟩ := Prod.mk.inj hr
    exact (h.maintenance hm).matched (Store.check_eq_some hfl hb)
  | waitUntilLoaded f => exact h.waitUntilLoaded hc (hs .plain)
  | isLoaded f => exact h.isLoaded hc (hs .plain)
  | hasChildFile f child => exact h.hasChildFile hx hc (hs .plain)
  | setChildFile f child => exact h.setChildFile hE hx hc (hs .plain)
  | readNode f s => exact h.readNode hE hx hc (hs .plain)
  | createNode f s => exact h.createNode hE hx hc (hs .plain)
  | countNode => exact h.countNode hc (hs .plain)
  | removeUser f => exact h.removeUser hc (hs .plain)
  | getNode f s => exact h.getNode hx hc (hs .plain)
  | setNode f s n w => exact h.setNode hE hx hok hc (hs .plain)
  | releaseNode f modified => exact h.releaseNode hc (hs .plain)
  | flushBegin => exact h.flushBegin hc (hs .plain)
  | flushFile f => exact h.flushFile hc
  | flushWait => exact h.flushWait hc

end MegaTree
