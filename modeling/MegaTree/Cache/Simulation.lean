import MegaTree.Cache.Client

/-!
# The cache refines the store

* `Sim.env` : the storage and its callbacks keep the relation between cache and store.
* `simulates` : the cache refines the store.  The only condition is on the writes of `mergeChild`
  (`MergeCovered`).
* `simulatesUpTo` : the same up to a relation `E`, where the store may change its contents along
  `E` before each step.
-/

namespace MegaTree

open Effect

variable {E : FileData → FileData → Prop} {m m' : CacheState} {σ σ' : Store} {f : LongId}
  {cfg : Config} {fl : Bool} {d : FileData} {u : FileUse} {v : FileView}

/-! ### The environment -/

/-- A request in flight is one that the phase knows. -/
theorem Sim.exists_request (h : Sim E m σ) {r : Request} (hp : (f, r) ∈ m.pending) :
    ∃ d, σ.files f = some d ∧ Phase E σ.flushing d (σ.uses f) (m.view f) := by
  cases hd : σ.files f with
  | none =>
    have := ((h.file f).missing hd).2.1
    rw [CacheState.view_requests, inFlight_erase hp] at this
    exact absurd this (Multiset.cons_ne_zero)
  | some d => exact ⟨d, rfl, (h.file f).phase d hd⟩

/-- A step of the environment that concerns one file. -/
theorem Sim.event (h : Sim E m σ) {r : Request} (hp : (f, r) ∈ m.pending)
    (hm : ∀ g, g ≠ f → m'.view g = m.view g) (hk : m'.marked = m.marked)
    (ho : m'.owner .fileCacheMutex = some .client ↔ m.owner .fileCacheMutex = some .client)
    (hr : σ.flushing = true → m'.remaining = flushes m'.pending) (hl : LocksOk m')
    (hf : ∀ d, σ.files f = some d → Phase E σ.flushing d (σ.uses f) (m.view f) →
      Phase E σ.flushing d (σ.uses f) (m'.view f)) : Sim E m' σ := by
  obtain ⟨d, hd, hph⟩ := h.exists_request hp
  refine h.update f hm (fun _ _ => rfl) rfl ho hr hl
    ⟨?_, (h.file f).use, fun hn => ?_, fun d' hd' => ?_⟩
  · rw [CacheState.view_marked, hk]
    exact (h.file f).marked
  · rw [Store.view_fst, hd] at hn; cases hn
  · obtain rfl := Option.some.inj (hd.symm.trans hd')
    exact hf d hd hph

theorem Sim.completeRead (h : Sim E m σ) {buffer : ByteVec} (hp : (f, .read none) ∈ m.pending)
    (hs : m.storage f = some buffer) :
    Sim E { m with pending := (f, .read (some buffer)) ::ₘ m.pending.erase (f, .read none) } σ := by
  refine h.event hp (fun g hg => ?_) rfl Iff.rfl (fun hfl => ?_)
    ⟨h.locks.file, fun g data w ho hmem => ?_⟩ fun d hd hph => ?_
  · simp [CacheState.view, inFlight_cons_of_ne hg, inFlight_erase_of_ne hg]
  · rw [flushes_cons_of_not _ _ rfl]
    refine (h.remaining hfl).trans ?_
    conv_lhs => rw [← Multiset.cons_erase hp]
    exact flushes_cons_of_not _ _ rfl
  · rcases Multiset.mem_cons.1 hmem with hmem | hmem
    · cases hmem
    · exact h.locks.dead g data w ho (Multiset.mem_of_mem_erase hmem)
  · obtain ⟨data, d', modified, he, hf, hreq, hu, hdata, -, hst⟩ := hph.of_read (mem_inFlight.2 hp)
    rw [CacheState.view_requests] at hreq
    refine .reading data d' modified (some buffer) he hf ?_ hu hdata ?_ hst
    · rw [CacheState.view_requests, inFlight_cons_self, inFlight_erase_self hp, hreq,
        Multiset.erase_singleton]
      rfl
    · rintro b ⟨⟩
      exact Option.some.inj (hs.symm.trans hst)

theorem Sim.completeEvict (hE : Similarity E) (h : Sim E m σ) {data : ByteVec}
    (hp : (f, .evict data false) ∈ m.pending) :
    Sim E { m with
      storage := Function.update m.storage f (some data)
      pending := (f, .evict data true) ::ₘ m.pending.erase (f, .evict data false) } σ := by
  refine h.event hp (fun g hg => ?_) rfl Iff.rfl (fun hfl => ?_)
    ⟨h.locks.file, fun g data' w ho hmem => ?_⟩ fun d hd hph => ?_
  · simp [CacheState.view, inFlight_cons_of_ne hg, inFlight_erase_of_ne hg, hg]
  · rw [flushes_cons_of_not _ _ rfl]
    refine (h.remaining hfl).trans ?_
    conv_lhs => rw [← Multiset.cons_erase hp]
    exact flushes_cons_of_not _ _ rfl
  · rcases Multiset.mem_cons.1 hmem with hmem | hmem
    · cases hmem
      exact h.locks.dead f data false ho hp
    · exact h.locks.dead g data' w ho (Multiset.mem_of_mem_erase hmem)
  · obtain ⟨d', d'', st, b, rest, he, he', rfl, hf, hreq, hrest, hu, -⟩ :=
      hph.of_evict (mem_inFlight.2 hp)
    rw [CacheState.view_requests] at hreq
    have hk : Kept E d (Function.update m.storage f (some (serialize d'')) f) := by
      rw [Function.update_self]
      exact (Kept.of hE d'').similar hE (hE.symm he')
    refine .evicting d' d'' st b true rest he he' hf ?_ (fun r hr => (hrest r hr).stored hk) hu
      fun _ => hk
    rw [CacheState.view_requests, inFlight_cons_self, inFlight_erase_self hp, hreq,
      Multiset.erase_cons_head]

theorem Sim.completeFlush (hE : Similarity E) (h : Sim E m σ) {data : ByteVec}
    (hp : (f, .flush data false) ∈ m.pending) :
    Sim E { m with
      storage := Function.update m.storage f (some data)
      pending := (f, .flush data true) ::ₘ m.pending.erase (f, .flush data false) } σ := by
  refine h.event hp (fun g hg => ?_) rfl Iff.rfl (fun hfl => ?_)
    ⟨h.locks.file, fun g data' w ho hmem => ?_⟩ fun d hd hph => ?_
  · simp [CacheState.view, inFlight_cons_of_ne hg, inFlight_erase_of_ne hg, hg]
  · rw [flushes_cons_flush]
    refine (h.remaining hfl).trans ?_
    conv_lhs => rw [← Multiset.cons_erase hp]
    exact flushes_cons_flush ..
  · rcases Multiset.mem_cons.1 hmem with hmem | hmem
    · cases hmem
    · exact h.locks.dead g data' w ho (Multiset.mem_of_mem_erase hmem)
  · have hmem := mem_inFlight.2 hp
    obtain ⟨d', w, he, hdata, hfl, -⟩ := hph.of_flush hmem
    obtain ⟨file, hf⟩ := hph.exists_file ⟨_, hmem⟩
    have hk : Kept E d (Function.update m.storage f (some data) f) := by
      cases hdata
      rw [Function.update_self]
      exact (Kept.of hE d').similar hE (hE.symm he)
    rw [hfl] at hph ⊢
    have := hph.replace hmem hf hk (.inr rfl) (.inl rfl) (k := m.marked f)
    rw [CacheState.view_requests, ← inFlight_erase_self hp, ← inFlight_cons_self] at this
    rwa [show (⟨file.nodeState, file.data, file.useCount, file.isModified⟩ : NodeFile) = file from rfl,
      ← hf] at this

theorem Sim.readCb (hE : Similarity E) (h : Sim E m σ) {buffer : ByteVec} {file : NodeFile}
    {data : FileData} {size : UInt32} {loaders : ℕ} (hp : (f, .read (some buffer)) ∈ m.pending)
    (hf : m.files f = some file) (hd : deserialize buffer file.data.nodeCache = some data) :
    Sim E { m with
      files := Function.update m.files f
        (some { file with nodeState := .loaded, data := data, isModified := false })
      pending := m.pending.erase (f, .read (some buffer))
      currentCacheSize := size
      loaders := loaders } σ := by
  refine h.event hp (fun g hg => ?_) rfl Iff.rfl (fun hfl => ?_)
    ⟨h.locks.file, fun g data' w ho hmem => ?_⟩ fun d hd' hph => ?_
  · simp [CacheState.view, inFlight_erase_of_ne hg, hg]
  · refine (h.remaining hfl).trans ?_
    conv_lhs => rw [← Multiset.cons_erase hp]
    exact flushes_cons_of_not _ _ rfl
  · exact h.locks.dead g data' w ho (Multiset.mem_of_mem_erase hmem)
  · obtain ⟨old, d', b, he, hf', hreq, hu, hold, hb, hst⟩ := hph.of_read (mem_inFlight.2 hp)
    obtain rfl := Option.some.inj (hf.symm.trans hf')
    rw [CacheState.view_requests] at hreq
    obtain rfl := hb buffer rfl
    -- the placeholders are nodes of the file, so the bytes restore it
    have hcovered : deserialize (serialize d') old.nodeCache = some d' :=
      deserialize_serialize_of_covered fun s hs => hold s (by
        have := hE.nodes he s
        rw [hs] at this
        exact Option.not_isSome_iff_eq_none.1 (by rw [← this]; exact Bool.false_ne_true))
    obtain rfl := Option.some.inj (hcovered.symm.trans hd)
    have hno : inFlight (m.pending.erase (f, .read (some (serialize d')))) f = 0 := by
      rw [inFlight_erase_self hp, hreq, Multiset.erase_singleton]
    have := (h.file f).use.dirty_ready
    refine .loaded d' false he (Function.update_self ..) (fun r hr => ?_)
      (fun _ _ => ⟨d', he, hst⟩) fun hpos hdirty => ?_
    · rw [CacheState.view_requests, hno] at hr
      exact absurd hr (Multiset.notMem_zero r)
    · rw [show (σ.uses f).ready = true from this hpos hdirty] at hu
      cases hu hpos

theorem Sim.evicted (h : Sim E m σ) {data : ByteVec} {file : NodeFile} {order : List LongId}
    {size writeSize : UInt32} (hp : (f, .evict data true) ∈ m.pending)
    (ho : m.owner .fileCacheMutex = none) (hf : m.files f = some file)
    (hs : file.nodeState = .evicting) : Sim E { m with
      files := Function.update m.files f none
      order := order
      pending := m.pending.erase (f, .evict data true)
      currentCacheSize := size
      currentWriteSize := writeSize } σ := by
  have hfl : σ.flushing = false := by
    rw [← Bool.not_eq_true, h.flushing, ho]
    exact fun h => nomatch h
  refine h.event hp (fun g hg => ?_) rfl Iff.rfl (fun hfl' => ?_)
    ⟨h.locks.file, fun g data' w ho' hmem => ?_⟩ fun d hd hph => ?_
  · simp [CacheState.view, inFlight_erase_of_ne hg, hg]
  · rw [hfl] at hfl'; cases hfl'
  · exact h.locks.dead g data' w ho' (Multiset.mem_of_mem_erase hmem)
  · obtain ⟨d', d'', st, b, rest, he, he', rfl, hf', hreq, hrest, hu, hk⟩ :=
      hph.of_evict (mem_inFlight.2 hp)
    obtain rfl := Option.some.inj (hf.symm.trans hf')
    rw [CacheState.view_requests] at hreq
    rw [hfl] at hrest
    refine .absent (Function.update_self ..) ?_ ?_ (hk rfl)
    · rw [CacheState.view_requests, inFlight_erase_self hp, hreq, Multiset.erase_cons_head]
      exact eq_zero_of_isFlush hrest
    · rcases hu with ⟨-, hu⟩ | ⟨hst, -⟩
      · exact hu
      · rw [show st = .evicting from hs] at hst; cases hst

theorem Sim.reloaded (h : Sim E m σ) {data : ByteVec} {file : NodeFile}
    {owner : Lock → Option Thread} (hp : (f, .evict data true) ∈ m.pending)
    (ho : m.owner .fileCacheMutex = none)
    (ho' : owner .fileCacheMutex = some (.evictNodeFileCb f)) (hf : m.files f = some file)
    (hs : file.nodeState = .loading) : Sim E { m with
      files := Function.update m.files f
        (some { file with nodeState := .loaded, isModified := false })
      pending := m.pending.erase (f, .evict data true)
      owner := owner } σ := by
  have hfl : σ.flushing = false := by
    rw [← Bool.not_eq_true, h.flushing, ho]
    exact fun h => nomatch h
  obtain ⟨d, hd, hph⟩ := h.exists_data hf
  obtain ⟨d', d'', st, b, rest, he, he', rfl, hf', hreq, hrest, hu, hk⟩ :=
    hph.of_evict (mem_inFlight.2 hp)
  obtain rfl := Option.some.inj (hf.symm.trans hf')
  rw [CacheState.view_requests] at hreq
  rw [hfl] at hrest
  have hno : inFlight (m.pending.erase (f, .evict (serialize d'') true)) f = 0 := by
    rw [inFlight_erase_self hp, hreq, Multiset.erase_cons_head]
    exact eq_zero_of_isFlush hrest
  refine h.event hp (fun g hg => ?_) rfl (by simp [ho, ho']) (fun hfl' => ?_)
    ⟨fun g _ => ⟨f, ho'⟩, fun g data' w hg hmem => ?_⟩ fun d₁ hd₁ _ => ?_
  · simp [CacheState.view, inFlight_erase_of_ne hg, hg]
  · rw [hfl] at hfl'; cases hfl'
  · obtain rfl : f = g := by
      have := ho'.symm.trans hg
      cases this
      rfl
    rw [← mem_inFlight, hno] at hmem
    exact Multiset.notMem_zero _ hmem
  · obtain rfl := Option.some.inj (hd.symm.trans hd₁)
    refine .loaded d' false he (Function.update_self ..) (fun r hr => ?_) (fun _ _ => hk rfl)
      fun hpos hdirty => ?_
    · rw [CacheState.view_requests, hno] at hr
      exact absurd hr (Multiset.notMem_zero r)
    · have hready : (σ.uses f).ready = true := (h.file f).use.dirty_ready hpos hdirty
      rcases hu with ⟨-, hu⟩ | ⟨-, hu⟩
      · omega
      · rw [hready] at hu
        cases hu hpos

theorem Sim.flushCb (h : Sim E m σ) {data : ByteVec} {file : NodeFile}
    (hp : (f, .flush data true) ∈ m.pending) (hf : m.files f = some file) : Sim E { m with
      files := Function.update m.files f (some { file with isModified := false })
      pending := m.pending.erase (f, .flush data true)
      remaining := m.remaining - 1 } σ := by
  refine h.event hp (fun g hg => ?_) rfl Iff.rfl (fun hfl => ?_)
    ⟨h.locks.file, fun g data' w ho hmem => ?_⟩ fun d hd hph => ?_
  · simp [CacheState.view, inFlight_erase_of_ne hg, hg]
  · have hrem := h.remaining hfl
    rw [← Multiset.cons_erase hp, flushes_cons_flush] at hrem
    simp only [hrem, Nat.add_sub_cancel]
  · exact h.locks.dead g data' w ho (Multiset.mem_of_mem_erase hmem)
  · have hmem := mem_inFlight.2 hp
    obtain ⟨d', w, he, hdata, hfl, hk⟩ := hph.of_flush hmem
    cases hdata
    have hdirty : (σ.uses f).dirty = false := (h.file f).use.idle hfl
    rw [hfl] at hph ⊢
    have := hph.replace hmem hf (hk rfl) (.inl rfl) (.inr hdirty) (b := false) (k := m.marked f)
    rw [CacheState.view_requests, ← inFlight_erase_self hp] at this
    change Phase _ _ _ _ ⟨Function.update m.files f _ f, _, _, _⟩
    rw [Function.update_self]
    exact this

/-- The storage and its callbacks keep the relation. -/
theorem Sim.env (hE : Similarity E) (h : Sim E m σ) (hs : EnvStep cfg m m') : Sim E m' σ := by
  cases hs with
  | completeRead f buffer hp hs => exact h.completeRead hp hs
  | completeEvict f data hp => exact h.completeEvict hE hp
  | completeFlush f data hp => exact h.completeFlush hE hp
  | readCb f buffer file data hp hf hd => exact h.readCb hE hp hf hd
  | evicted f data file hp ho hf hm hs => exact h.evicted hp ho hf hs
  | reloaded f data file owner hp ho ho' hf hm hs => exact h.reloaded hp ho ho' hf hs
  | stuck f data owner hp ho ho' =>
    -- a worker that waits for itself has no request in flight
    rcases ho with ho | ⟨ho, hf⟩
    · exact absurd hp (h.locks.dead f data true ho)
    · obtain ⟨g, hg⟩ := h.locks.file f hf
      rw [ho] at hg; cases hg
  | flushCb f data file hp hf => exact h.flushCb hp hf
  | maintenance busy m₁ hl hc =>
    have h : Sim E { m with loaders := m.loaders - 1 } σ :=
      h.congr (fun _ => rfl) Iff.rfl h.remaining ⟨h.locks.file, h.locks.dead⟩
    exact h.maintenance hc

/-! ### Refinement -/

theorem exact_eq : Exact (E := Eq) m σ := fun _ _ _ _ _ _ h => h

/-- The cache refines the store, as long as `mergeChild` only writes to files that are, or will be,
modified. -/
theorem simulates (cfg : Config) :
    (cacheMachine cfg).Simulates (MergeCovered Eq) Store.step (Sim Eq) where
  client _ h hok hc hs := h.client similarity_eq exact_eq hok hc hs
  env _ h hd := h.env similarity_eq (.of_env hd)

/-- A write of `mergeChild` that the store does not see is harmless in the cache. -/
theorem Sim.covered (h : Sim E m σ) (hx : Exact (E := E) m σ) {o : CacheOp} (hu : Unseen E σ o)
    (hs : (Store.step .plain o σ).isSome) : MergeCovered E m o := by
  cases o with
  | setNode f s n w =>
    cases w with
    | merge =>
      intro file hf
      simp only [Store.step] at hs
      cases hd : σ.files f with
      | none => rw [hd] at hs; cases hs
      | some d =>
        rw [hd] at hs
        obtain ⟨hfl, hb⟩ := Store.of_check hs
        simp only [Bool.and_eq_true, decide_eq_true_eq] at hb
        obtain ⟨modified, hf', -⟩ := h.loaded hx hd hfl hb.1.1.1 hb.1.1.2
        obtain rfl := Option.some.inj (hf.symm.trans hf')
        exact .inr (.inr (hu d hd))
    | _ => trivial
  | _ => trivial

theorem Sim.change (hE : Similarity E) (h : Sim E m σ) (δ : Change E) : Sim E m (σ.change δ) where
  flushing := h.flushing
  remaining := h.remaining
  locks := h.locks
  file g := by
    have hg := h.file g
    refine ⟨hg.marked, hg.use, fun hn => hg.missing (Option.map_eq_none_iff.1 hn), fun d hd => ?_⟩
    obtain ⟨d₀, hd₀, rfl⟩ := Option.map_eq_some_iff.1 hd
    exact (hg.phase d₀ hd₀).similar hE (δ.rel g d₀)

open Classical in
/-- The contents that the loaded files have, where these are similar. -/
noncomputable def Change.toLoaded (hE : Similarity E) (m : CacheState) : Change E where
  run f d := if h : ∃ file, m.files f = some file ∧ file.nodeState = .loaded ∧ E d file.data
    then h.choose.data else d
  rel f d := by
    split_ifs with h
    · exact h.choose_spec.2.2
    · exact hE.refl d

theorem exact_change (hE : Similarity E) : Exact (E := E) m (σ.change (.toLoaded hE m)) := by
  intro f file d hf hl hd he
  obtain ⟨d₁, -, hd₁⟩ := Option.map_eq_some_iff.1 hd
  have hrel := (Change.toLoaded hE m).rel f d₁
  rw [hd₁] at hrel
  have hex : ∃ file, m.files f = some file ∧ file.nodeState = .loaded ∧ E d₁ file.data :=
    ⟨file, hf, hl, hE.trans hrel he⟩
  rw [← hd₁]
  refine (dif_pos hex).trans ?_
  rw [Option.some.inj (hex.choose_spec.1.symm.trans hf)]

/-- The cache refines the store whose contents may change along `E`. -/
theorem simulatesUpTo (hE : Similarity E) (cfg : Config) :
    (cacheMachine cfg).Simulates (fun _ _ => True) (Store.stepUpTo E) (Sim E) where
  client {m m' σ o r} c h _ hc hs := by
    have hboth : Unseen E (σ.change (.toLoaded hE m)) o ∧
        ∀ c, (Store.step c o (σ.change (.toLoaded hE m))).isSome := by
      have hunseen : Unseen E (σ.change (.toLoaded hE m)) o := by
        have := hs (.plain, .toLoaded hE m)
        unfold Store.stepUpTo at this
        split_ifs at this with hu
        · exact hu
        · cases this
      exact ⟨hunseen, fun c => by simpa [Store.stepUpTo, hunseen] using hs (c, .toLoaded hE m)⟩
    obtain ⟨hunseen, hs⟩ := hboth
    have hsim := h.change hE (.toLoaded hE m)
    obtain ⟨c', σ', hstep, hsim'⟩ := hsim.client hE (exact_change hE)
      (hsim.covered (exact_change hE) hunseen (hs .plain)) hc hs
    exact ⟨(c', .toLoaded hE m), σ', (if_pos hunseen).trans hstep, hsim'⟩
  env _ h hd := h.env hE (.of_env hd)

end MegaTree
