import MegaTree.Cache.Flight
import MegaTree.Tree.Session

/-!
# The callback of an eviction

* `evictNodeFileCb_asserts` : the assertions of `evictNodeFileCb` hold in every run in which
  `flushCache` meets no file that is being evicted.
* `evictNodeFileCb_never_reloads` : for a file that was requested again during its eviction, the
  callback waits for a mutex that it owns.
-/

namespace MegaTree

open Effect

variable {cfg : Config} {m m' : CacheState} {f g : LongId} {data : ByteVec} {w : Bool}
  {file : NodeFile}

/-! ### The assertions of `evictNodeFileCb` -/

/-- `flushCache` meets no file that is being evicted. -/
def SkipsEvicting (m : CacheState) : CacheOp → Prop
  | .flushFile f => m.state f ≠ some .evicting
  | _ => True

/-- The assertions of `evictNodeFileCb` hold for the file. -/
def AssertsHold (m : CacheState) (f : LongId) : Prop :=
  ∃ file, m.files f = some file ∧ file.isModified = true ∧
    (file.nodeState = .evicting ∨ file.nodeState = .loading)

theorem evictNodeFileCb_ne_aborted (hf : m.files f = some file) (hm : file.isModified = true)
    (hs : file.nodeState = .evicting ∨ file.nodeState = .loading) :
    m.evictNodeFileCb f ≠ .aborted := by
  unfold CacheState.evictNodeFileCb CacheState.lock
  grind

/-- The callback takes `file_cache_mutex` a second time. -/
theorem evictNodeFileCb_deadlocks (ho : m.owner .fileCacheMutex = none)
    (hl : m.owner (.fileMutex f) = none) (hf : m.files f = some file) (hm : file.isModified = true)
    (hs : file.nodeState = .loading) : ∃ m', m.evictNodeFileCb f = .deadlocked m' := by
  have hne : Lock.fileMutex f ≠ .fileCacheMutex := fun h => nomatch h
  have hne' : Lock.fileCacheMutex ≠ .fileMutex f := fun h => nomatch h
  unfold CacheState.evictNodeFileCb CacheState.lock
  simp only [ho, hl, Function.update_of_ne hne, hf, hm, hs, if_true, CacheState.setFile,
    Function.update_of_ne hne', Function.update_self]
  exact ⟨_, rfl⟩

/-- A file with an eviction write in flight is modified, and `flushCache` does not write it too. -/
def EvictsModified (m : CacheState) : Prop :=
  ∀ f data w, .evict data w ∈ inFlight m.pending f →
    (∃ file, m.files f = some file ∧ file.isModified = true) ∧
      ∀ r ∈ inFlight m.pending f, r.isFlush = false

namespace EvictsModified

/-- A step that changes one file. -/
theorem update (h : EvictsModified m) (f : LongId) (hm : ∀ g, g ≠ f → m'.files g = m.files g)
    (hp : ∀ g, g ≠ f → inFlight m'.pending g = inFlight m.pending g)
    (hf : ∀ data w, .evict data w ∈ inFlight m'.pending f →
      (∃ file, m'.files f = some file ∧ file.isModified = true) ∧
        ∀ r ∈ inFlight m'.pending f, r.isFlush = false) : EvictsModified m' := by
  intro g data w hg
  by_cases hgf : g = f
  · subst hgf
    exact hf data w hg
  · rw [hp g hgf] at hg ⊢
    rw [hm g hgf]
    exact h g data w hg

theorem worked (h : EvictsModified m) (hw : CacheState.Worked m m') : EvictsModified m' := by
  intro f data w hf
  rw [hw.pending] at hf ⊢
  obtain ⟨⟨file, hfile, hm⟩, hno⟩ := h f data w hf
  obtain ⟨file', hfile', -, hm'⟩ := hw.file f file hfile
  exact ⟨⟨file', hfile', hm' hm⟩, hno⟩

/-- A step that leaves no eviction write for the only file that it changes. -/
theorem update_of_none (h : EvictsModified m) (f : LongId)
    (hm : ∀ g, g ≠ f → m'.files g = m.files g)
    (hp : ∀ g, g ≠ f → inFlight m'.pending g = inFlight m.pending g)
    (hf : ∀ data w, .evict data w ∉ inFlight m'.pending f) : EvictsModified m' :=
  h.update f hm hp fun data w hmem => absurd hmem (hf data w)

theorem maintenance {busy : LongId → Bool} (h : EvictsModified m) (hf : Flights m)
    (hc : m.cacheMaintenance cfg busy = some m') : EvictsModified m' := by
  refine (CacheState.cacheMaintenance_induct (P := fun m => EvictsModified m ∧ Flights m ∧
    m.owner .fileCacheMutex = none) ?_ ?_ hc ⟨h, hf, Flights.free_of_maintenance hc⟩).1
  · rintro m f file ⟨h, hf, ho⟩ hfile hs - -
    refine ⟨h.update_of_none f (fun g hg => Function.update_of_ne hg ..) (fun _ _ => rfl)
      fun data w hmem => ?_, hf.dropFile ho hfile hs, ho⟩
    rw [show (m.dropFile f file).pending = m.pending from rfl,
      hf.inFlight_of_loaded_file ho hfile hs]
      at hmem
    exact Multiset.notMem_zero _ hmem
  · rintro m f file ⟨h, hf, ho⟩ hfile hs - hm
    refine ⟨h.update f (fun g hg => Function.update_of_ne hg ..) (fun g hg => inFlight_cons_of_ne hg)
      fun data w hmem => ?_, hf.startEvict ho hfile hs, ho⟩
    refine ⟨⟨_, Function.update_self .., hm⟩, fun r hr => ?_⟩
    rw [show (m.startEvict f file).pending = (f, .evict (serialize file.data) false) ::ₘ m.pending
      from rfl, inFlight_cons_self, hf.inFlight_of_loaded_file ho hfile hs, Multiset.cons_zero,
      Multiset.mem_singleton] at hr
    rw [hr]; rfl

theorem client {o : CacheOp} (h : EvictsModified m) (hf : Flights m) (hok : SkipsEvicting m o)
    (hs : CacheState.ClientStep cfg m o m') : EvictsModified m' := by
  cases hs with
  | worked _ _ hw => exact h.worked hw
  | found f file ho hfile =>
    refine h.update f (fun g hg => Function.update_of_ne hg ..) (fun _ _ => rfl)
      fun data w hmem => ?_
    obtain ⟨⟨x, hx, hm⟩, hno⟩ := h f data w hmem
    obtain rfl := Option.some.inj (hfile.symm.trans hx)
    exact ⟨⟨_, Function.update_self .., hm⟩, hno⟩
  | opened f modified ho hfile =>
    refine h.update_of_none f (fun g hg => Function.update_of_ne hg ..)
      (fun g hg => inFlight_cons_of_ne hg) fun data w hmem => ?_
    rw [inFlight_cons_self, hf.inFlight_of_none hfile, Multiset.cons_zero, Multiset.mem_singleton]
      at hmem
    cases hmem
  | created f ho hfile =>
    refine h.update_of_none f (fun g hg => Function.update_of_ne hg ..) (fun _ _ => rfl)
      fun data w hmem => ?_
    rw [hf.inFlight_of_none hfile] at hmem
    exact Multiset.notMem_zero _ hmem
  | maintenance busy _ hc => exact h.maintenance hf hc
  | flushBegin ho => exact h
  | flushFile f file ho hfile hs hm =>
    refine h.update_of_none f (fun _ _ => rfl) (fun g hg => inFlight_cons_of_ne hg)
      fun data w hmem => ?_
    rw [inFlight_cons_self] at hmem
    rcases Multiset.mem_cons.1 hmem with hmem | hmem
    · cases hmem
    -- a file that is neither `EVICTING` nor `LOADING` has no eviction write
    · rcases ((hf.file f).of_evict hmem).1 with hst | hst
      · exact hok hst
      · rw [CacheState.state, hfile] at hst
        exact hs (Option.some.inj hst)
  | flushWait ho hr => exact h

theorem env (h : EvictsModified m) (hf : Flights m) (hs : EnvStep cfg m m') :
    EvictsModified m' := by
  cases hs with
  | completeRead f buffer hp hst =>
    obtain ⟨-, hr⟩ := (hf.file f).of_read (mem_inFlight.2 hp)
    refine h.update_of_none f (fun _ _ => rfl)
      (fun g hg => (inFlight_cons_of_ne hg).trans (inFlight_erase_of_ne hg)) fun data w hmem => ?_
    rw [inFlight_cons_self, inFlight_erase_self hp, hr, Multiset.erase_singleton,
      Multiset.cons_zero,
      Multiset.mem_singleton] at hmem
    cases hmem
  | completeEvict f data hp =>
    obtain ⟨hfile, hno⟩ := h f data false (mem_inFlight.2 hp)
    refine h.update f (fun _ _ => rfl)
      (fun g hg => (inFlight_cons_of_ne hg).trans (inFlight_erase_of_ne hg)) fun _ _ _ =>
        ⟨hfile, fun r hr => ?_⟩
    rw [inFlight_cons_self, inFlight_erase_self hp] at hr
    rcases Multiset.mem_cons.1 hr with rfl | hr
    · rfl
    · exact hno r (Multiset.mem_of_mem_erase hr)
  | completeFlush f data hp =>
    refine h.update_of_none f (fun _ _ => rfl)
      (fun g hg => (inFlight_cons_of_ne hg).trans (inFlight_erase_of_ne hg)) fun data' w hmem => ?_
    rw [inFlight_cons_self, inFlight_erase_self hp] at hmem
    rcases Multiset.mem_cons.1 hmem with hmem | hmem
    · cases hmem
    · cases (h f data' w (Multiset.mem_of_mem_erase hmem)).2 _ (mem_inFlight.2 hp)
  | readCb f buffer file data hp hfile hd =>
    obtain ⟨-, hr⟩ := (hf.file f).of_read (mem_inFlight.2 hp)
    refine h.update_of_none f (fun g hg => Function.update_of_ne hg ..)
      (fun g hg => inFlight_erase_of_ne hg) fun data' w hmem => ?_
    rw [inFlight_erase_self hp, hr, Multiset.erase_singleton] at hmem
    exact Multiset.notMem_zero _ hmem
  | evicted f data file hp ho hfile hm hs =>
    exact h.update_of_none f (fun g hg => Function.update_of_ne hg ..)
      (fun g hg => inFlight_erase_of_ne hg) fun _ _ => hf.evict_unique hp
  | reloaded f data file owner hp ho ho' hfile hm hs =>
    exact h.update_of_none f (fun g hg => Function.update_of_ne hg ..)
      (fun g hg => inFlight_erase_of_ne hg) fun _ _ => hf.evict_unique hp
  | stuck f data owner hp ho ho' =>
    exact h.update_of_none f (fun _ _ => rfl) (fun g hg => inFlight_erase_of_ne hg)
      fun _ _ => hf.evict_unique hp
  | flushCb f data file hp hfile =>
    refine h.update_of_none f (fun g hg => Function.update_of_ne hg ..)
      (fun g hg => inFlight_erase_of_ne hg) fun data' w hmem => ?_
    rw [inFlight_erase_self hp] at hmem
    cases (h f data' w (Multiset.mem_of_mem_erase hmem)).2 _ (mem_inFlight.2 hp)
  | maintenance busy _ hl hc =>
    have hf : Flights { m with loaders := m.loaders - 1 } := hf.congr (fun _ => rfl) rfl rfl rfl
    exact maintenance (m := { m with loaders := m.loaders - 1 }) h hf hc

end EvictsModified

variable {α : Type} {p q : TreeM α} {storage : LongId → Option ByteVec}

/-- A test of what a computation found. -/
theorem elim_eq_true {β : Type} {x : Option β} {b : β → Bool} (h : x.elim false b = true) :
    ∃ y, x = some y ∧ b y = true := by
  cases x with
  | none => cases h
  | some y => exact ⟨y, rfl, h⟩

/-- The writes of `flushCache` are completed and answered, in the order of the files. -/
def CacheState.answerFlushes (m : CacheState) : List (CacheChoice ⊕ Event) :=
  m.order.flatMap fun f => (m.files f).elim [] fun file =>
    [.inr (.complete f (.flush (serialize file.data) false)),
      .inr (.callback f (.flush (serialize file.data) true))]

/-- The storage completes the eviction write of a file whose contents did not change. -/
def CacheState.completeEvict (m : CacheState) (f : LongId) : List (CacheChoice ⊕ Event) :=
  (m.files f).elim [] fun file => [.inr (.complete f (.evict (serialize file.data) false))]

/-- The file is waited for during its eviction, or its callback has got stuck. -/
def Requested (f : LongId) (m : CacheState) : Prop :=
  m.state f = some .loading ∧ (∃ data w, .evict data w ∈ inFlight m.pending f) ∨
    m.owner .fileCacheMutex = some (.evictNodeFileCb f)

namespace Requested

/-- A step that leaves the file and its requests alone. -/
theorem congr (h : Requested f m) (hm : m'.state f = m.state f)
    (hp : ∀ data w, .evict data w ∈ inFlight m.pending f → .evict data w ∈ inFlight m'.pending f)
    (ho : m.owner .fileCacheMutex = some (.evictNodeFileCb f) → m'.owner = m.owner) :
    Requested f m' := by
  rcases h with ⟨hs, data, w, hr⟩ | h
  · exact .inl ⟨hm.trans hs, data, w, hp data w hr⟩
  · exact .inr (by rw [ho h, h])

/-- While a mutex is free or belongs to the client, the callback has not got stuck. -/
theorem waiting (h : Requested f m)
    (ho : m.owner .fileCacheMutex ≠ some (.evictNodeFileCb f)) :
    m.state f = some .loading ∧ ∃ data w, .evict data w ∈ inFlight m.pending f :=
  h.resolve_right ho

theorem maintenance {busy : LongId → Bool} (h : Requested f m)
    (hc : m.cacheMaintenance cfg busy = some m') : Requested f m' := by
  have hfree := Flights.free_of_maintenance hc
  have hne : ∀ {m : CacheState} {g file}, m.state f = some .loading → m.files g = some file →
      file.nodeState = .loaded → f ≠ g := by
    rintro m g file hs hg hl rfl
    rw [CacheState.state, hg, Option.map_some, hl] at hs
    cases hs
  refine .inl (CacheState.cacheMaintenance_induct (P := fun m => m.state f = some .loading ∧
    ∃ data w, .evict data w ∈ inFlight m.pending f) ?_ ?_ hc
      (h.waiting (by rw [hfree]; exact fun h => by cases h)))
  · rintro m g file ⟨hs, hr⟩ hg hl - -
    exact ⟨(Flights.state_update_of_ne (hne hs hg hl) rfl).trans hs, hr⟩
  · rintro m g file ⟨hs, data, w, hr⟩ hg hl - -
    have hfg := hne hs hg hl
    refine ⟨(Flights.state_update_of_ne hfg rfl).trans hs, data, w, ?_⟩
    rwa [show (m.startEvict g file).pending = (g, .evict (serialize file.data) false) ::ₘ m.pending
      from rfl, inFlight_cons_of_ne hfg]

theorem client {o : CacheOp} (h : Requested f m) (hs : CacheState.ClientStep cfg m o m') :
    Requested f m' := by
  have hfree : m.owner .fileCacheMutex = none → ∃ file, m.files f = some file ∧
      file.nodeState = .loading := by
    intro ho
    have := (h.waiting (by rw [ho]; exact fun h => nomatch h)).1
    exact Option.map_eq_some_iff.1 this
  cases hs with
  | worked _ _ hw =>
    refine h.congr ?_ (fun _ _ => by rw [hw.pending]; exact id) fun _ => hw.owner
    rw [CacheState.state, CacheState.state]
    cases hf : m.files f with
    | none => rw [hw.gone f hf]
    | some file =>
      obtain ⟨file', hf', hst, -⟩ := hw.file f file hf
      rw [hf', Option.map_some, Option.map_some, hst]
  | found g file ho hg =>
    refine h.congr ?_ (fun _ _ => id) fun _ => rfl
    by_cases hfg : f = g
    · subst hfg
      obtain ⟨x, hx, hl⟩ := hfree ho
      obtain rfl := Option.some.inj (hx.symm.trans hg)
      rw [CacheState.state, CacheState.state, hx]
      simp [hl]
    · exact Flights.state_update_of_ne hfg rfl
  | opened g modified ho hg =>
    have hfg : f ≠ g := by
      rintro rfl
      obtain ⟨x, hx, -⟩ := hfree ho
      rw [hx] at hg
      cases hg
    exact h.congr (Flights.state_update_of_ne hfg rfl)
      (fun _ _ => by rw [inFlight_cons_of_ne hfg]; exact id) fun _ => rfl
  | created g ho hg =>
    have hfg : f ≠ g := by
      rintro rfl
      obtain ⟨x, hx, -⟩ := hfree ho
      rw [hx] at hg
      cases hg
    exact h.congr (Flights.state_update_of_ne hfg rfl) (fun _ _ => id) fun _ => rfl
  | maintenance busy _ hc => exact h.maintenance hc
  | flushBegin ho => exact h.congr rfl (fun _ _ => id) fun h => by rw [ho] at h; cases h
  | flushFile g file ho hg hs hm =>
    refine h.congr rfl (fun data w hr => ?_) fun _ => rfl
    rw [mem_inFlight] at hr ⊢
    exact Multiset.mem_cons_of_mem hr
  | flushWait ho hr => exact h.congr rfl (fun _ _ => id) fun h => by rw [ho] at h; cases h

theorem env (h : Requested f m) (hf : Flights m) (hs : EnvStep cfg m m') : Requested f m' := by
  -- a request that is taken out is not the eviction write
  have keep : ∀ {g r}, (g ≠ f ∨ ∀ data w, r ≠ Request.evict data w) → ∀ data w,
      .evict data w ∈ inFlight m.pending f → .evict data w ∈ inFlight
        (m.pending.erase (g, r)) f := by
    intro g r hne data w hr
    rw [mem_inFlight] at hr ⊢
    refine (Multiset.mem_erase_of_ne fun e => ?_).2 hr
    rcases hne with hne | hne
    · exact hne (Prod.mk.inj e).1.symm
    · exact hne data w (Prod.mk.inj e).2.symm
  have more : ∀ {g r pending} {data : ByteVec} {w : Bool}, Request.evict data w ∈ inFlight pending f →
      .evict data w ∈ inFlight ((g, r) ::ₘ pending) f := by
    intro g r pending data w hr
    rw [mem_inFlight] at hr ⊢
    exact Multiset.mem_cons_of_mem hr
  have hread : ∀ {buffer} data w, Request.read buffer ≠ .evict data w := fun _ _ h => nomatch h
  have hflush : ∀ {d b} data w, Request.flush d b ≠ .evict data w := fun _ _ h => nomatch h
  cases hs with
  | completeRead g buffer hp hst =>
    exact h.congr rfl (fun data w hr => more (keep (.inr hread) data w hr)) fun _ => rfl
  | completeEvict g data hp =>
    by_cases hg : g = f
    · subst hg
      rcases h with ⟨hst, -⟩ | h
      · exact .inl ⟨hst, data, true, by rw [mem_inFlight]; exact Multiset.mem_cons_self ..⟩
      · exact absurd hp (hf.locks.dead g data false h)
    · exact h.congr rfl (fun data w hr => more (keep (.inl hg) data w hr)) fun _ => rfl
  | completeFlush g data hp =>
    exact h.congr rfl (fun data w hr => more (keep (.inr hflush) data w hr)) fun _ => rfl
  | readCb g buffer file data hp hg hd =>
    by_cases hgf : f = g
    · subst hgf
      obtain ⟨-, hr⟩ := (hf.file f).of_read (mem_inFlight.2 hp)
      rcases h with ⟨-, data', w, hr'⟩ | h
      · rw [hr, Multiset.mem_singleton] at hr'
        cases hr'
      · exact .inr h
    · exact h.congr (Flights.state_update_of_ne hgf rfl)
        (keep (.inr hread)) fun _ => rfl
  | evicted g data file hp ho hg hm hs =>
    have hfg : f ≠ g := by
      rintro rfl
      have hst := (h.waiting (by rw [ho]; exact fun h => nomatch h)).1
      rw [CacheState.state, hg, Option.map_some, hs] at hst
      cases hst
    exact h.congr (Flights.state_update_of_ne hfg rfl) (keep (.inl hfg.symm)) fun _ => rfl
  | reloaded g data file owner hp ho ho' hg hm hs =>
    by_cases hgf : f = g
    · subst hgf
      exact .inr ho'
    · obtain ⟨hst, data', w, hr⟩ := h.waiting (by rw [ho]; exact fun h => nomatch h)
      exact .inl ⟨(Flights.state_update_of_ne hgf rfl).trans hst, data', w,
        keep (.inl fun e => hgf e.symm) data' w hr⟩
  | stuck g data owner hp ho ho' =>
    rcases ho with ho | ⟨ho, hg⟩
    · exact absurd hp (hf.locks.dead g data true ho)
    · obtain ⟨k, hk⟩ := hf.locks.file g hg
      rw [ho] at hk
      cases hk
  | flushCb g data file hp hg =>
    refine h.congr ?_ (keep (.inr hflush)) fun _ => rfl
    by_cases hgf : f = g
    · subst hgf
      rw [CacheState.state, CacheState.state, hg]
      simp
    · exact Flights.state_update_of_ne hgf rfl
  | maintenance busy _ hl hc =>
    have h : Requested f { m with loaders := m.loaders - 1 } := h
    exact h.maintenance hc

end Requested

/-- The callback of the eviction returns and leaves the file in the cache, loaded and unmodified. -/
def ReloadsFile (m : CacheState) (f : LongId) : Prop :=
  ∃ m' file, m.evictNodeFileCb f = .finished m' ∧ m'.files f = some file ∧
    file.nodeState = .loaded ∧ file.isModified = false ∧
    m'.currentWriteSize = m.currentWriteSize - file.cacheSize

/-- **A file that is requested during its eviction never becomes usable again**: when its callback
runs, it waits for `file_cache_mutex`, which it owns. -/
theorem evictNodeFileCb_never_reloads {c : CacheChoice} {r : Unit} {k : Unit → TreeM α}
    {m₁ m₂ : CacheState}
    (hrun : (cacheMachine cfg).Run (fun _ _ => True) p (.opened storage) (.call (.getNodeFile f) k) m)
    (hs : m.state f = some .evicting)
    (hget : CacheState.client cfg c (.getNodeFile f) m = some (r, m₁))
    (hrest : (cacheMachine cfg).Run (fun _ _ => True) (k r) m₁ q m₂)
    (hp : (f, .evict data true) ∈ m₂.pending) : ¬ ReloadsFile m₂ f ∧
      (AssertsHold m₂ f → m₂.owner .fileCacheMutex = none →
        ∃ m', m₂.evictNodeFileCb f = .deadlocked m') := by
  have hf : Flights m := (Flights.opened storage).run hrun
  have hstart : Requested f m₁ := by
    obtain ⟨data', w, rest, hr, -⟩ := (hs ▸ hf.file f).of_evicting
    obtain ⟨file, hfile, hev⟩ := Option.map_eq_some_iff.1 hs
    simp only [CacheState.client, hfile] at hget
    split_ifs at hget
    obtain ⟨-, rfl⟩ := Prod.mk.inj (Option.some.inj hget)
    exact .inl ⟨Flights.state_update rfl (by simp), data', w, hr ▸ Multiset.mem_cons_self ..⟩
  obtain ⟨hf₂, h₂⟩ : Flights m₂ ∧ Requested f m₂ := by
    refine hrest.invariant (I := fun m => Flights m ∧ Requested f m)
      ⟨hf.client (.of_client hget), hstart⟩ ?_ ?_
    · rintro m o c r m' ⟨hf, h⟩ - hc
      exact ⟨hf.client (.of_client hc), h.client (.of_client hc)⟩
    · rintro m d m' ⟨hf, h⟩ hd
      exact ⟨hf.env (.of_env hd), h.env hf (.of_env hd)⟩
  have hst := (h₂.waiting fun ho => hf₂.locks.dead f data true ho hp).1
  refine ⟨?_, fun ha ho => ?_⟩
  · rintro ⟨m', file, hm', -⟩
    rcases m₂.evictNodeFileCb_cases f with ⟨x, hx, -, hs, -⟩ | ⟨x, o, -, -, -, -, -, hx⟩ |
      ⟨o, -, -, hx⟩ | hx | hx
    · rw [CacheState.state, hx, Option.map_some, hs] at hst
      cases hst
    all_goals rw [hx] at hm'; cases hm'
  · obtain ⟨file, hfile, hm, -⟩ := ha
    rw [CacheState.state, hfile, Option.map_some, Option.some_inj] at hst
    exact evictNodeFileCb_deadlocks ho (hf₂.fileMutex_free f ho) hfile hm hst

/-- The file that the program asks for next. -/
def asksFile : TreeM Client → Option LongId
  | .call (.getNodeFile f) _ => some f
  | _ => none

theorem of_asksFile {q : TreeM Client} {f : LongId} (h : asksFile q = some f) :
    ∃ k, q = .call (.getNodeFile f) k := by
  cases q with
  | ret a => cases h
  | fail e => cases h
  | call o k =>
    cases o with
    | getNodeFile g =>
      obtain rfl := Option.some.inj h
      exact ⟨k, rfl⟩
    | _ => cases h

/-- Points are added around the corners of a tree with a small cache, the first corner is evicted, and
the next point goes there while the eviction write is in flight. -/
theorem exists_requested_run :
    let cfg := { Config.sample with maxCacheSize := 6 }
    let point (x : ℚ) : Call := .addPoint (fun _ => x) fun _ => 0
    ∃ (p : TreeM Client) (f : LongId) (k : Unit → TreeM Client) (m m₁ m₂ : CacheState)
      (data : ByteVec), p = life cfg true
        [point (-7 / 2), point (-5 / 2), point (7 / 2), point (5 / 2), point (-7 / 2)] ∧
      (cacheMachine cfg).Run (fun _ _ => True) p (.opened fun _ => none) (.call (.getNodeFile f) k) m ∧
      m.state f = some .evicting ∧
      CacheState.client cfg .plain (.getNodeFile f) m = some ((), m₁) ∧
      (cacheMachine cfg).Run (fun _ _ => True) (k ()) m₁ (k ()) m₂ ∧
      (f, .evict data true) ∈ m₂.pending ∧ m₂.owner .fileCacheMutex = none ∧
      ∃ file, m₂.files f = some file ∧ file.isModified = true ∧ file.nodeState = .loading := by
  intro cfg point
  let p := life cfg true
    [point (-7 / 2), point (-5 / 2), point (7 / 2), point (5 / 2), point (-7 / 2)]
  let f : LongId := .ofValue 8
  let A := cacheMachine cfg
  -- the states before and after the request and after the write
  let start := (A.play (List.replicate 376 (.inl .plain)) p (.opened fun _ => none))
  let written (m : CacheState) : Option (ByteVec × CacheState) := (m.files f).bind fun file =>
    (A.env (.complete f (.evict (serialize file.data) false)) m).map fun m' =>
      (serialize file.data, m')
  let final (x : ByteVec × CacheState) : Bool := decide ((f, .evict x.1 true) ∈ x.2.pending) &&
    decide (x.2.owner .fileCacheMutex = none) && (x.2.files f).elim false fun file =>
      file.isModified && decide (file.nodeState = .loading)
  let test (x : TreeM Client × CacheState) : Bool :=
    decide (asksFile x.1 = some f) && decide (x.2.state f = some .evicting) &&
      (CacheState.client cfg .plain (.getNodeFile f) x.2).elim false fun y =>
        (written y.2).elim false final
  have hp : start.elim false test = true := by decide +kernel
  obtain ⟨⟨q, m⟩, hstart, htest⟩ := elim_eq_true hp
  simp only [test, Bool.and_eq_true, decide_eq_true_eq] at htest
  obtain ⟨⟨hasks, hs⟩, htest⟩ := htest
  obtain ⟨k, rfl⟩ := of_asksFile hasks
  obtain ⟨⟨r, m₁⟩, hget, htest⟩ := elim_eq_true htest
  obtain ⟨⟨data, m₂⟩, hwritten, htest⟩ := elim_eq_true htest
  obtain ⟨file, -, hwritten⟩ := Option.bind_eq_some_iff.1 hwritten
  obtain ⟨m₃, henv, he⟩ := Option.map_eq_some_iff.1 hwritten
  obtain ⟨rfl, rfl⟩ := Prod.mk.inj he
  simp only [final, Bool.and_eq_true, decide_eq_true_eq] at htest
  obtain ⟨⟨hmem, ho⟩, htest⟩ := htest
  obtain ⟨x, hx, htest⟩ := elim_eq_true htest
  rw [Bool.and_eq_true, decide_eq_true_eq] at htest
  exact ⟨p, f, k, m, m₁, m₃, _, rfl, .of_play hstart, hs, hget, .env _ henv (.refl _ _), hmem, ho,
    x, hx, htest.1, htest.2⟩

/-- The new point waits for the first corner, whose callback waits for itself. -/
theorem evictNodeFileCb_never_reloads_corner : ∃ m f, ¬ ReloadsFile m f ∧
    (AssertsHold m f → m.owner .fileCacheMutex = none → ∃ m', m.evictNodeFileCb f = .deadlocked m') := by
  obtain ⟨p, f, k, m, m₁, m₂, data, -, hrun, hs, hget, hrest, hp, -⟩ := exists_requested_run
  exact ⟨m₂, f, evictNodeFileCb_never_reloads hrun hs hget hrest hp⟩

/-- A run of a client in which the callback of an eviction waits for itself. -/
theorem evictNodeFileCb_deadlock_reached :
    let cfg := { Config.sample with maxCacheSize := 6 }
    let point (x : ℚ) : Call := .addPoint (fun _ => x) fun _ => 0
    ∃ q m f data m', (cacheMachine cfg).Run (fun _ _ => True)
      (life cfg true [point (-7 / 2), point (-5 / 2), point (7 / 2), point (5 / 2), point (-7 / 2)])
      (.opened fun _ => none) q m ∧ (f, .evict data true) ∈ m.pending ∧
      m.evictNodeFileCb f = .deadlocked m' ∧ ¬ ReloadsFile m f := by
  intro cfg point
  obtain ⟨p, f, k, m, m₁, m₂, data, rfl, hrun, hs, hget, hrest, hp, ho, file, hf, hm, hl⟩ :=
    exists_requested_run
  have hwhole := hrun.trans (.client .plain trivial hget hrest)
  have hlock := ((Flights.opened _).run hwhole).fileMutex_free f ho
  obtain ⟨m', hm'⟩ := evictNodeFileCb_deadlocks ho hlock hf hm hl
  refine ⟨_, m₂, f, data, m', hwhole, hp, hm', ?_⟩
  rintro ⟨m₃, x, h, -⟩
  rw [hm'] at h
  cases h

end MegaTree
