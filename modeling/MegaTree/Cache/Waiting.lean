import MegaTree.Cache.DiskStorage
import MegaTree.Cache.EvictCallback
import MegaTree.Cache.Reopen

/-!
# The wait for a file ends

`waitUntilLoaded` waits until a callback has set the file to `LOADED`.  Meanwhile the threads of the
storage answer the requests that are in flight, and `readNodeFileCb` may start evictions, which are
new requests.

* `CacheState.resident` : the files that can still be evicted.  Each of them stands for the steps
  that its eviction will take, so that `DiskCache.toRest` goes down with every step.
* `Waiting` : the invariant while the client waits.
* `waitUntilLoaded_returns` : the threads come to rest, and then the client goes on or
  `cacheMaintenance` has aborted.
-/

namespace MegaTree

open Effect

variable {cfg : Config} {m m' : CacheState} {σ : Store} {f g : LongId} {r : Request} {N : ℕ}
  {x y : DiskCache N}

/-! ### Files that can be evicted -/

namespace CacheState

/-- Is the file in memory, and not being evicted? -/
def isResident (m : CacheState) (f : LongId) : Bool :=
  decide (m.state f = some .loading) || decide (m.state f = some .loaded)

/-- How many evictions can begin before a file is requested again. -/
def resident (m : CacheState) : ℕ := m.order.countP m.isResident

theorem isResident_eq (h : m'.state f = m.state f) : m'.isResident f = m.isResident f := by
  rw [isResident, isResident, h]

theorem resident_le (ho : m'.order.Sublist m.order)
    (hf : ∀ f, m'.isResident f = true → m.isResident f = true) : m'.resident ≤ m.resident :=
  ho.countP_le.trans (List.countP_mono_left fun f _ => hf f)

/-- A file with an object of another state. -/
theorem isResident_of_update {file' : Option NodeFile}
    (hm : m'.files = Function.update m.files f file')
    (hf : ∀ file, file' = some file → file.nodeState ≠ .evicting → m.isResident f = true)
    (h : m'.isResident g = true) : m.isResident g = true := by
  by_cases hg : g = f
  · subst hg
    rw [isResident, state, hm, Function.update_self] at h
    cases hfile : file' with
    | none =>
      rw [hfile] at h
      simp at h
    | some file =>
      refine hf file hfile fun hev => ?_
      rw [hfile, Option.map_some, hev] at h
      simp at h
  · rwa [isResident_eq (Flights.state_update_of_ne hg hm)] at h

/-- Every eviction takes a file away from those that can be evicted. -/
theorem resident_maintenance {busy : LongId → Bool} (hl : Listed m)
    (hc : m.cacheMaintenance cfg busy = some m') : m'.resident + m'.pending.card ≤
      m.resident + m.pending.card := by
  let P (x : CacheState) : Prop :=
    Listed x ∧ x.resident + x.pending.card ≤ m.resident + m.pending.card
  refine (cacheMaintenance_induct (P := P) ?_ ?_ hc ⟨hl, le_rfl⟩).2
  · rintro x f file ⟨hx, hle⟩ hf hs - -
    refine ⟨hx.drop rfl rfl, le_trans (Nat.add_le_add_right ?_ _) hle⟩
    exact resident_le List.erase_sublist fun g => isResident_of_update rfl fun file h => by cases h
  · rintro x f file ⟨hx, hle⟩ hf hs - -
    refine ⟨hx.put hf rfl rfl, ?_⟩
    have hmem : f ∈ x.order := hx f (by rw [hf]; rfl)
    have hres : x.isResident f = true := by simp [isResident, state, hf, hs]
    have hgone : (x.startEvict f file).isResident f = false := by
      simp [isResident, state, startEvict]
    have hperm := List.perm_cons_erase hmem
    have hbefore : x.resident = (x.order.erase f).countP x.isResident + 1 := by
      rw [resident, hperm.countP_eq, List.countP_cons_of_pos hres]
    have hafter : (x.startEvict f file).resident =
        (x.order.erase f).countP (x.startEvict f file).isResident := by
      rw [resident, show (x.startEvict f file).order = x.order from rfl, hperm.countP_eq,
        List.countP_cons_of_neg (by rw [hgone]; simp)]
    have hmono : (x.order.erase f).countP (x.startEvict f file).isResident ≤
        (x.order.erase f).countP x.isResident :=
      List.countP_mono_left fun g _ => isResident_of_update rfl fun _ _ _ => hres
    have hcard : (x.startEvict f file).pending.card = x.pending.card + 1 := Multiset.card_cons _ _
    omega

/-- The requests that `cacheMaintenance` makes. -/
theorem pending_maintenance {busy : LongId → Bool} (hc : m.cacheMaintenance cfg busy = some m') :
    ∃ asked : List StorageCall, m'.pending = ↑asked + m.pending := by
  refine cacheMaintenance_induct (P := fun x => ∃ asked : List StorageCall,
    x.pending = ↑asked + m.pending) (fun _ _ _ h _ _ _ _ => h) ?_ hc ⟨[], (zero_add _).symm⟩
  rintro x f file ⟨asked, hp⟩ - - - -
  refine ⟨(f, .evict (serialize file.data) false) :: asked, ?_⟩
  rw [show (x.startEvict f file).pending = (f, .evict (serialize file.data) false) ::ₘ x.pending
    from rfl, hp, ← Multiset.cons_coe, Multiset.cons_add]

end CacheState

/-- An object is marked as modified or as clean. -/
theorem state_of_marked {file : NodeFile} {b : Bool} (hf : m.files f = some file)
    (hm : m'.files = Function.update m.files f (some { file with isModified := b })) (g : LongId) :
    m'.state g = m.state g := by
  by_cases hg : g = f
  · subst hg
    rw [Flights.state_update hm rfl, CacheState.state, hf]
    rfl
  · exact Flights.state_update_of_ne hg hm

/-- The callbacks bring no file back that could be evicted. -/
theorem EnvStep.resident_le (hs : EnvStep cfg m m') (hl : Listed m) (hf : Flights m) :
    m'.resident ≤ m.resident := by
  have hput : ∀ {m' : CacheState} {g file file'}, m.files g = some file →
      m'.files = Function.update m.files g (some file') → m'.order = m.order →
      (file'.nodeState ≠ .evicting → m.isResident g = true) → m'.resident ≤ m.resident :=
    fun _ hm ho hres => CacheState.resident_le (ho ▸ List.Sublist.refl _) fun h =>
      CacheState.isResident_of_update hm fun file heq => by
        obtain rfl := Option.some.inj heq
        exact hres
  cases hs with
  | readCb f buffer file data hp hfile hd =>
    refine hput hfile rfl rfl fun _ => ?_
    simp [CacheState.isResident, ((hf.file f).of_read (mem_inFlight.2 hp)).1]
  | evicted f data file hp ho hfile hm hs =>
    exact CacheState.resident_le List.erase_sublist fun g =>
      CacheState.isResident_of_update rfl fun file h => by cases h
  | reloaded f data file owner hp ho ho' hfile hm hs =>
    refine hput hfile rfl rfl fun _ => ?_
    simp [CacheState.isResident, CacheState.state, hfile, hs]
  | flushCb f data file hp hfile =>
    refine CacheState.resident_le (List.Sublist.refl _) fun g h => ?_
    rwa [CacheState.isResident_eq (state_of_marked hfile rfl g)] at h
  | maintenance busy _ hl' hc =>
    have hle := CacheState.resident_maintenance (m := { m with loaders := m.loaders - 1 }) hl hc
    obtain ⟨asked, hp⟩ := CacheState.pending_maintenance hc
    rw [hp, Multiset.card_add] at hle
    have hsame : CacheState.resident { m with loaders := m.loaders - 1 } = m.resident := rfl
    omega
  | _ => exact le_rfl

/-- The callback of an eviction that nobody has interfered with. -/
theorem evictNodeFileCb_finishes {file : NodeFile} (ho : m.owner .fileCacheMutex = none)
    (hl : m.owner (.fileMutex f) = none) (hf : m.files f = some file) (hm : file.isModified = true)
    (hs : file.nodeState = .evicting) : ∃ m', m.evictNodeFileCb f = .finished m' := by
  have hne : Lock.fileMutex f ≠ .fileCacheMutex := fun h => by cases h
  unfold CacheState.evictNodeFileCb CacheState.lock
  simp only [ho, hl, Function.update_of_ne hne, hf, hm, hs, if_true]
  exact ⟨_, rfl⟩

/-! ### Files that are requested again -/

/-- A step that begins no wait for a file during its eviction. -/
theorem not_requested_of (h : ∀ f, ¬ Requested f m) (ho : m'.owner = m.owner)
    (hs : ∀ g, m'.state g = some .loading → m.state g = some .loading)
    (hp : ∀ g data w, m'.state g = some .loading → (g, .evict data w) ∈ m'.pending →
      ∃ data' w', (g, .evict data' w') ∈ m.pending) (f : LongId) : ¬ Requested f m' := by
  rintro (⟨hst, data, w, hr⟩ | hown)
  · obtain ⟨data', w', hmem⟩ := hp f data w hst (mem_inFlight.1 hr)
    exact h f (.inl ⟨hs f hst, data', w', mem_inFlight.2 hmem⟩)
  · exact h f (.inr (ho ▸ hown))

theorem loading_of_update {x : Option NodeFile} (hm : m'.files = Function.update m.files f x)
    (hx : x.map NodeFile.nodeState ≠ some .loading) (h : m'.state g = some .loading) :
    g ≠ f ∧ m.state g = some .loading := by
  have hg : g ≠ f := by
    rintro rfl
    exact hx ((Flights.state_update hm rfl).symm.trans h)
  exact ⟨hg, (Flights.state_update_of_ne hg hm).symm.trans h⟩

theorem not_requested_maintenance {busy : LongId → Bool} (h : ∀ f, ¬ Requested f m)
    (hc : m.cacheMaintenance cfg busy = some m') : ∀ f, ¬ Requested f m' := by
  refine CacheState.cacheMaintenance_induct (P := fun x => ∀ f, ¬ Requested f x) ?_ ?_ hc h
  · intro x f file hx hf _ _ _
    exact not_requested_of hx rfl
      (fun g hst => (loading_of_update (x := none) rfl (fun h => by cases h) hst).2)
      fun g data w _ hp => ⟨data, w, hp⟩
  · intro x f file hx hf _ _ _
    have hnot : ∀ g, (x.startEvict f file).state g = some .loading →
        g ≠ f ∧ x.state g = some .loading :=
      fun g hst => loading_of_update rfl (fun h => by cases h) hst
    refine not_requested_of hx rfl (fun g hst => (hnot g hst).2) fun g data w hst hp => ⟨data, w, ?_⟩
    rcases Multiset.mem_cons.1 hp with heq | hp
    · exact absurd (congrArg Prod.fst heq) (hnot g hst).1
    · exact hp

theorem not_requested_env (h : ∀ f, ¬ Requested f m) (hf : Flights m) (hs : EnvStep cfg m m') :
    ∀ f, ¬ Requested f m' := by
  have herase : ∀ {q : StorageCall} g data w, (g, .evict data w) ∈ m.pending.erase q →
      ∃ data' w', (g, .evict data' w') ∈ m.pending := fun g data w hmem =>
    ⟨data, w, Multiset.mem_of_mem_erase hmem⟩
  cases hs with
  | completeRead f buffer hp hst =>
    refine not_requested_of h rfl (fun _ => id) fun g data w _ hmem => ?_
    rcases Multiset.mem_cons.1 hmem with heq | hmem
    · cases heq
    · exact herase g data w hmem
  | completeEvict f data hp =>
    refine not_requested_of h rfl (fun _ => id) fun g data' w _ hmem => ?_
    rcases Multiset.mem_cons.1 hmem with heq | hmem
    · cases heq
      exact ⟨data, false, hp⟩
    · exact herase g data' w hmem
  | completeFlush f data hp =>
    refine not_requested_of h rfl (fun _ => id) fun g data' w _ hmem => ?_
    rcases Multiset.mem_cons.1 hmem with heq | hmem
    · cases heq
    · exact herase g data' w hmem
  | readCb f buffer file data hp hfile hd =>
    exact not_requested_of h rfl
      (fun g hst => (loading_of_update rfl (fun h => by cases h) hst).2)
      fun g data' w _ => herase g data' w
  | evicted f data file hp ho hfile hm hst =>
    exact not_requested_of h rfl
      (fun g hst => (loading_of_update (x := none) rfl (fun h => by cases h) hst).2)
      fun g data' w _ => herase g data' w
  | reloaded f data file owner hp ho ho' hfile hm hst =>
    refine absurd (.inl ⟨?_, data, true, mem_inFlight.2 hp⟩) (h f)
    rw [CacheState.state, hfile, Option.map_some, hst]
  | stuck f data owner hp ho ho' =>
    rcases ho with ho | ⟨ho, hne⟩
    · exact absurd (.inr ho) (h f)
    · exact absurd (hf.fileMutex_free f ho) hne
  | flushCb f data file hp hfile =>
    exact not_requested_of h rfl (fun g hst => (state_of_marked hfile rfl g).symm.trans hst)
      fun g data' w _ => herase g data' w
  | maintenance busy _ hl hc =>
    have h' : ∀ f, ¬ Requested f { m with loaders := m.loaders - 1 } := h
    exact not_requested_maintenance h' hc

/-! ### The calls of `cacheMaintenance` that are due -/

theorem CacheState.loaders_maintenance {busy : LongId → Bool}
    (hc : m.cacheMaintenance cfg busy = some m') : m'.loaders = m.loaders :=
  CacheState.cacheMaintenance_induct (P := fun x => x.loaders = m.loaders)
    (fun _ _ _ h _ _ _ _ => h) (fun _ _ _ h _ _ _ _ => h) hc rfl

theorem CacheState.loaders_client {c : CacheChoice} {o : CacheOp} {a : o.Res}
    (h : CacheState.client cfg c o m = some (a, m')) : m'.loaders = m.loaders := by
  cases o with
  | cacheMaintenance =>
    obtain ⟨m₁, hm, he⟩ := Option.map_eq_some_iff.1 h
    obtain ⟨-, rfl⟩ := Prod.mk.inj he
    exact CacheState.loaders_maintenance hm
  | _ => grind [CacheState.client, CacheState.setFile, CacheState.unlock, Option.bind_eq_some_iff,
      Option.map_eq_some_iff]

theorem CacheState.loaders_complete (h : m.env cfg (.complete f r) = some m') :
    m'.loaders = m.loaders := by
  simp only [CacheState.env] at h
  split_ifs at h
  rcases r with (_ | b) | ⟨data, _ | _⟩ | ⟨data, _ | _⟩ <;> simp only at h
  · obtain ⟨b, -, rfl⟩ := Option.map_eq_some_iff.1 h
    rfl
  all_goals cases h
  all_goals rfl

/-- One for a thread that has yet to call `cacheMaintenance`. -/
def CallStage.loader : CallStage → ℕ
  | .maintenance => 1
  | .idle | .request _ _ | .returned | .stuck => 0

theorem CacheState.loaders_callback (h : m.env cfg (.callback f r) = some m') :
    m'.loaders = m.loaders + (DiskCache.afterCallback f m' r).loader := by
  simp only [CacheState.env] at h
  split_ifs at h
  rcases r with (_ | b) | ⟨data, _ | _⟩ | ⟨data, _ | _⟩ <;> simp only at h
  · cases h
  · simp only [CacheState.readNodeFileCb] at h
    split_ifs at h
    obtain ⟨file, -, h⟩ := Option.bind_eq_some_iff.1 h
    obtain ⟨d, -, rfl⟩ := Option.map_eq_some_iff.1 h
    rfl
  · cases h
  · have hzero : (DiskCache.afterCallback f m' (.evict data true)).loader = 0 := by
      rw [DiskCache.afterCallback]
      split_ifs <;> rfl
    rw [hzero]
    rcases CacheState.evictNodeFileCb_cases { m with pending := m.pending.erase (f, .evict data true) }
      f with ⟨file, -, -, -, -, he⟩ | ⟨file, owner, -, -, -, -, -, he⟩ | ⟨owner, -, -, he⟩ | he | he <;>
      rw [he] at h <;> cases h <;> rfl
  · cases h
  · simp only [CacheState.flushNodeFileCb] at h
    split_ifs at h
    obtain ⟨file, -, rfl⟩ := Option.map_eq_some_iff.1 h
    rfl

namespace DiskCache

/-- The calls of `cacheMaintenance` that are due are those of the threads. -/
def Loaders (x : DiskCache N) : Prop := x.cache.loaders = ∑ i, (x.stage i).loader

theorem loaders_restage {caller : FunctionCaller N StorageCall} {i : Fin N} {z : CallStage}
    (h : Loaders x) (hm : m.loaders + (x.stage i).loader = x.cache.loaders + z.loader) :
    Loaders ⟨m, caller, Function.update x.stage i z⟩ := by
  have hsum := sum_update CallStage.loader x.stage i z
  rw [Loaders] at h ⊢
  simp only
  omega

theorem Loaders.moved {e : DiskEvent N} (h : Loaders x) (hx : Books x) (hs : Moved cfg x e y) :
    Loaders y := by
  cases hs with
  | take i caller f r ht hi =>
    refine loaders_restage h ?_
    have hidle : x.stage i = .idle := hx.idle i fun q hq => by
      cases ht with
      | leave _ hloop | rest _ hloop | take _ _ _ hloop => rw [hloop] at hq; cases hq
    rw [hidle]
    rfl
  | complete i f r m hi hm =>
    refine loaders_restage h ?_
    rw [CacheState.loaders_complete hm, hi]
    rfl
  | callback i f r m hi hm =>
    refine loaders_restage h ?_
    rw [CacheState.loaders_callback hm, hi]
    rfl
  | maintenance i busy asks m caller hi hm =>
    refine loaders_restage h ?_
    simp only [CacheState.env] at hm
    split_ifs at hm with hl
    rw [CacheState.loaders_maintenance hm, hi]
    simp only [CallStage.loader]
    omega
  | finish i caller hi =>
    refine loaders_restage h ?_
    rw [hi]
    rfl
  | idle | spurious => exact h

theorem Loaders.client {c : CacheChoice × Asks N} {o : CacheOp} {a : o.Res} (h : Loaders x)
    (hc : DiskCache.client cfg c o x = some (a, y)) : Loaders y := by
  obtain ⟨hm, -, hstage, -⟩ := client_cases hc
  rw [Loaders, CacheState.loaders_client hm, hstage]
  exact h

/-! ### While the client waits -/

/-- How many steps the threads can take before they rest. -/
def toRest (x : DiskCache N) : ℕ := x.work + 13 * x.cache.resident

theorem toRest_le (x : DiskCache N) :
    x.toRest ≤ 8 * (x.caller.queue.length + N) + 3 * N + 13 * x.cache.order.length := by
  have hwork := x.work_le
  have hres : x.cache.resident ≤ x.cache.order.length := List.countP_le_length
  rw [toRest]
  omega

/-- A request is work for the pool, and a thread wakes up for it. -/
theorem ask_work {asks : Asks N} {s s' : FunctionCaller N StorageCall} (h : ask asks s = some s') :
    s'.work ≤ s.work + 3 * asks.length := by
  induction asks generalizing s with
  | nil =>
    obtain rfl := Option.some.inj h
    exact Nat.le_add_right _ _
  | cons a asks ih =>
    obtain ⟨s₁, h₁, h⟩ := Option.bind_eq_some_iff.1 h
    have ht : FunctionCaller.Took s (.addFunction a.1 a.2) s₁ := FunctionCaller.took_of_step h₁
    have hadd : FunctionCaller.work { s with queue := a.1 :: s.queue, added := s.added ++ [a.1] } =
        s.work + 2 := by
      rw [FunctionCaller.work, FunctionCaller.work, List.length_cons]
      simp only
      omega
    have hle : s₁.work ≤ s.work + 3 := by
      generalize a.2 = w at ht
      cases ht with
      | addBusy _ hbusy => omega
      | addWake _ i hi =>
        have hwake := FunctionCaller.work_setThread i .looping
          { s with queue := a.1 :: s.queue, added := s.added ++ [a.1] }
        rw [hi, PoolThread.work, PoolThread.work] at hwake
        omega
    have := ih h
    rw [List.length_cons]
    omega

/-- Some thread can be notified of each request, if one waits. -/
theorem exists_ask (qs : List StorageCall) (s : FunctionCaller N StorageCall) :
    ∃ asks s', asks.map Prod.fst = qs ∧ ask asks s = some s' := by
  induction qs generalizing s with
  | nil => exact ⟨[], s, rfl, rfl⟩
  | cons q qs ih =>
    obtain ⟨w, s₁, h₁⟩ : ∃ w s₁, s.addFunction q w = some s₁ := by
      by_cases hw : ∃ i, (s.threads i).isWaiting = true
      · obtain ⟨i, hi⟩ := hw
        exact ⟨some i, _, if_pos hi⟩
      · exact ⟨none, _, if_neg hw⟩
    obtain ⟨asks, s', hmap, hask⟩ := ih s₁
    refine ⟨(q, w) :: asks, s', by rw [List.map_cons, hmap], ?_⟩
    exact Option.bind_eq_some_iff.2 ⟨s₁, h₁, hask⟩

/-- The state while the client waits for a file, when no file was requested again during its
eviction. -/
structure Waiting (x : DiskCache N) (σ : Store) : Prop where
  books : Books x
  loaders : Loaders x
  sim : Sim Eq x.cache σ
  idle : σ.flushing = false
  listed : Listed x.cache
  modified : EvictsModified x.cache
  fresh : ∀ f, ¬ Requested f x.cache

namespace Waiting

/-- Nobody has `file_cache_mutex`. -/
theorem free (h : Waiting x σ) : x.cache.owner .fileCacheMutex = none := by
  cases ho : x.cache.owner .fileCacheMutex with
  | none => rfl
  | some t =>
    cases t with
    | client =>
      have hfl := h.sim.flushing.2 ho
      rw [h.idle] at hfl
      cases hfl
    | evictNodeFileCb f => exact absurd (.inr ho) (h.fresh f)

theorem moved {e : DiskEvent N} (h : Waiting x σ) (hs : Moved cfg x e y) : Waiting y σ := by
  have hbooks := h.books.moved hs
  have hloaders := h.loaders.moved h.books hs
  have henv : ∀ {e m}, x.cache.env cfg e = some m → m = y.cache → Waiting y σ := by
    rintro e m hm rfl
    have hstep := EnvStep.of_env hm
    exact ⟨hbooks, hloaders, h.sim.env similarity_eq hstep, h.idle, h.listed.env hstep,
      h.modified.env h.books.flights hstep, not_requested_env h.fresh h.books.flights hstep⟩
  cases hs with
  | idle | take | finish | spurious =>
    exact ⟨hbooks, hloaders, h.sim, h.idle, h.listed, h.modified, h.fresh⟩
  | complete i f r m hi hm => exact henv hm rfl
  | callback i f r m hi hm => exact henv hm rfl
  | maintenance i busy asks m caller hi hm => exact henv hm rfl

/-- Every step of the threads is one less to take. -/
theorem toRest_lt {e : DiskEvent N} (h : Waiting x σ) (hs : Moved cfg x e y) (he : e.own) :
    y.toRest < x.toRest := by
  have hwork : (∀ i busy asks, e ≠ .maintenance i busy asks) → y.work < x.work := hs.work_lt he
  have hother : (∀ i busy asks, e ≠ .maintenance i busy asks) →
      y.cache.resident ≤ x.cache.resident → y.toRest < x.toRest := by
    intro hno hres
    have hlt := hwork hno
    rw [toRest, toRest]
    omega
  cases hs with
  | idle | take | finish => exact hother (fun _ _ _ h => by cases h) le_rfl
  | complete i f r m hi hm =>
    exact hother (fun _ _ _ h => by cases h)
      ((EnvStep.of_env hm).resident_le h.listed h.books.flights)
  | callback i f r m hi hm =>
    exact hother (fun _ _ _ h => by cases h)
      ((EnvStep.of_env hm).resident_le h.listed h.books.flights)
  | spurious => exact he.elim
  | maintenance i busy asks m caller hi hm ha hp =>
    -- the evictions that begin take away what stands for their steps
    simp only [CacheState.env] at hm
    split_ifs at hm
    have hres : m.resident + m.pending.card ≤ x.cache.resident + x.cache.pending.card :=
      CacheState.resident_maintenance (m := { x.cache with loaders := x.cache.loaders - 1 })
        h.listed hm
    have hcard : m.pending.card = asks.length + x.cache.pending.card := by
      rw [hp, Multiset.card_add, Multiset.coe_card, List.length_map]
    have hask := ask_work ha
    have hsum := sum_update CallStage.work x.stage i .returned
    rw [hi, CallStage.work, CallStage.work] at hsum
    rw [toRest, toRest, work, work]
    simp only
    omega

/-- What is known of the request of a thread. -/
theorem request (h : Waiting x σ) {i : Fin N} (hi : x.stage i = .request f r) :
    (f, r) ∈ x.cache.pending ∧ ∃ d, σ.files f = some d ∧
      Phase Eq σ.flushing d (σ.uses f) (x.cache.view f) := by
  have hp : (f, r) ∈ x.cache.pending := h.books.mem_pending (by
    rw [hi]
    exact Multiset.mem_singleton_self _)
  exact ⟨hp, h.sim.exists_request hp⟩

/-- A thread with a request can go on. -/
theorem exists_step (cfg : Config) (h : Waiting x σ) {i : Fin N} (hi : x.stage i = .request f r) :
    (x.cache.env cfg (.complete f r)).isSome ∨ (x.cache.env cfg (.callback f r)).isSome := by
  obtain ⟨hp, d, hd, hph⟩ := h.request hi
  rcases r with (_ | b) | ⟨data, _ | _⟩ | ⟨data, w⟩
  · obtain ⟨-, d', -, -, -, -, -, -, -, hs⟩ := hph.of_read (mem_inFlight.2 hp)
    left
    simp only [CacheState.env, if_pos hp, show x.cache.storage f = some (serialize d') from hs,
      Option.map_some, Option.isSome_some]
  · obtain ⟨old, d', modified, rfl, hf, -, -, hcover, hb, -⟩ := hph.of_read (mem_inFlight.2 hp)
    right
    have hdata : deserialize b old.nodeCache = some d := by
      rw [hb b rfl]
      exact deserialize_serialize_of_covered hcover
    simp only [CacheState.env, if_pos hp, CacheState.readNodeFileCb,
      h.books.flights.fileMutex_free f h.free, if_true, show x.cache.files f = some _ from hf,
      Option.bind_some, hdata, Option.map_some, Option.isSome_some]
  · left
    simp only [CacheState.env, if_pos hp, Option.isSome_some]
  · obtain ⟨⟨file, hf, hm⟩, -⟩ := h.modified f data true (mem_inFlight.2 hp)
    have hst : file.nodeState = .evicting := by
      have hst := ((h.books.flights.file f).of_evict (mem_inFlight.2 hp)).1
      rw [CacheState.state, hf, Option.map_some, Option.some_inj, Option.some_inj] at hst
      refine hst.resolve_right fun hload =>
        absurd (.inl ⟨?_, data, true, mem_inFlight.2 hp⟩) (h.fresh f)
      rw [CacheState.state, hf, Option.map_some, hload]
    right
    obtain ⟨m, he⟩ := evictNodeFileCb_finishes
      (m := { x.cache with pending := x.cache.pending.erase (f, .evict data true) }) h.free
      (h.books.flights.fileMutex_free f h.free) hf hm hst
    simp only [CacheState.env, if_pos hp, he, Option.isSome_some]
  · have hnone := h.books.flights.idle (by rw [h.free]; exact fun h => by cases h)
    have hflush := flushes_eq_zero.1 hnone f _ (mem_inFlight.2 hp)
    cases hflush

/-- When no thread can go on, the client can, or `cacheMaintenance` cannot evict enough. -/
theorem rest (h : Waiting x σ) (hrest : AtRest cfg x) (hN : 0 < N) (hu : 0 < (σ.uses f).users) :
    (∃ file, x.cache.files f = some file ∧ file.nodeState = .loaded) ∨
      0 < x.cache.loaders ∧ ∀ busy, x.cache.env cfg (.maintenance busy) = none := by
  by_cases hmain : ∃ i, x.stage i = .maintenance
  · right
    obtain ⟨i, hi⟩ := hmain
    refine ⟨?_, fun busy => ?_⟩
    · rw [h.loaders]
      exact Finset.sum_pos' (fun _ _ => Nat.zero_le _) ⟨i, Finset.mem_univ i, by
        rw [hi]
        exact Nat.one_pos⟩
    · by_contra hne
      obtain ⟨m, hm⟩ := Option.ne_none_iff_exists'.1 hne
      obtain ⟨asked, hp⟩ : ∃ asked : List StorageCall, m.pending = ↑asked + x.cache.pending := by
        simp only [CacheState.env] at hm
        split_ifs at hm
        exact CacheState.pending_maintenance
          (m := { x.cache with loaders := x.cache.loaders - 1 }) hm
      obtain ⟨asks, caller, hasks, hask⟩ := exists_ask asked x.caller
      have hstep := hrest (.maintenance i busy asks) trivial
      rw [env, hi] at hstep
      simp only [hm, hask, Option.bind_eq_bind, Option.bind_some, hasks, if_pos hp,
        reduceCtorEq] at hstep
  · left
    have hidle : ∀ i, x.stage i = .idle := by
      intro i
      cases hi : x.stage i with
      | idle => rfl
      | request g r =>
        rcases h.exists_step cfg hi with hsome | hsome
        all_goals
          obtain ⟨m, hm⟩ := Option.isSome_iff_exists.1 hsome
        · have hstep := hrest (.complete i) trivial
          rw [env, hi] at hstep
          simp only [hm, Option.map_some, reduceCtorEq] at hstep
        · have hstep := hrest (.callback i) trivial
          rw [env, hi] at hstep
          simp only [hm, Option.map_some, reduceCtorEq] at hstep
      | maintenance => exact absurd ⟨i, hi⟩ hmain
      | returned =>
        by_cases hcall : ∃ q, x.caller.threads i = .calling q
        · obtain ⟨q, hq⟩ := hcall
          exact absurd hi (hrest.not_returned hq)
        · rw [h.books.idle i fun q hq => hcall ⟨q, hq⟩] at hi
          cases hi
      | stuck =>
        obtain ⟨g, hg⟩ := h.books.stuck i hi
        exact absurd (.inr hg) (h.fresh g)
    have hwait : ∀ i, x.caller.threads i = .waiting := by
      intro i
      cases hi : x.caller.threads i with
      | looping => exact absurd hi (hrest.not_looping i)
      | waiting => rfl
      | calling q => exact absurd (hidle i) (h.books.busy i q hi)
      | ended =>
        have hrun := h.books.good.ended i hi
        rw [h.books.running] at hrun
        cases hrun
    have hqueue : x.caller.queue = [] := by
      obtain ⟨-, hlen⟩ := h.books.good.waits ⟨0, hN⟩ (hwait _)
      rw [FunctionCaller.awake, Finset.sum_eq_zero fun j _ => by rw [hwait j]; rfl] at hlen
      exact List.length_eq_zero_iff.1 (Nat.le_zero.1 hlen)
    have hpending : x.cache.pending = 0 := by
      rw [h.books.pending, hqueue, Finset.sum_eq_zero fun j _ => by rw [hidle j]; rfl]
      rfl
    have hnone : inFlight x.cache.pending f = 0 := by
      rw [hpending]
      rfl
    cases hd : σ.files f with
    | none =>
      obtain ⟨-, -, hzero, -⟩ := (h.sim.file f).missing hd
      rw [show (σ.uses f).users = 0 from hzero] at hu
      cases hu
    | some d =>
      cases (h.sim.file f).phase d hd with
      | absent _ _ hzero _ =>
        rw [show (σ.uses f).users = 0 from hzero] at hu
        cases hu
      | reading _ _ _ _ _ _ hr =>
        rw [show inFlight x.cache.pending f = _ from hr] at hnone
        exact absurd hnone (Multiset.singleton_ne_zero _)
      | loaded d' modified _ hf => exact ⟨_, hf, rfl⟩
      | evicting _ _ _ _ _ _ _ _ _ hr =>
        rw [show inFlight x.cache.pending f = _ from hr] at hnone
        exact absurd hnone (Multiset.cons_ne_zero)

end Waiting

end DiskCache

/-- The file that the program waits for. -/
def waitsFor : TreeM Unit → Option LongId
  | .call (.waitUntilLoaded f) _ => some f
  | _ => none

theorem of_waitsFor {q : TreeM Unit} {f : LongId} (h : waitsFor q = some f) :
    ∃ k, q = .call (.waitUntilLoaded f) k := by
  cases q with
  | ret a => cases h
  | fail e => cases h
  | call o k =>
    cases o with
    | waitUntilLoaded g =>
      obtain rfl := Option.some.inj h
      exact ⟨k, rfl⟩
    | _ => cases h

/-- The check that `flushCache` meets no file that is being evicted. -/
def CacheState.skipsEvicting (m : CacheState) : CacheOp → Bool
  | .flushFile f => decide (m.state f ≠ some .evicting)
  | _ => true

theorem skipsEvicting_of_check {o : CacheOp} (h : m.skipsEvicting o = true) : SkipsEvicting m o := by
  cases o with
  | flushFile f =>
    have hne : m.state f ≠ some .evicting := of_decide_eq_true h
    exact hne
  | _ => trivial

/-- Without evictions in flight no file is waited for during its eviction. -/
theorem not_requested_of_isEvict (ho : m.owner .fileCacheMutex = none)
    (hp : ∀ q ∈ m.pending, q.2.isEvict = false) (f : LongId) : ¬ Requested f m := by
  rintro (⟨-, data, w, hr⟩ | hown)
  · cases hp _ (mem_inFlight.1 hr)
  · rw [ho] at hown
    cases hown

end MegaTree
