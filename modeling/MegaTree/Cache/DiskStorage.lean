import MegaTree.Cache.Durable
import MegaTree.Core.FunctionCaller

/-!
# The file cache over a disk storage

`DiskStorage` answers the requests of the cache with the threads of a `FunctionCaller`: each request
is a function in its queue, and the thread that calls it reads or writes the file and then runs the
callback to its end.  A thread in a callback that waits for a mutex does nothing else meanwhile.

* `diskMachine` : the cache of `cacheMachine`, whose requests wait in the queue of `N` threads.
* `diskMachine_refines` : it is a refinement of `cacheMachine`, so that what holds of that in every
  run holds here.
* `flushCache_returns_iff` : `flushCache`, which waits with `file_cache_mutex` held, is answered if
  and only if fewer callbacks that need this mutex are under way than there are threads.
-/

namespace MegaTree

open Effect

/-- `readerFunction` or `writerFunction`, with the path and the callback that are bound to it. -/
abbrev StorageCall := LongId × Request

/-- A request when the storage has done its part: `get` has the contents of the file, `put` has
written it. -/
def Request.completed (stored : Option ByteVec) : Request → Request
  | .read _ => .read stored
  | .evict data _ => .evict data true
  | .flush data _ => .flush data true

/-- How far a thread is in the function that it has called: it is in `get` or `put`, or before the
callback; in the call of `cacheMaintenance` of `readNodeFileCb`; behind the callback; or in a
callback that waits for itself. -/
inductive CallStage where
  | idle
  | request (f : LongId) (r : Request)
  | maintenance
  | returned
  | stuck

namespace CallStage

/-- The request that a thread has yet to answer. -/
def inCall : CallStage → Multiset StorageCall
  | request f r => {(f, r)}
  | idle | maintenance | returned | stuck => 0

def isFlush : CallStage → Bool
  | request _ r => r.isFlush
  | idle | maintenance | returned | stuck => false

/-- One for a thread that has yet to take `file_cache_mutex`. -/
def needs : CallStage → ℕ
  | request _ r => if r.isFlush then 0 else 1
  | maintenance | stuck => 1
  | idle | returned => 0

/-- How many steps a thread can take in a function. -/
def work : CallStage → ℕ
  | request _ (.read none) | request _ (.evict _ false) | request _ (.flush _ false) => 3
  | request _ _ => 2
  | maintenance => 1
  | idle | returned | stuck => 0

theorem needs_le (z : CallStage) : z.needs ≤ 1 := by
  cases z <;> simp only [needs] <;> first | omega | split_ifs <;> omega

theorem work_le (z : CallStage) : z.work ≤ 3 := by
  unfold work
  split <;> omega

end CallStage

/-- The cache, the queue and the threads of its storage, and how far each thread is. -/
structure DiskCache (N : ℕ) where
  cache : CacheState
  caller : FunctionCaller N StorageCall
  stage : Fin N → CallStage

/-- The requests that a step makes, in order, and the thread that each one notifies. -/
abbrev Asks (N : ℕ) := List (StorageCall × Option (Fin N))

/-- A step of a thread of the storage, or a wake-up for no reason. -/
inductive DiskEvent (N : ℕ) where
  | lock (i : Fin N)
  | complete (i : Fin N)
  | callback (i : Fin N)
  | maintenance (i : Fin N) (busy : LongId → Bool) (asks : Asks N)
  | finish (i : Fin N)
  | spurious (i : Fin N)

/-- The steps that the threads take by themselves. -/
def DiskEvent.own {N : ℕ} : DiskEvent N → Prop
  | .lock _ | .complete _ | .callback _ | .maintenance .. | .finish _ => True
  | .spurious _ => False

namespace DiskCache

variable {N : ℕ}

/-- `getAsync` and `putAsync`, for some requests. -/
def ask (asks : Asks N) (s : FunctionCaller N StorageCall) : Option (FunctionCaller N StorageCall) :=
  asks.foldlM (fun s a => s.addFunction a.1 a.2) s

/-- A step of the client, whose requests go to the queue. -/
def client (cfg : Config) (c : CacheChoice × Asks N) (o : CacheOp) (x : DiskCache N) :
    Option (o.Res × DiskCache N) := do
  let (r, cache) ← CacheState.client cfg c.1 o x.cache
  let caller ← ask c.2 x.caller
  if cache.pending = ↑(c.2.map Prod.fst) + x.cache.pending then
    some (r, { x with cache := cache, caller := caller })
  else none

/-- Where a thread is when its callback has run. -/
def afterCallback (f : LongId) (m : CacheState) : Request → CallStage
  | .read _ => .maintenance
  | .evict _ _ =>
    if m.owner .fileCacheMutex = some (.evictNodeFileCb f) then .stuck else .returned
  | .flush _ _ => .returned

/-- The steps of the threads. -/
def env (cfg : Config) (e : DiskEvent N) (x : DiskCache N) : Option (DiskCache N) :=
  match e with
  | .lock i => do
    let caller ← FunctionCaller.step (.lock i) x.caller
    match caller.threads i with
    | .calling (f, r) =>
      some { x with caller := caller, stage := Function.update x.stage i (.request f r) }
    | .looping | .waiting | .ended => some { x with caller := caller }
  | .complete i =>
    match x.stage i with
    | .request f r => (x.cache.env cfg (.complete f r)).map fun cache => { x with
        cache := cache
        stage := Function.update x.stage i (.request f (r.completed (x.cache.storage f))) }
    | .idle | .maintenance | .returned | .stuck => none
  | .callback i =>
    match x.stage i with
    | .request f r => (x.cache.env cfg (.callback f r)).map fun cache => { x with
        cache := cache
        stage := Function.update x.stage i (afterCallback f cache r) }
    | .idle | .maintenance | .returned | .stuck => none
  | .maintenance i busy asks =>
    match x.stage i with
    | .maintenance => do
      let cache ← x.cache.env cfg (.maintenance busy)
      let caller ← ask asks x.caller
      if cache.pending = ↑(asks.map Prod.fst) + x.cache.pending then
        some ⟨cache, caller, Function.update x.stage i .returned⟩
      else none
    | .idle | .request _ _ | .returned | .stuck => none
  | .finish i =>
    match x.stage i with
    | .returned => (FunctionCaller.step (.finish i) x.caller).map fun caller =>
        { x with caller := caller, stage := Function.update x.stage i .idle }
    | .idle | .request _ _ | .maintenance | .stuck => none
  | .spurious i => (FunctionCaller.step (.spurious i) x.caller).map fun caller =>
      { x with caller := caller }

/-- A tree is opened. -/
def opened (N : ℕ) (storage : LongId → Option ByteVec) : DiskCache N :=
  ⟨.opened storage, .init, fun _ => .idle⟩

/-- The callbacks that need `file_cache_mutex` and have not got it, in the queue and in the threads. -/
def outstanding (x : DiskCache N) : ℕ :=
  (x.caller.queue.countP fun q => !q.2.isFlush) + ∑ i, (x.stage i).needs

end DiskCache

/-- The file cache over a `DiskStorage` with a pool of `N` threads. -/
def diskMachine (N : ℕ) (cfg : Config) :
    Machine cacheSig (CacheChoice × Asks N) (DiskEvent N) (DiskCache N) :=
  ⟨DiskCache.client cfg, DiskCache.env cfg⟩

/-! ### The steps -/

variable {N : ℕ} {cfg : Config} {x y : DiskCache N} {m m' : CacheState} {f : LongId} {r : Request}

theorem Request.isFlush_completed (stored : Option ByteVec) (r : Request) :
    (r.completed stored).isFlush = r.isFlush := by
  cases r <;> rfl

/-- The storage does its part of a request that it has not done yet. -/
theorem CacheState.complete_cases (h : m.env cfg (.complete f r) = some m') :
    (f, r) ∈ m.pending ∧
      m'.pending = (f, r.completed (m.storage f)) ::ₘ m.pending.erase (f, r) ∧
      m'.remaining = m.remaining ∧ (CallStage.request f (r.completed (m.storage f))).work = 2 ∧
      (CallStage.request f r).work = 3 := by
  simp only [CacheState.env] at h
  split_ifs at h with hp
  rcases r with (_ | b) | ⟨data, _ | _⟩ | ⟨data, _ | _⟩ <;> simp only at h
  · obtain ⟨b, hb, rfl⟩ := Option.map_eq_some_iff.1 h
    rw [hb]
    exact ⟨hp, rfl, rfl, rfl, rfl⟩
  · cases h
  · obtain rfl := Option.some.inj h
    exact ⟨hp, rfl, rfl, rfl, rfl⟩
  · cases h
  · obtain rfl := Option.some.inj h
    exact ⟨hp, rfl, rfl, rfl, rfl⟩
  · cases h

/-- A callback answers a request that the storage has done its part of. -/
theorem CacheState.callback_cases (h : m.env cfg (.callback f r) = some m') :
    (f, r) ∈ m.pending ∧ m'.pending = m.pending.erase (f, r) ∧
      (r.isFlush = false → m'.remaining = m.remaining) ∧ (CallStage.request f r).work = 2 := by
  simp only [CacheState.env] at h
  split_ifs at h with hp
  rcases r with (_ | b) | ⟨data, _ | _⟩ | ⟨data, _ | _⟩ <;> simp only at h
  · cases h
  · simp only [CacheState.readNodeFileCb] at h
    split_ifs at h
    obtain ⟨file, hf, h⟩ := Option.bind_eq_some_iff.1 h
    obtain ⟨d, hd, rfl⟩ := Option.map_eq_some_iff.1 h
    exact ⟨hp, rfl, fun _ => rfl, rfl⟩
  · cases h
  · rcases CacheState.evictNodeFileCb_cases { m with pending := m.pending.erase (f, .evict data true) }
      f with ⟨file, -, -, -, -, he⟩ | ⟨file, owner, -, -, -, -, -, he⟩ | ⟨owner, -, -, he⟩ | he | he <;>
      rw [he] at h <;> cases h <;> exact ⟨hp, rfl, fun _ => rfl, rfl⟩
  · cases h
  · simp only [CacheState.flushNodeFileCb] at h
    split_ifs at h
    obtain ⟨file, hf, rfl⟩ := Option.map_eq_some_iff.1 h
    exact ⟨hp, rfl, (fun hflush => by cases hflush), rfl⟩

/-- While the client has the mutex, the callback of a write of `flushCache` can run. -/
theorem CacheState.exists_flushCb {data : ByteVec} (h : Flights m)
    (ho : m.owner .fileCacheMutex = some .client) (hp : (f, .flush data true) ∈ m.pending) :
    ∃ m', m.env cfg (.callback f (.flush data true)) = some m' := by
  have hfree : m.owner (.fileMutex f) = none := by
    by_contra hne
    obtain ⟨g, hg⟩ := h.locks.file f hne
    rw [ho] at hg
    cases hg
  obtain ⟨file, hf⟩ : ∃ file, m.files f = some file := by
    rw [← Option.isSome_iff_exists, Option.isSome_iff_ne_none]
    intro hnone
    have hmem := mem_inFlight.2 hp
    rw [h.inFlight_of_none hnone] at hmem
    exact Multiset.notMem_zero _ hmem
  simp only [CacheState.env, if_pos hp, CacheState.flushNodeFileCb, if_pos hfree, hf,
    Option.map_some]
  exact ⟨_, rfl⟩

namespace DiskCache

/-- What a step of the threads can be. -/
inductive Moved (cfg : Config) (x : DiskCache N) : DiskEvent N → DiskCache N → Prop
  | idle (i : Fin N) (caller : FunctionCaller N StorageCall)
      (h : FunctionCaller.Took x.caller (.lock i) caller)
      (hi : ∀ q, caller.threads i ≠ .calling q) : Moved cfg x (.lock i) { x with caller := caller }
  | take (i : Fin N) (caller : FunctionCaller N StorageCall) (f : LongId) (r : Request)
      (h : FunctionCaller.Took x.caller (.lock i) caller) (hi : caller.threads i = .calling (f, r)) :
      Moved cfg x (.lock i)
        { x with caller := caller, stage := Function.update x.stage i (.request f r) }
  | complete (i : Fin N) (f : LongId) (r : Request) (m : CacheState) (hi : x.stage i = .request f r)
      (h : x.cache.env cfg (.complete f r) = some m) : Moved cfg x (.complete i) { x with
        cache := m
        stage := Function.update x.stage i (.request f (r.completed (x.cache.storage f))) }
  | callback (i : Fin N) (f : LongId) (r : Request) (m : CacheState) (hi : x.stage i = .request f r)
      (h : x.cache.env cfg (.callback f r) = some m) : Moved cfg x (.callback i)
        { x with cache := m, stage := Function.update x.stage i (afterCallback f m r) }
  | maintenance (i : Fin N) (busy : LongId → Bool) (asks : Asks N) (m : CacheState)
      (caller : FunctionCaller N StorageCall) (hi : x.stage i = .maintenance)
      (h : x.cache.env cfg (.maintenance busy) = some m) (ha : ask asks x.caller = some caller)
      (hp : m.pending = ↑(asks.map Prod.fst) + x.cache.pending) :
      Moved cfg x (.maintenance i busy asks) ⟨m, caller, Function.update x.stage i .returned⟩
  | finish (i : Fin N) (caller : FunctionCaller N StorageCall) (hi : x.stage i = .returned)
      (h : FunctionCaller.Took x.caller (.finish i) caller) : Moved cfg x (.finish i)
        { x with caller := caller, stage := Function.update x.stage i .idle }
  | spurious (i : Fin N) (caller : FunctionCaller N StorageCall)
      (h : FunctionCaller.Took x.caller (.spurious i) caller) :
      Moved cfg x (.spurious i) { x with caller := caller }

theorem moved_of_env {e : DiskEvent N} (h : env cfg e x = some y) : Moved cfg x e y := by
  cases e with
  | lock i =>
    obtain ⟨caller, hstep, h⟩ := Option.bind_eq_some_iff.1 h
    have ht := FunctionCaller.took_of_step hstep
    cases hi : caller.threads i with
    | calling q =>
      simp only [hi] at h
      obtain rfl := Option.some.inj h
      exact .take i caller q.1 q.2 ht hi
    | looping | waiting | ended =>
      simp only [hi] at h
      obtain rfl := Option.some.inj h
      refine .idle i caller ht fun q hq => ?_
      rw [hi] at hq
      cases hq
  | complete i =>
    rw [env] at h
    split at h
    · next f r hi =>
      obtain ⟨m, hm, rfl⟩ := Option.map_eq_some_iff.1 h
      exact .complete i f r m hi hm
    all_goals cases h
  | callback i =>
    rw [env] at h
    split at h
    · next f r hi =>
      obtain ⟨m, hm, rfl⟩ := Option.map_eq_some_iff.1 h
      exact .callback i f r m hi hm
    all_goals cases h
  | maintenance i busy asks =>
    rw [env] at h
    split at h
    · next hi =>
      obtain ⟨m, hm, h⟩ := Option.bind_eq_some_iff.1 h
      obtain ⟨caller, ha, h⟩ := Option.bind_eq_some_iff.1 h
      obtain ⟨hp, h⟩ := Option.ite_none_right_eq_some.1 h
      obtain rfl := Option.some.inj h
      exact .maintenance i busy asks m caller hi hm ha hp
    all_goals cases h
  | finish i =>
    rw [env] at h
    split at h
    · next hi =>
      obtain ⟨caller, hstep, rfl⟩ := Option.map_eq_some_iff.1 h
      exact .finish i caller hi (FunctionCaller.took_of_step hstep)
    all_goals cases h
  | spurious i =>
    obtain ⟨caller, hstep, rfl⟩ := Option.map_eq_some_iff.1 h
    exact .spurious i caller (FunctionCaller.took_of_step hstep)

theorem client_cases {c : CacheChoice × Asks N} {o : CacheOp} {a : o.Res}
    (h : client cfg c o x = some (a, y)) : CacheState.client cfg c.1 o x.cache = some (a, y.cache) ∧
      ask c.2 x.caller = some y.caller ∧ y.stage = x.stage ∧
      y.cache.pending = ↑(c.2.map Prod.fst) + x.cache.pending := by
  obtain ⟨⟨b, m⟩, hm, h⟩ := Option.bind_eq_some_iff.1 h
  obtain ⟨caller, ha, h⟩ := Option.bind_eq_some_iff.1 h
  obtain ⟨hp, h⟩ := Option.ite_none_right_eq_some.1 h
  obtain ⟨rfl, rfl⟩ := Prod.mk.inj (Option.some.inj h)
  exact ⟨hm, ha, rfl, hp⟩

end DiskCache

/-- **The disk storage is one of the storages of `cacheMachine`.**  Without the queue and the
threads, a step of the cache over a disk storage is a step of the cache, or none. -/
theorem diskMachine_refines (N : ℕ) (cfg : Config) :
    (diskMachine N cfg).Refines (cacheMachine cfg) DiskCache.cache where
  client h := ⟨_, (DiskCache.client_cases h).1⟩
  env h := by
    cases DiskCache.moved_of_env h with
    | idle | take | finish | spurious => exact .inl rfl
    | complete i f r m hi hm => exact .inr ⟨.complete f r, hm⟩
    | callback i f r m hi hm => exact .inr ⟨.callback f r, hm⟩
    | maintenance i busy asks m caller hi hm => exact .inr ⟨.maintenance busy, hm⟩

/-! ### The books of the storage -/

namespace DiskCache

/-- Requests go to the front of the queue, and threads go on. -/
theorem ask_cases {asks : Asks N} {s s' : FunctionCaller N StorageCall} (h : ask asks s = some s')
    (hs : s.Good) : s'.Good ∧ s'.running = s.running ∧
      s'.queue = (asks.map Prod.fst).reverse ++ s.queue ∧
      ∀ i q, s'.threads i = .calling q ↔ s.threads i = .calling q := by
  induction asks generalizing s with
  | nil =>
    obtain rfl := Option.some.inj h
    exact ⟨hs, rfl, rfl, fun _ _ => .rfl⟩
  | cons a asks ih =>
    obtain ⟨s₁, h₁, h⟩ := Option.bind_eq_some_iff.1 h
    have ht : FunctionCaller.Took s (.addFunction a.1 a.2) s₁ := FunctionCaller.took_of_step h₁
    obtain ⟨hgood, hrun, hq, hcalling⟩ := ih h (hs.took ht)
    refine ⟨hgood, ?_⟩
    rw [List.map_cons, List.reverse_cons, List.append_assoc]
    generalize a.2 = w at ht
    cases ht with
    | addBusy _ hbusy => exact ⟨hrun, hq, hcalling⟩
    | addWake _ i hi =>
      refine ⟨hrun, hq, fun j q => (hcalling j q).trans ?_⟩
      by_cases hj : j = i
      · subst hj
        simp [hi]
      · simp [FunctionCaller.threads_setThread_ne hj]

/-- Each request in flight is in the queue or with a thread, and a thread has a request or a callback
only while it calls a function.  While `flushCache` has the mutex, its writes are behind all other
requests, and no thread has come to them before all other requests were taken. -/
structure Books (x : DiskCache N) : Prop where
  flights : Flights x.cache
  good : x.caller.Good
  running : x.caller.running = true
  idle : ∀ i, (∀ q, x.caller.threads i ≠ .calling q) → x.stage i = .idle
  busy : ∀ i q, x.caller.threads i = .calling q → x.stage i ≠ .idle
  pending : x.cache.pending = ↑x.caller.queue + ∑ i, (x.stage i).inCall
  stuck : ∀ i, x.stage i = .stuck → Stuck x.cache
  fifo : x.cache.owner .fileCacheMutex = some .client → ∃ writes rest,
    x.caller.queue = writes ++ rest ∧
      (∀ q ∈ writes, q.2.isFlush = true) ∧ (∀ q ∈ rest, q.2.isFlush = false) ∧
    ((∃ i, (x.stage i).isFlush = true) → rest = [])

theorem Books.opened (N : ℕ) (storage : LongId → Option ByteVec) : Books (opened N storage) where
  flights := .opened storage
  good := FunctionCaller.init_good
  running := rfl
  idle _ _ := rfl
  busy i q h := by cases h
  pending := by simp [DiskCache.opened, CacheState.opened, FunctionCaller.init, CallStage.inCall]
  stuck i h := by cases h
  fifo h := by cases h

theorem isFlush_of_inCall {z : CallStage} {q : StorageCall} (h : q ∈ z.inCall) :
    z.isFlush = q.2.isFlush := by
  cases z with
  | request f r =>
    obtain rfl := Multiset.mem_singleton.1 h
    rfl
  | idle | maintenance | returned | stuck => exact absurd h (Multiset.notMem_zero q)

theorem update_cases {α : Type} {g : Fin N → α} {i j : Fin N} {a b : α}
    (h : Function.update g i a j = b) : j = i ∧ a = b ∨ j ≠ i ∧ g j = b := by
  by_cases hj : j = i
  · rw [hj, Function.update_self] at h
    exact .inl ⟨hj, h⟩
  · rw [Function.update_of_ne hj] at h
    exact .inr ⟨hj, h⟩

/-- Another thread with a write of `flushCache`, or the one that has changed. -/
theorem isFlush_update {stage : Fin N → CallStage} {i : Fin N} {z : CallStage}
    (h : ∃ j, (Function.update stage i z j).isFlush = true) :
    z.isFlush = true ∨ ∃ j, (stage j).isFlush = true := by
  obtain ⟨j, hj⟩ := h
  by_cases hji : j = i
  · rw [hji, Function.update_self] at hj
    exact .inl hj
  · rw [Function.update_of_ne hji] at hj
    exact .inr ⟨j, hj⟩

/-- A step of the pool that leaves the queue and the functions. -/
theorem Books.caller (h : Books x) {caller : FunctionCaller N StorageCall}
    (hgood : caller.Good) (hrun : caller.running = x.caller.running)
    (hq : caller.queue = x.caller.queue)
    (hcalling : ∀ i q, caller.threads i = .calling q ↔ x.caller.threads i = .calling q) :
    Books { x with caller := caller } where
  flights := h.flights
  good := hgood
  running := hrun.trans h.running
  idle i hi := h.idle i fun q => mt (hcalling i q).2 (hi q)
  busy i q hi := h.busy i q ((hcalling i q).1 hi)
  pending := by rw [hq]; exact h.pending
  stuck := h.stuck
  fifo := by rw [hq]; exact h.fifo

/-- A step of a thread in its function. -/
theorem Books.restage (h : Books x) {i : Fin N} {z : CallStage} {caller : FunctionCaller N StorageCall}
    (hi : x.stage i ≠ .idle) (hz : z ≠ .idle) (henv : EnvStep cfg x.cache m)
    (hgood : caller.Good) (hrun : caller.running = x.caller.running)
    (hcalling : ∀ j q, caller.threads j = .calling q ↔ x.caller.threads j = .calling q)
    (hp : m.pending = ↑caller.queue + ∑ j, (Function.update x.stage i z j).inCall)
    (hstuck : z = .stuck → Stuck m)
    (hfifo : m.owner .fileCacheMutex = some .client →
      caller.queue = x.caller.queue ∧ (z.isFlush = true → (x.stage i).isFlush = true)) :
    Books ⟨m, caller, Function.update x.stage i z⟩ where
  flights := h.flights.env henv
  good := hgood
  running := hrun.trans h.running
  idle j hj := by
    have hidle := h.idle j fun q => mt (hcalling j q).2 (hj q)
    have hji : j ≠ i := by
      rintro rfl
      exact hi hidle
    exact (Function.update_of_ne hji z x.stage).trans hidle
  busy j q hj hidle := by
    rcases update_cases hidle with ⟨-, hz'⟩ | ⟨-, hj'⟩
    · exact hz hz'
    · exact h.busy j q ((hcalling j q).1 hj) hj'
  pending := hp
  stuck j hj := by
    rcases update_cases hj with ⟨-, hz'⟩ | ⟨-, hj'⟩
    · exact hstuck hz'
    · exact (h.stuck j hj').env henv
  fifo ho := by
    obtain ⟨hq, hflush⟩ := hfifo ho
    obtain ⟨writes, rest, heq, hw, hr, hnone⟩ := h.fifo (by
      by_contra hne
      exact henv.not_held hne ho)
    exact ⟨writes, rest, hq.trans heq, hw, hr, fun hex =>
      hnone ((isFlush_update hex).elim (fun hz' => ⟨i, hflush hz'⟩) id)⟩

/-- A thread takes the request at the end of the queue. -/
theorem Books.take (h : Books x) {i : Fin N} {caller : FunctionCaller N StorageCall}
    (ht : FunctionCaller.Took x.caller (.lock i) caller) (hi : caller.threads i = .calling (f, r)) :
    Books { x with caller := caller, stage := Function.update x.stage i (.request f r) } := by
  have hgood := h.good.took ht
  cases ht with
  | leave _ _ hrun =>
    rw [h.running] at hrun
    cases hrun
  | rest _ _ _ hq =>
    rw [FunctionCaller.threads_setThread_self] at hi
    cases hi
  | take _ q t hloop hrun hq =>
    have hthread := FunctionCaller.threads_setThread_self i (.calling t) x.caller
    obtain rfl : t = (f, r) := PoolThread.calling.inj (hthread.symm.trans hi)
    have hidle : x.stage i = .idle := h.idle i fun q' hq' => by
      rw [hloop] at hq'
      cases hq'
    refine ⟨h.flights, hgood, h.running, fun j hj => ?_, fun j q' hj hidle' => ?_, ?_, fun j hj => ?_,
      fun ho => ?_⟩
    · have hji : j ≠ i := by
        rintro rfl
        exact hj _ hi
      refine (Function.update_of_ne hji _ x.stage).trans (h.idle j fun q' hq' => hj q' ?_)
      exact (FunctionCaller.threads_setThread_ne hji _ _).trans hq'
    · rcases update_cases hidle' with ⟨-, hz⟩ | ⟨hji, hz⟩
      · cases hz
      · exact h.busy j q' ((FunctionCaller.threads_setThread_ne hji _ _).symm.trans hj) hz
    · have hsum := sum_update CallStage.inCall x.stage i (.request f r)
      rw [hidle] at hsum
      have hq' : x.cache.pending =
          ↑q + ∑ j, (Function.update x.stage i (.request f r) j).inCall := by
        rw [h.pending, hq, ← Multiset.coe_add, add_assoc]
        exact congrArg _ ((add_comm _ _).trans (hsum.symm.trans (add_zero _)))
      exact hq'
    · rcases update_cases hj with ⟨-, hz⟩ | ⟨-, hz⟩
      · cases hz
      · exact h.stuck j hz
    · obtain ⟨writes, rest, heq, hw, hr, hnone⟩ := h.fifo ho
      rw [hq] at heq
      rcases List.eq_nil_or_concat rest with rfl | ⟨rest, t, rfl⟩
      · rw [List.append_nil] at heq
        refine ⟨q, [], (List.append_nil q).symm, fun q' hq' => hw q' ?_, fun q' hq' => ?_,
          fun _ => rfl⟩
        · rw [← heq]
          exact List.mem_append_left _ hq'
        · cases hq'
      · rw [List.concat_eq_append, ← List.append_assoc] at heq
        obtain ⟨rfl, ht⟩ := List.append_inj' heq rfl
        obtain rfl := (List.cons.inj ht).1
        rw [List.concat_eq_append] at hr hnone
        refine ⟨writes, rest, rfl, hw, fun q' hq' => hr q' (List.mem_append_left _ hq'), fun hex => ?_⟩
        have hflush : r.isFlush = false := hr (f, r) (by simp)
        rcases isFlush_update hex with hz | hex
        · have hz' : r.isFlush = true := hz
          rw [hflush] at hz'
          cases hz'
        · exact absurd (hnone hex) (by simp)

/-- A thread leaves a function whose callback has returned. -/
theorem Books.finish (h : Books x) {i : Fin N} {caller : FunctionCaller N StorageCall}
    (hi : x.stage i = .returned) (ht : FunctionCaller.Took x.caller (.finish i) caller) :
    Books { x with caller := caller, stage := Function.update x.stage i .idle } := by
  have hgood := h.good.took ht
  cases ht with
  | finish _ q hq =>
    refine ⟨h.flights, hgood, h.running, fun j hj => ?_, fun j q' hj hidle => ?_, ?_, fun j hj => ?_,
      fun ho => ?_⟩
    · by_cases hji : j = i
      · rw [hji]
        exact Function.update_self i _ x.stage
      · refine (Function.update_of_ne hji _ x.stage).trans (h.idle j fun q' hq' => hj q' ?_)
        exact (FunctionCaller.threads_setThread_ne hji _ _).trans hq'
    · rcases update_cases hidle with ⟨rfl, -⟩ | ⟨hji, hz⟩
      · cases (FunctionCaller.threads_setThread_self j .looping x.caller).symm.trans hj
      · exact h.busy j q' ((FunctionCaller.threads_setThread_ne hji _ _).symm.trans hj) hz
    · have hsum := sum_update CallStage.inCall x.stage i .idle
      rw [hi] at hsum
      have hsame : ∑ j, (Function.update x.stage i .idle j).inCall = ∑ j, (x.stage j).inCall :=
        (add_zero _).symm.trans (hsum.trans (add_zero _))
      exact h.pending.trans (congrArg _ hsame.symm)
    · rcases update_cases hj with ⟨-, hz⟩ | ⟨-, hz⟩
      · cases hz
      · exact h.stuck j hz
    · obtain ⟨writes, rest, heq, hw, hr, hnone⟩ := h.fifo ho
      refine ⟨writes, rest, heq, hw, hr, fun hex => hnone ?_⟩
      rcases isFlush_update hex with hz | hex
      · cases hz
      · exact hex

/-- What is in flight when a thread has done something about its request. -/
theorem Books.pending_update (h : Books x) {i : Fin N} {z : CallStage} {rest : Multiset StorageCall}
    (hrest : x.cache.pending = (x.stage i).inCall + rest) :
    z.inCall + rest = ↑x.caller.queue + ∑ j, (Function.update x.stage i z j).inCall := by
  have hsum := sum_update CallStage.inCall x.stage i z
  have hp := h.pending
  rw [hrest] at hp
  refine add_left_cancel (a := (x.stage i).inCall) ?_
  calc (x.stage i).inCall + (z.inCall + rest)
      = z.inCall + ((x.stage i).inCall + rest) := add_left_comm _ _ _
    _ = ↑x.caller.queue + (∑ j, (x.stage j).inCall + z.inCall) := by
      rw [hp, add_left_comm, add_comm z.inCall]
    _ = (x.stage i).inCall + (↑x.caller.queue + ∑ j, (Function.update x.stage i z j).inCall) := by
      rw [← hsum, ← add_assoc, add_comm]

theorem isFlush_request (f : LongId) (r : Request) : (CallStage.request f r).isFlush = r.isFlush := rfl

theorem afterCallback_ne_idle (f : LongId) (m : CacheState) (r : Request) :
    afterCallback f m r ≠ .idle := by
  cases r with
  | read _ | flush _ _ => exact fun h => by cases h
  | evict data w =>
    rw [afterCallback]
    split_ifs <;> exact fun h => by cases h

theorem isFlush_afterCallback (f : LongId) (m : CacheState) (r : Request) :
    (afterCallback f m r).isFlush = false := by
  cases r with
  | read _ | flush _ _ => rfl
  | evict data w =>
    rw [afterCallback]
    split_ifs <;> rfl

theorem inCall_afterCallback (f : LongId) (m : CacheState) (r : Request) :
    (afterCallback f m r).inCall = 0 := by
  cases r with
  | read _ | flush _ _ => rfl
  | evict data w =>
    rw [afterCallback]
    split_ifs <;> rfl

theorem stuck_of_afterCallback (h : afterCallback f m r = .stuck) : Stuck m := by
  cases r with
  | read _ | flush _ _ => cases h
  | evict data w =>
    rw [afterCallback] at h
    split_ifs at h with ho
    exact ⟨f, ho⟩

/-- Every step of the threads keeps the books. -/
theorem Books.moved {e : DiskEvent N} (h : Books x) (hs : Moved cfg x e y) : Books y := by
  cases hs with
  | idle i caller ht hi =>
    refine h.caller (h.good.took ht) ?_ ?_ fun j q => ?_ <;> cases ht with
    | leave _ hloop hrun => rw [h.running] at hrun; cases hrun
    | rest _ hloop hrun hq => ?_
    | take _ q t hloop hrun hq =>
      exact absurd (FunctionCaller.threads_setThread_self i (.calling t) x.caller) (hi t)
    · rfl
    · rfl
    · by_cases hji : j = i
      · subst hji
        simp [hloop]
      · rw [FunctionCaller.threads_setThread_ne hji]
  | take i caller f r ht hi => exact h.take ht hi
  | complete i f r m hi hm =>
    obtain ⟨hp, hpending, -, -, -⟩ := CacheState.complete_cases hm
    refine h.restage (by rw [hi]; exact fun h => by cases h) (fun h => by cases h) (.of_env hm)
      h.good rfl (fun _ _ => .rfl) ?_ (fun h => by cases h) fun _ => ⟨rfl, fun hz => ?_⟩
    · have hrest : x.cache.pending = (x.stage i).inCall + x.cache.pending.erase (f, r) := by
        rw [hi]
        exact (Multiset.cons_erase hp).symm
      rw [hpending, ← Multiset.singleton_add]
      exact h.pending_update (z := .request f (r.completed (x.cache.storage f))) hrest
    · rw [hi, isFlush_request, ← hz, isFlush_request, Request.isFlush_completed]
  | callback i f r m hi hm =>
    obtain ⟨hp, hpending, -, -⟩ := CacheState.callback_cases hm
    refine h.restage (by rw [hi]; exact fun h => by cases h) (afterCallback_ne_idle f m r)
      (.of_env hm) h.good rfl (fun _ _ => .rfl) ?_ stuck_of_afterCallback
      fun _ => ⟨rfl, fun hz => ?_⟩
    · have hrest : x.cache.pending = (x.stage i).inCall + x.cache.pending.erase (f, r) := by
        rw [hi]
        exact (Multiset.cons_erase hp).symm
      have hpool := h.pending_update (z := afterCallback f m r) hrest
      rwa [inCall_afterCallback, zero_add, ← hpending] at hpool
    · rw [isFlush_afterCallback] at hz
      cases hz
  | maintenance i busy asks m caller hi hm ha hp =>
    have henv := EnvStep.of_env hm
    obtain ⟨hgood, hrun, hq, hcalling⟩ := ask_cases ha h.good
    refine h.restage (by rw [hi]; exact fun h => by cases h) (fun h => by cases h) henv hgood hrun
      hcalling ?_ (fun h => by cases h) fun ho => ?_
    · have hsum := sum_update CallStage.inCall x.stage i .returned
      rw [hi] at hsum
      have hsame : ∑ j, (Function.update x.stage i .returned j).inCall = ∑ j, (x.stage j).inCall :=
        (add_zero _).symm.trans (hsum.trans (add_zero _))
      rw [hp, hq, h.pending, hsame, ← Multiset.coe_add, Multiset.coe_reverse, add_assoc]
    · simp only [CacheState.env] at hm
      split_ifs at hm
      rw [CacheState.owner_maintenance hm] at ho
      have hfree := Flights.free_of_maintenance hm
      rw [ho] at hfree
      cases hfree
  | finish i caller hi ht => exact h.finish hi ht
  | spurious i caller ht =>
    refine h.caller (h.good.took ht) ?_ ?_ fun j q => ?_ <;> cases ht with
    | spurious _ hw => ?_
    · rfl
    · rfl
    · by_cases hji : j = i
      · subst hji
        simp [hw]
      · rw [FunctionCaller.threads_setThread_ne hji]

/-- What the client does to the mutex and to what is in flight. -/
theorem client_pending {c : CacheChoice} {o : CacheOp} {a : o.Res}
    (h : CacheState.client cfg c o m = some (a, m')) :
    (m'.owner = m.owner ∧ (m'.pending = m.pending ∨ m.owner .fileCacheMutex = none)) ∨
      (m.owner .fileCacheMutex = none ∧ m'.pending = m.pending) ∨
      (∃ f data, m'.owner = m.owner ∧ m'.pending = (f, .flush data false) ::ₘ m.pending) ∨
      m'.owner .fileCacheMutex = none := by
  cases CacheState.ClientStep.of_client h with
  | worked _ _ hw => exact .inl ⟨hw.owner, .inl hw.pending⟩
  | found f file ho hf => exact .inl ⟨rfl, .inr ho⟩
  | opened f modified ho hf => exact .inl ⟨rfl, .inr ho⟩
  | created f ho hf => exact .inl ⟨rfl, .inr ho⟩
  | maintenance busy _ hc =>
    exact .inl ⟨CacheState.owner_maintenance hc, .inr (Flights.free_of_maintenance hc)⟩
  | flushBegin ho => exact .inr (.inl ⟨ho, rfl⟩)
  | flushFile f file ho hf hs hm => exact .inr (.inr (.inl ⟨f, serialize file.data, rfl, rfl⟩))
  | flushWait ho hr => exact .inr (.inr (.inr (by simp)))

theorem asks_nil {asks : Asks N} {pending : Multiset StorageCall}
    (h : pending = ↑(asks.map Prod.fst) + pending) : asks.map Prod.fst = [] :=
  (Multiset.coe_eq_zero _).1 (right_eq_add.1 h)

/-- A request of a thread is in flight. -/
theorem Books.mem_pending (h : Books x) {i : Fin N} {q : StorageCall} (hq : q ∈ (x.stage i).inCall) :
    q ∈ x.cache.pending := by
  rw [h.pending]
  exact Multiset.mem_add.2 (.inr (Multiset.mem_sum.2 ⟨i, Finset.mem_univ i, hq⟩))

/-- Outside `flushCache` none of its writes is in flight. -/
theorem Books.no_flush (h : Books x) (ho : x.cache.owner .fileCacheMutex = none) :
    (∀ q ∈ x.caller.queue, q.2.isFlush = false) ∧ ∀ i, (x.stage i).isFlush = false := by
  have hnone : ∀ q ∈ x.cache.pending, q.2.isFlush = false := fun q hmem =>
    flushes_eq_zero.1 (h.flights.idle (by rw [ho]; exact fun h => by cases h)) q.1 q.2
      (mem_inFlight.2 hmem)
  refine ⟨fun q hq => hnone q ?_, fun i => ?_⟩
  · rw [h.pending]
    exact Multiset.mem_add.2 (.inl hq)
  · cases hi : x.stage i with
    | request f r =>
      exact hnone (f, r) (h.mem_pending (by rw [hi]; exact Multiset.mem_singleton_self _))
    | idle | maintenance | returned | stuck => rfl

/-- Every step of the client keeps the books. -/
theorem Books.client {c : CacheChoice × Asks N} {o : CacheOp} {a : o.Res} (h : Books x)
    (hc : client cfg c o x = some (a, y)) : Books y := by
  obtain ⟨hm, ha, hstage, hp⟩ := client_cases hc
  obtain ⟨hgood, hrun, hq, hcalling⟩ := ask_cases ha h.good
  have hpending : y.cache.pending = ↑y.caller.queue + ∑ i, (y.stage i).inCall := by
    rw [hp, hq, hstage, h.pending, ← Multiset.coe_add, Multiset.coe_reverse, add_assoc]
  refine ⟨h.flights.client (.of_client hm), hgood, hrun.trans h.running, fun i hi => ?_,
    fun i q hi => ?_, hpending, fun i hi => ?_, fun ho => ?_⟩
  · rw [hstage]
    exact h.idle i fun q => mt (hcalling i q).2 (hi q)
  · rw [hstage]
    exact h.busy i q ((hcalling i q).1 hi)
  · rw [hstage] at hi
    exact (h.stuck i hi).client (.of_client hm)
  rw [hstage, hq]
  rcases client_pending hm with ⟨howner, hsame | hfree⟩ | ⟨hfree, hsame⟩ |
    ⟨f, data, howner, hflush⟩ | hfree
  · rw [asks_nil (hsame.symm.trans hp), List.reverse_nil, List.nil_append]
    exact h.fifo (by rw [← howner]; exact ho)
  · rw [howner, hfree] at ho
    cases ho
  · -- `flushCache` has just taken the mutex: none of its writes is in flight yet
    rw [asks_nil (hsame.symm.trans hp), List.reverse_nil, List.nil_append]
    obtain ⟨hqueue, hstages⟩ := h.no_flush hfree
    refine ⟨[], x.caller.queue, rfl, fun q hq => absurd hq List.not_mem_nil, hqueue, ?_⟩
    rintro ⟨i, hi⟩
    rw [hstages i] at hi
    cases hi
  · obtain ⟨writes, rest, heq, hw, hr, hnil⟩ := h.fifo (by rw [← howner]; exact ho)
    rw [hflush, ← Multiset.singleton_add] at hp
    rw [Multiset.coe_eq_singleton.1 (add_right_cancel hp).symm, heq]
    refine ⟨(f, .flush data false) :: writes, rest, rfl, fun q hq => ?_, hr, hnil⟩
    rcases List.mem_cons.1 hq with rfl | hq
    · rfl
    · exact hw q hq
  · rw [hfree] at ho
    cases ho

/-! ### While `flushCache` waits -/

/-- While the client has the mutex, `evictNodeFileCb` waits. -/
theorem not_evict_of_held {data : ByteVec} {w : Bool} (ho : m.owner .fileCacheMutex = some .client)
    (h : m.env cfg (.callback f (.evict data w)) = some m') : False := by
  simp only [CacheState.env] at h
  split_ifs at h
  cases w with
  | false => cases h
  | true =>
    simp only [CacheState.evictNodeFileCb, CacheState.lock, ho] at h
    cases h

theorem not_maintenance_of_held {busy : LongId → Bool}
    (ho : m.owner .fileCacheMutex = some .client) (h : m.env cfg (.maintenance busy) = some m') :
    False := by
  simp only [CacheState.env] at h
  split_ifs at h
  have hfree := Flights.free_of_maintenance h
  rw [ho] at hfree
  cases hfree

theorem owner_moved {e : DiskEvent N} (hs : Moved cfg x e y)
    (ho : x.cache.owner .fileCacheMutex = some .client) :
    y.cache.owner .fileCacheMutex = some .client := by
  cases hs with
  | complete i f r m hi hm => rw [((EnvStep.of_env hm).held ho).1, ho]
  | callback i f r m hi hm => rw [((EnvStep.of_env hm).held ho).1, ho]
  | maintenance i busy asks m caller hi hm => exact (not_maintenance_of_held ho hm).elim
  | _ => exact ho

theorem outstanding_restage {caller : FunctionCaller N StorageCall} {i : Fin N} {z : CallStage}
    (hz : z.needs = (x.stage i).needs) (hq : caller.queue = x.caller.queue) :
    (⟨m, caller, Function.update x.stage i z⟩ : DiskCache N).outstanding = x.outstanding := by
  have hsum := sum_update CallStage.needs x.stage i z
  rw [outstanding, outstanding, hq]
  simp only
  omega

/-- While the client has the mutex, every callback that needs it goes on to need it. -/
theorem Books.outstanding_moved {e : DiskEvent N} (h : Books x) (hs : Moved cfg x e y)
    (ho : x.cache.owner .fileCacheMutex = some .client) : y.outstanding = x.outstanding := by
  cases hs with
  | idle i caller ht hi =>
    cases ht with
    | leave | rest => rfl
    | take _ q t => exact absurd (FunctionCaller.threads_setThread_self i _ x.caller) (hi t)
  | take i caller f r ht hi =>
    cases ht with
    | leave _ _ hrun =>
      rw [h.running] at hrun
      cases hrun
    | rest =>
      rw [FunctionCaller.threads_setThread_self] at hi
      cases hi
    | take _ q t hloop hrun hq =>
      obtain rfl : t = (f, r) := PoolThread.calling.inj
        ((FunctionCaller.threads_setThread_self i (.calling t) x.caller).symm.trans hi)
      have hsum := sum_update CallStage.needs x.stage i (.request f r)
      rw [h.idle i fun q' hq' => by rw [hloop] at hq'; cases hq'] at hsum
      have hout : q.countP (fun q => !q.2.isFlush) +
          ∑ j, (Function.update x.stage i (.request f r) j).needs = x.outstanding := by
        rw [outstanding, hq, List.countP_append, List.countP_singleton]
        cases hflush : r.isFlush <;> simp [CallStage.needs, hflush] at hsum ⊢ <;> omega
      exact hout
  | complete i f r m hi hm =>
    refine outstanding_restage ?_ rfl
    rw [hi, CallStage.needs, CallStage.needs, Request.isFlush_completed]
  | callback i f r m hi hm =>
    refine outstanding_restage ?_ rfl
    rw [hi]
    cases r with
    | read _ | flush _ _ => rfl
    | evict data w => exact (not_evict_of_held ho hm).elim
  | maintenance i busy asks m caller hi hm => exact (not_maintenance_of_held ho hm).elim
  | finish i caller hi ht =>
    cases ht with
    | finish => exact outstanding_restage (by rw [hi]; rfl) rfl
  | spurious i caller ht =>
    cases ht with
    | spurious => rfl

/-- A thread has come to the writes of `flushCache` only if another thread is left for it. -/
theorem Books.not_isFlush (h : Books x) (ho : x.cache.owner .fileCacheMutex = some .client)
    (hN : N ≤ x.outstanding) (i : Fin N) : (x.stage i).isFlush = false := by
  by_contra hne
  rw [Bool.not_eq_false] at hne
  obtain ⟨writes, rest, hq, hw, -, hnil⟩ := h.fifo ho
  rw [hnil ⟨i, hne⟩, List.append_nil] at hq
  have hqueue : x.caller.queue.countP (fun q => !q.2.isFlush) = 0 := by
    rw [hq, List.countP_eq_zero]
    intro q hmem
    rw [hw q hmem]
    simp
  have hi : (x.stage i).needs < 1 := by
    cases hz : x.stage i with
    | request f r =>
      rw [hz] at hne
      rw [CallStage.needs, if_pos (show r.isFlush = true from hne)]
      exact Nat.one_pos
    | idle | maintenance | returned | stuck => rw [hz] at hne; cases hne
  have hlt : ∑ j, (x.stage j).needs < ∑ _j : Fin N, 1 :=
    Finset.sum_lt_sum (fun j _ => (x.stage j).needs_le) ⟨i, Finset.mem_univ i, hi⟩
  rw [Finset.sum_const, Finset.card_univ, Fintype.card_fin, smul_eq_mul, mul_one] at hlt
  rw [outstanding, hqueue] at hN
  omega

/-- With as many callbacks in the way as there are threads, no write of `flushCache` is answered. -/
theorem Books.remaining_moved {e : DiskEvent N} (h : Books x) (hs : Moved cfg x e y)
    (ho : x.cache.owner .fileCacheMutex = some .client) (hN : N ≤ x.outstanding) :
    y.cache.remaining = x.cache.remaining := by
  cases hs with
  | complete i f r m hi hm => exact (CacheState.complete_cases hm).2.2.1
  | callback i f r m hi hm =>
    refine (CacheState.callback_cases hm).2.2.1 ?_
    have hflush := h.not_isFlush ho hN i
    rwa [hi] at hflush
  | maintenance i busy asks m caller hi hm => exact (not_maintenance_of_held ho hm).elim
  | _ => rfl

/-- How many steps the threads can take while the client has the mutex. -/
def work (x : DiskCache N) : ℕ := 4 * x.caller.work + ∑ i, (x.stage i).work

theorem work_le (x : DiskCache N) : x.work ≤ 8 * (x.caller.queue.length + N) + 3 * N := by
  have hsum : ∑ i, (x.stage i).work ≤ ∑ _i : Fin N, 3 :=
    Finset.sum_le_sum fun i _ => (x.stage i).work_le
  rw [Finset.sum_const, Finset.card_univ, Fintype.card_fin, smul_eq_mul] at hsum
  have hcaller := x.caller.work_le
  rw [work]
  omega

theorem work_restage {caller : FunctionCaller N StorageCall} {i : Fin N} {z : CallStage}
    (h : 4 * caller.work + z.work < 4 * x.caller.work + (x.stage i).work) :
    (⟨m, caller, Function.update x.stage i z⟩ : DiskCache N).work < x.work := by
  have hsum := sum_update CallStage.work x.stage i z
  rw [work, work]
  simp only
  omega

theorem work_afterCallback (f : LongId) (m : CacheState) (r : Request) :
    (afterCallback f m r).work ≤ 1 := by
  cases r with
  | read _ => exact Nat.le_refl 1
  | flush _ _ => exact Nat.zero_le 1
  | evict data w =>
    rw [afterCallback]
    split_ifs <;> exact Nat.zero_le 1

/-- Every step of the threads is one less to take, except the call of `cacheMaintenance`, which can
make new requests. -/
theorem Moved.work_lt {e : DiskEvent N} (hs : Moved cfg x e y) (he : e.own)
    (hno : ∀ i busy asks, e ≠ .maintenance i busy asks) : y.work < x.work := by
  cases hs with
  | idle i caller ht hi =>
    have hlt : caller.work < x.caller.work := (ht.own trivial).2.2.1
    have hwork : 4 * caller.work + ∑ i, (x.stage i).work < x.work := by
      rw [work]
      omega
    exact hwork
  | take i caller f r ht hi =>
    have hlt : caller.work < x.caller.work := (ht.own trivial).2.2.1
    have hle := (CallStage.request f r).work_le
    exact work_restage (by omega)
  | complete i f r m hi hm =>
    obtain ⟨-, -, -, hafter, hbefore⟩ := CacheState.complete_cases hm
    exact work_restage (by rw [hi, hafter, hbefore]; omega)
  | callback i f r m hi hm =>
    obtain ⟨-, -, -, hbefore⟩ := CacheState.callback_cases hm
    have hafter := work_afterCallback f m r
    exact work_restage (by rw [hi, hbefore]; omega)
  | maintenance i busy asks m caller hi hm => exact absurd rfl (hno i busy asks)
  | finish i caller hi ht =>
    have hlt : caller.work < x.caller.work := (ht.own trivial).2.2.1
    refine work_restage ?_
    rw [hi, CallStage.work, CallStage.work]
    omega
  | spurious => exact he.elim

/-- The threads cannot go on for ever while the client has the mutex. -/
theorem Moved.work_lt_of_held {e : DiskEvent N} (hs : Moved cfg x e y) (he : e.own)
    (ho : x.cache.owner .fileCacheMutex = some .client) : y.work < x.work := by
  refine hs.work_lt he ?_
  rintro i busy asks rfl
  cases hs with
  | maintenance _ _ _ m caller hi hm => exact not_maintenance_of_held ho hm

/-- No thread can take a step. -/
def AtRest (cfg : Config) (x : DiskCache N) : Prop :=
  ∀ e : DiskEvent N, e.own → env cfg e x = none

theorem AtRest.not_looping (h : AtRest cfg x) (i : Fin N) : x.caller.threads i ≠ .looping := by
  intro hi
  have hstep := h (.lock i) trivial
  rw [env, FunctionCaller.step, hi] at hstep
  cases hz : (x.caller.threadLoop i).threads i <;>
    simp only [Option.bind_eq_bind, Option.bind_some, hz, reduceCtorEq] at hstep

theorem AtRest.not_returned (h : AtRest cfg x) {i : Fin N} {q : StorageCall}
    (hi : x.caller.threads i = .calling q) : x.stage i ≠ .returned := by
  intro hz
  have hstep := h (.finish i) trivial
  rw [env, hz, FunctionCaller.step, hi] at hstep
  cases hstep

/-- A write of `flushCache` that a thread has come to is answered. -/
theorem AtRest.not_isFlush (h : AtRest cfg x) (hx : Books x)
    (ho : x.cache.owner .fileCacheMutex = some .client) (i : Fin N) :
    (x.stage i).isFlush = false := by
  cases hi : x.stage i with
  | idle | maintenance | returned | stuck => rfl
  | request f r =>
    cases r with
    | read | evict => rfl
    | flush data w =>
      have hp : (f, .flush data w) ∈ x.cache.pending :=
        hx.mem_pending (by rw [hi]; exact Multiset.mem_singleton_self _)
      cases w with
      | false =>
        have hstep := h (.complete i) trivial
        rw [env, hi] at hstep
        simp only [CacheState.env, if_pos hp, Option.map_some, reduceCtorEq] at hstep
      | true =>
        obtain ⟨m, hm⟩ : ∃ m, x.cache.env cfg (.callback f (.flush data true)) = some m :=
          CacheState.exists_flushCb hx.flights ho hp
        have hstep := h (.callback i) trivial
        rw [env, hi] at hstep
        simp only [hm, Option.map_some, reduceCtorEq] at hstep

/-- When no thread can go on, every one of them is in a callback that needs the mutex, or all writes
of `flushCache` are answered. -/
theorem AtRest.needs (h : AtRest cfg x) (hx : Books x)
    (ho : x.cache.owner .fileCacheMutex = some .client) :
    x.cache.remaining = 0 ∨ ∀ i, (x.stage i).needs = 1 := by
  by_cases hq : x.caller.queue = []
  · left
    rw [hx.flights.remaining ho, flushes, Multiset.countP_eq_zero]
    intro q hmem
    rw [hx.pending, hq, Multiset.coe_nil, zero_add] at hmem
    obtain ⟨i, -, hi⟩ := Multiset.mem_sum.1 hmem
    rw [← isFlush_of_inCall hi, h.not_isFlush hx ho i]
    simp
  · right
    intro i
    have hnone : x.caller.awake = 0 := Finset.sum_eq_zero fun j _ => by
      cases hj : x.caller.threads j with
      | looping => exact absurd hj (h.not_looping j)
      | waiting | calling | ended => rfl
    have hstage : x.stage i ≠ .idle ∧ x.stage i ≠ .returned := by
      cases hi : x.caller.threads i with
      | looping => exact absurd hi (h.not_looping i)
      | waiting =>
        have hlen := (hx.good.waits i hi).2
        rw [hnone, Nat.le_zero, List.length_eq_zero_iff] at hlen
        exact absurd hlen hq
      | ended =>
        have hrun := hx.good.ended i hi
        rw [hx.running] at hrun
        cases hrun
      | calling q => exact ⟨hx.busy i q hi, h.not_returned hi⟩
    have hflush := h.not_isFlush hx ho i
    cases hi : x.stage i with
    | idle => exact absurd hi hstage.1
    | returned => exact absurd hi hstage.2
    | maintenance | stuck => rfl
    | request f r =>
      rw [hi] at hflush
      rw [CallStage.needs, if_neg (by rw [show r.isFlush = false from hflush]; simp)]

theorem Books.env {e : DiskEvent N} (h : Books x) (he : DiskCache.env cfg e x = some y) : Books y :=
  h.moved (moved_of_env he)

theorem Books.run {α : Type} {ok : DiskCache N → CacheOp → Prop} {p q : TreeM α} (h : Books x)
    (hrun : (diskMachine N cfg).Run ok p x q y) : Books y :=
  hrun.invariant h (fun _ _ _ _ _ h _ hc => h.client hc) fun _ _ _ h he => h.env he

/-- With as many callbacks in the way as there are threads, the client waits for ever. -/
theorem Books.waits {α : Type} {ok : DiskCache N → CacheOp → Prop} {k : Unit → TreeM α}
    {q : TreeM α} (h : Books x) (ho : x.cache.owner .fileCacheMutex = some .client)
    (hr : 0 < x.cache.remaining)
    (hN : N ≤ x.outstanding) (hrun : (diskMachine N cfg).Run ok (.call .flushWait k) x q y) :
    q = .call .flushWait k ∧ 0 < y.cache.remaining := by
  generalize hp : (Prog.call CacheOp.flushWait k : TreeM α) = p at hrun
  induction hrun with
  | refl => exact ⟨rfl, hr⟩
  | client c _ hc _ _ =>
    cases hp
    obtain ⟨hm, -⟩ := client_cases hc
    obtain ⟨-, hzero, -⟩ := CacheState.flushWait_cases hm
    rw [hzero] at hr
    cases hr
  | env d hd _ ih =>
    have hs := moved_of_env hd
    exact ih (h.moved hs) (owner_moved hs ho) (by rwa [h.remaining_moved hs ho hN])
      (by rwa [h.outstanding_moved hs ho]) hp

/-- With fewer of them, the threads come to rest after all writes of `flushCache`. -/
theorem Books.answers (h : Books x) (ho : x.cache.owner .fileCacheMutex = some .client)
    (hN : x.outstanding < N) {es : List (DiskEvent N)} (hown : ∀ e ∈ es, e.own)
    (hplay : play (DiskCache.env cfg) es x = some y) :
    es.length ≤ 8 * (x.caller.queue.length + N) + 3 * N ∧
      (AtRest cfg y →
        y.cache.owner .fileCacheMutex = some .client ∧ y.cache.remaining = 0) := by
  obtain ⟨⟨hbooks, ho', hout⟩, hle⟩ := play_bounded
    (I := fun z => Books z ∧ z.cache.owner .fileCacheMutex = some .client ∧ z.outstanding < N)
    (w := work) hplay ⟨h, ho, hN⟩ fun e he z z' hz hstep => by
      obtain ⟨hz, hzo, hzN⟩ := hz
      have hs := moved_of_env hstep
      exact ⟨⟨hz.moved hs, owner_moved hs hzo, by rwa [hz.outstanding_moved hs hzo]⟩,
        hs.work_lt_of_held (hown e he) hzo⟩
  refine ⟨by have := x.work_le; omega, fun hrest => ⟨ho', ?_⟩⟩
  refine (hrest.needs hbooks ho').resolve_right fun hall => ?_
  have hsum : ∑ i, (y.stage i).needs = ∑ _i : Fin N, 1 := Finset.sum_congr rfl fun i _ => hall i
  rw [Finset.sum_const, Finset.card_univ, Fintype.card_fin, smul_eq_mul, mul_one] at hsum
  rw [outstanding, hsum] at hout
  omega

end DiskCache

/-- **When `flushCache` returns.**  In every state that a client can reach in which `flushCache`
waits for writes, with `file_cache_mutex` held: if as many callbacks that need this mutex are under
way as the storage has threads, `flushCache` waits for ever in every schedule; if there are fewer,
the threads rest after boundedly many steps in every schedule, and then `flushCache` returns. -/
theorem flushCache_returns {α : Type} {N : ℕ} {cfg : Config}
    {storage : LongId → Option ByteVec} {p : TreeM α} {k : Unit → TreeM α} {x : DiskCache N}
    (hrun : (diskMachine N cfg).Run (fun _ _ => True) p (.opened N storage) (.call .flushWait k) x)
    (ho : x.cache.owner .fileCacheMutex = some .client) (hr : 0 < x.cache.remaining) :
    (N ≤ x.outstanding → ∀ q y, (diskMachine N cfg).Run (fun _ _ => True) (.call .flushWait k) x q y →
      q = .call .flushWait k ∧ 0 < y.cache.remaining) ∧
    (x.outstanding < N → ∀ es y, (∀ e ∈ es, e.own) → play (DiskCache.env cfg) es x = some y →
      es.length ≤ 8 * (x.caller.queue.length + N) + 3 * N ∧
        (DiskCache.AtRest cfg y →
          ∃ c y', (diskMachine N cfg).client c .flushWait y = some ((), y'))) := by
  have h : DiskCache.Books x := (DiskCache.Books.opened N storage).run hrun
  refine ⟨fun hN q y => h.waits ho hr hN, fun hN es y hown hplay => ?_⟩
  obtain ⟨hle, hanswered⟩ := h.answers ho hN hown hplay
  refine ⟨hle, fun hrest => ?_⟩
  obtain ⟨ho', hzero⟩ := hanswered hrest
  have hwait : CacheState.client cfg .plain .flushWait y.cache =
      some ((), y.cache.unlock .fileCacheMutex) := if_pos ⟨ho', hzero⟩
  have hc : DiskCache.client cfg (.plain, []) .flushWait y =
      some ((), { y with cache := y.cache.unlock .fileCacheMutex }) := by
    simp only [DiskCache.client, hwait]
    exact if_pos (zero_add _).symm
  exact ⟨_, _, hc⟩

/-- The requests that the client makes in a step, in order. -/
def CacheState.calls (cfg : Config) (m : CacheState) (o : CacheOp) : List StorageCall :=
  match o, CacheState.client cfg .plain o m with
  | .getNodeFile f, some _ => if (m.files f).isNone then [(f, .read none)] else []
  | .cacheMaintenance, some (_, m') => m'.order.reverse.filterMap fun f =>
    if m'.state f = some .evicting ∧ m.state f ≠ some .evicting then
      (m'.files f).map fun file => (f, .evict (serialize file.data) false)
    else none
  | .flushFile f, some _ => ((m.files f).filter fun file =>
      decide (file.nodeState ≠ .loading) && file.isModified).toList.map fun file =>
        (f, .flush (serialize file.data) false)
  | _, _ => []

/-- One thread, and an eviction in its queue when `flushCache` is called. -/
theorem flushCache_returns_crowded :
    let cfg := { Config.sample with maxCacheSize := 6 }
    ∃ (k : Unit → TreeM Client) (x : DiskCache 1), x.outstanding = 1 ∧
      (1 ≤ x.outstanding → ∀ q y,
        (diskMachine 1 cfg).Run (fun _ _ => True) (.call .flushWait k) x q y →
          q = .call .flushWait k ∧ 0 < y.cache.remaining) ∧
      (x.outstanding < 1 → ∀ es y, (∀ e ∈ es, e.own) →
        play (DiskCache.env cfg) es x = some y →
          es.length ≤ 8 * (x.caller.queue.length + 1) + 3 * 1 ∧ (DiskCache.AtRest cfg y →
            ∃ c y', (diskMachine 1 cfg).client c .flushWait y = some ((), y'))) := by
  intro cfg
  let choose (o : CacheOp) (x : DiskCache 1) : CacheChoice × Asks 1 :=
    (.plain, (x.cache.calls cfg o).map fun q => (q, none))
  let p := life cfg true (crowded ++ [.flushCache])
  let test (x : TreeM Client × DiskCache 1) : Bool := atFlushWait (x.1, x.2.cache) &&
    decide (x.2.outstanding = 1) && decide (x.2.cache.owner .fileCacheMutex = some .client) &&
      decide (0 < x.2.cache.remaining)
  have hrun : (diskMachine 1 cfg).Run (fun _ _ => True) p (.opened 1 fun _ => none) _ _ :=
    .of_drive choose (fun _ => []) 357
  have htest : test ((diskMachine 1 cfg).drive choose (fun _ => []) 357 p
      (.opened 1 fun _ => none)) = true := by
    decide +kernel
  generalize (diskMachine 1 cfg).drive choose (fun _ => []) 357 p (.opened 1 fun _ => none) = x
    at hrun htest
  simp only [test, Bool.and_eq_true, decide_eq_true_eq] at htest
  obtain ⟨⟨⟨hat, hout⟩, ho⟩, hr⟩ := htest
  obtain ⟨⟨k, hk⟩, -⟩ := of_atFlushWait hat
  rw [hk] at hrun
  exact ⟨k, x.2, hout, flushCache_returns hrun ho hr⟩

end MegaTree
