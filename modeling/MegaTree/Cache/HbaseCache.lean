import MegaTree.Cache.MappedFile
import MegaTree.Storage.HbaseStorage

/-!
# The file cache over the HBase storage

`getAsync` and `putAsync` put the requests of the cache into two queues.  Reader threads and a
writer thread take batches from them, and the server handles the rows of a batch one by one, in any
order, while it handles those of other threads.  Then the thread runs the callbacks of its batch, one
after the other.

* `hbaseMachine` : the cache of `cacheMachine`, whose requests wait in the queues or with the
  threads.  A row that is not there can abort the process, or lose the requests of its batch.
* `hbaseMachine_refines` : whatever the server does, the cache makes the steps of `cacheMachine`.
* `Books` : every request in flight is in its queue or with one of its threads.
* `hbase_transparent` : a tree never asks for a row that is not there; so the process does not abort
  and no request is lost, and the client cannot tell the storage from a store in memory.
-/

namespace MegaTree

open Effect

/-! ### The definitions -/

namespace Hbase

/-- `NUM_WRITER_THREADS` -/
abbrev numWriterThreads : ℕ := 1

/-- `ASYNC_WRITE_BATCH_SIZE` -/
def asyncWriteBatchSize : ℕ := 100

end Hbase

/-- `read_queue` and `write_queue`, each with its mutex, its condition and its threads. -/
inductive HbaseQueue where
  | read
  | write
  deriving DecidableEq

instance : Fintype HbaseQueue := ⟨{.read, .write}, fun s => by cases s <;> simp⟩

/-- A thread of the readers or of the writers. -/
abbrev HbaseThreadId := Fin Hbase.numReaderThreads ⊕ Fin Hbase.numWriterThreads

/-- The queue that a request is put into. -/
def Request.queue : Request → HbaseQueue
  | .read _ => .read
  | .evict _ _ | .flush _ _ => .write

/-- Where a thread is: before it takes the mutex of its queue; in `wait`; in `getBatch` or
`putBatch`, with the requests of its batch and whether the server has handled their rows; before its
next callback; or in a callback, with those that come after it: in the call of `cacheMaintenance` of
`readNodeFileCb`, or where it waits for itself. -/
inductive HbaseThread where
  | looping
  | waiting
  | requesting (batch : List (StorageCall × Bool))
  | answering (calls : List StorageCall)
  | maintenance (calls : List StorageCall)
  | stuck (calls : List StorageCall)

/-- The threads that serve a queue, and the size of the batches that they take. -/
def HbaseThreadId.queue : HbaseThreadId → HbaseQueue
  | .inl _ => .read
  | .inr _ => .write

def HbaseQueue.batchSize : HbaseQueue → ℕ
  | .read => Hbase.asyncReadBatchSize
  | .write => Hbase.asyncWriteBatchSize

namespace HbaseThread

/-- The requests that a thread holds, in the order of their callbacks. -/
def calls : HbaseThread → List StorageCall
  | looping | waiting => []
  | requesting batch => batch.map Prod.fst
  | answering calls | maintenance calls | stuck calls => calls

def isWaiting : HbaseThread → Bool
  | waiting => true
  | looping | requesting _ | answering _ | maintenance _ | stuck _ => false

end HbaseThread

/-- The cache, whose `storage` is the table, the queues and the threads of its storage, and whether
the process has aborted. -/
structure HbaseCache where
  cache : CacheState
  queue : HbaseQueue → List StorageCall
  threads : HbaseThreadId → HbaseThread
  aborted : Bool

/-- The requests that a step makes, in order, and the thread that each one notifies. -/
abbrev HbaseAsks := List (StorageCall × Option HbaseThreadId)

/-- A step of a thread, of the server for a thread, or a wake-up for no reason. -/
inductive HbaseEvent where
  | take (t : HbaseThreadId)
  | serve (t : HbaseThreadId) (k : ℕ)
  | reply (t : HbaseThreadId)
  | callback (t : HbaseThreadId)
  | maintenance (t : HbaseThreadId) (busy : LongId → Bool) (asks : HbaseAsks)
  | loop (t : HbaseThreadId)
  | spurious (t : HbaseThreadId)

/-- The steps that the threads and the server take by themselves. -/
def HbaseEvent.own : HbaseEvent → Prop
  | .take _ | .serve _ _ | .reply _ | .callback _ | .maintenance .. | .loop _ => True
  | .spurious _ => False

namespace HbaseCache

/-- Thread `t` goes on to `thread`. -/
def setThread (x : HbaseCache) (t : HbaseThreadId) (thread : HbaseThread) : HbaseCache :=
  { x with threads := Function.update x.threads t thread }

/-- `getAsync` or `putAsync`: `push_back` and `notify_one`, which wakes a thread if one waits. -/
def addRequest (x : HbaseCache) (q : StorageCall) : Option HbaseThreadId → Option HbaseCache
  | none =>
    if ∀ t : HbaseThreadId, t.queue = q.2.queue → (x.threads t).isWaiting = false then
      some { x with queue := Function.update x.queue q.2.queue (x.queue q.2.queue ++ [q]) }
    else none
  | some t =>
    if t.queue = q.2.queue ∧ (x.threads t).isWaiting = true then
      some { x with
        queue := Function.update x.queue q.2.queue (x.queue q.2.queue ++ [q])
        threads := Function.update x.threads t .looping }
    else none

/-- Some requests, one after the other. -/
def ask (asks : HbaseAsks) (x : HbaseCache) : Option HbaseCache :=
  asks.foldlM (fun x a => x.addRequest a.1 a.2) x

/-- A step of the client, whose requests go to the queues. -/
def client (cfg : Config) (c : CacheChoice × HbaseAsks) (o : CacheOp) (x : HbaseCache) :
    Option (o.Res × HbaseCache) :=
  if x.aborted then none
  else do
    let (r, cache) ← CacheState.client cfg c.1 o x.cache
    let y ← ask c.2 x
    if cache.pending = ↑(c.2.map Prod.fst) + x.cache.pending then
      some (r, { y with cache := cache })
    else none

/-- The thread waits for its queue, or removes a batch from it. -/
def take (t : HbaseThreadId) (x : HbaseCache) : Option HbaseCache :=
  match x.threads t with
  | .looping =>
    if (x.queue t.queue).isEmpty then some (x.setThread t .waiting)
    else
      let batch := (x.queue t.queue).take t.queue.batchSize
      some { x with
        queue := Function.update x.queue t.queue ((x.queue t.queue).drop t.queue.batchSize)
        threads := Function.update x.threads t (.requesting (batch.map fun q => (q, false))) }
  | .waiting | .requesting _ | .answering _ | .maintenance _ | .stuck _ => none

/-- The server handles the `k`-th row of the batch of a thread: it looks the row up, or changes
it.  A read of a row that is not there gets nothing. -/
def serve (cfg : Config) (t : HbaseThreadId) (k : ℕ) (x : HbaseCache) : Option HbaseCache :=
  match x.threads t with
  | .requesting batch =>
    match batch[k]? with
    | some ((f, r), false) => some { x with
        cache := (x.cache.env cfg (.complete f r)).getD x.cache
        threads := Function.update x.threads t
          (.requesting (batch.set k ((f, r.completed (x.cache.storage f)), true))) }
    | some (_, true) | none => none
  | .looping | .waiting | .answering _ | .maintenance _ | .stuck _ => none

/-- The row of the answer to `getRows` for a request. -/
def rowResult : Request → Option Hbase.TRowResult
  | .read (some b) => some ⟨[("data:", b)]⟩
  | .read none | .evict _ _ | .flush _ _ => none

/-- The server has handled all rows, and `getBatch` or `putBatch` returns. -/
def reply (d : ℕ) (t : HbaseThreadId) (x : HbaseCache) : Option HbaseCache :=
  match x.threads t with
  | .requesting batch =>
    if batch.all Prod.snd then
      match t with
      | .inl _ =>
        match Hbase.getBatch (batch.map fun q => q.1.1.filePath d)
            (batch.filterMap fun q => rowResult q.1.2) with
        | none => some { x with aborted := true }
        -- the loop over `results` stops where they do
        | some results => some (x.setThread t (.answering
            ((batch.zip results).map fun p => (p.1.1.1, .read (some p.2)))))
      | .inr _ => some (x.setThread t (.answering (batch.map Prod.fst)))
    else none
  | .looping | .waiting | .answering _ | .maintenance _ | .stuck _ => none

/-- Where a thread is when its callback has run. -/
def afterCallback (f : LongId) (m : CacheState) (calls : List StorageCall) : Request → HbaseThread
  | .read _ => .maintenance calls
  | .evict _ _ =>
    if m.owner .fileCacheMutex = some (.evictNodeFileCb f) then .stuck calls else .answering calls
  | .flush _ _ => .answering calls

/-- The thread runs its next callback. -/
def callback (cfg : Config) (t : HbaseThreadId) (x : HbaseCache) : Option HbaseCache :=
  match x.threads t with
  | .answering ((f, r) :: calls) => (x.cache.env cfg (.callback f r)).map fun cache => { x with
      cache := cache
      threads := Function.update x.threads t (afterCallback f cache calls r) }
  | .answering [] | .looping | .waiting | .requesting _ | .maintenance _ | .stuck _ => none

/-- The steps of the threads and the server. -/
def step (d : ℕ) (cfg : Config) (e : HbaseEvent) (x : HbaseCache) : Option HbaseCache :=
  match e with
  | .take t => x.take t
  | .serve t k => x.serve cfg t k
  | .reply t => x.reply d t
  | .callback t => x.callback cfg t
  | .maintenance t busy asks =>
    match x.threads t with
    | .maintenance calls => do
      let cache ← x.cache.env cfg (.maintenance busy)
      let y ← ask asks x
      if cache.pending = ↑(asks.map Prod.fst) + x.cache.pending then
        some { y with
          cache := cache
          threads := Function.update y.threads t (.answering calls) }
      else none
    | .looping | .waiting | .requesting _ | .answering _ | .stuck _ => none
  | .loop t =>
    match x.threads t with
    | .answering [] => some (x.setThread t .looping)
    | .answering (_ :: _) | .looping | .waiting | .requesting _ | .maintenance _ | .stuck _ => none
  | .spurious t => if (x.threads t).isWaiting then some (x.setThread t .looping) else none

/-- A process that has aborted takes no steps. -/
def env (d : ℕ) (cfg : Config) (e : HbaseEvent) (x : HbaseCache) : Option HbaseCache :=
  if x.aborted then none else x.step d cfg e

/-- A tree is opened. -/
def opened (storage : LongId → Option ByteVec) : HbaseCache :=
  ⟨.opened storage, fun _ => [], fun _ => .looping, false⟩

end HbaseCache

/-- The file cache over an `HbaseStorage`, for a tree with folders of the depth `d`. -/
def hbaseMachine (d : ℕ) (cfg : Config) :
    Machine cacheSig (CacheChoice × HbaseAsks) HbaseEvent HbaseCache :=
  ⟨HbaseCache.client cfg, HbaseCache.env d cfg⟩

/-! ### The steps -/

variable {d : ℕ} {cfg : Config} {x y : HbaseCache} {t : HbaseThreadId} {f : LongId} {r : Request}
  {m m' : CacheState}

namespace HbaseCache

/-- What a step of the threads and the server can be. -/
inductive Moved (d : ℕ) (cfg : Config) (x : HbaseCache) : HbaseEvent → HbaseCache → Prop
  | rest (t : HbaseThreadId) (ht : x.threads t = .looping) (hq : x.queue t.queue = []) :
      Moved d cfg x (.take t) (x.setThread t .waiting)
  | take (t : HbaseThreadId) (batch rest : List StorageCall) (ht : x.threads t = .looping)
      (hq : x.queue t.queue = batch ++ rest) (hb : batch ≠ []) :
      Moved d cfg x (.take t) { x with
        queue := Function.update x.queue t.queue rest
        threads := Function.update x.threads t (.requesting (batch.map fun q => (q, false))) }
  | serve (t : HbaseThreadId) (k : ℕ) (batch : List (StorageCall × Bool)) (f : LongId)
      (r : Request) (ht : x.threads t = .requesting batch) (hk : batch[k]? = some ((f, r), false)) :
      Moved d cfg x (.serve t k) { x with
        cache := (x.cache.env cfg (.complete f r)).getD x.cache
        threads := Function.update x.threads t
          (.requesting (batch.set k ((f, r.completed (x.cache.storage f)), true))) }
  | abort (i : Fin Hbase.numReaderThreads) (batch : List (StorageCall × Bool))
      (ht : x.threads (.inl i) = .requesting batch) (hb : ∀ row ∈ batch, row.2 = true)
      (hg : Hbase.getBatch (batch.map fun q => q.1.1.filePath d)
        (batch.filterMap fun q => rowResult q.1.2) = none) :
      Moved d cfg x (.reply (.inl i)) { x with aborted := true }
  | read (i : Fin Hbase.numReaderThreads) (batch : List (StorageCall × Bool))
      (results : List ByteVec) (ht : x.threads (.inl i) = .requesting batch)
      (hb : ∀ row ∈ batch, row.2 = true)
      (hg : Hbase.getBatch (batch.map fun q => q.1.1.filePath d)
        (batch.filterMap fun q => rowResult q.1.2) = some results) :
      Moved d cfg x (.reply (.inl i)) (x.setThread (.inl i) (.answering
        ((batch.zip results).map fun p => (p.1.1.1, .read (some p.2)))))
  | write (i : Fin Hbase.numWriterThreads) (batch : List (StorageCall × Bool))
      (ht : x.threads (.inr i) = .requesting batch) (hb : ∀ row ∈ batch, row.2 = true) :
      Moved d cfg x (.reply (.inr i)) (x.setThread (.inr i) (.answering (batch.map Prod.fst)))
  | callback (t : HbaseThreadId) (f : LongId) (r : Request) (calls : List StorageCall)
      (m : CacheState) (ht : x.threads t = .answering ((f, r) :: calls))
      (hm : x.cache.env cfg (.callback f r) = some m) : Moved d cfg x (.callback t) { x with
        cache := m
        threads := Function.update x.threads t (afterCallback f m calls r) }
  | maintenance (t : HbaseThreadId) (busy : LongId → Bool) (asks : HbaseAsks)
      (calls : List StorageCall) (m : CacheState) (z : HbaseCache)
      (ht : x.threads t = .maintenance calls) (hm : x.cache.env cfg (.maintenance busy) = some m)
      (ha : ask asks x = some z) (hp : m.pending = ↑(asks.map Prod.fst) + x.cache.pending) :
      Moved d cfg x (.maintenance t busy asks) { z with
        cache := m
        threads := Function.update z.threads t (.answering calls) }
  | loop (t : HbaseThreadId) (ht : x.threads t = .answering []) :
      Moved d cfg x (.loop t) (x.setThread t .looping)
  | spurious (t : HbaseThreadId) (ht : x.threads t = .waiting) :
      Moved d cfg x (.spurious t) (x.setThread t .looping)

theorem of_isWaiting {z : HbaseThread} (h : z.isWaiting = true) : z = .waiting := by
  cases z with
  | waiting => rfl
  | looping | requesting | answering | maintenance | stuck => cases h

theorem batchSize_pos (s : HbaseQueue) : 0 < s.batchSize := by
  cases s <;> decide

theorem moved_of_env {e : HbaseEvent} (h : env d cfg e x = some y) : Moved d cfg x e y := by
  obtain ⟨-, h⟩ := Option.ite_none_left_eq_some.1 h
  cases e with
  | take t =>
    simp only [step, HbaseCache.take] at h
    split at h
    · next ht =>
      split_ifs at h with hq
      · obtain rfl := Option.some.inj h
        exact .rest t ht (List.isEmpty_iff.1 hq)
      · obtain rfl := Option.some.inj h
        refine .take t _ _ ht (List.take_append_drop _ _).symm fun hnil => hq ?_
        rw [List.take_eq_nil_iff] at hnil
        exact List.isEmpty_iff.2 (hnil.resolve_left (batchSize_pos _).ne')
    all_goals cases h
  | serve t k =>
    simp only [step, HbaseCache.serve] at h
    split at h
    · next batch ht =>
      split at h
      · next f r hk =>
        obtain rfl := Option.some.inj h
        exact .serve t k batch f r ht hk
      all_goals cases h
    all_goals cases h
  | reply t =>
    simp only [step, HbaseCache.reply] at h
    split at h
    · next batch ht =>
      split_ifs at h with hb
      rw [List.all_eq_true] at hb
      cases t with
      | inl i =>
        simp only at h
        split at h
        · next hg =>
          obtain rfl := Option.some.inj h
          exact .abort i batch ht hb hg
        · next results hg =>
          obtain rfl := Option.some.inj h
          exact .read i batch results ht hb hg
      | inr i =>
        obtain rfl := Option.some.inj h
        exact .write i batch ht hb
    all_goals cases h
  | callback t =>
    simp only [step, HbaseCache.callback] at h
    split at h
    · next f r calls ht =>
      obtain ⟨m, hm, rfl⟩ := Option.map_eq_some_iff.1 h
      exact .callback t f r calls m ht hm
    all_goals cases h
  | maintenance t busy asks =>
    simp only [step] at h
    split at h
    · next calls ht =>
      obtain ⟨m, hm, h⟩ := Option.bind_eq_some_iff.1 h
      obtain ⟨z, ha, h⟩ := Option.bind_eq_some_iff.1 h
      obtain ⟨hp, h⟩ := Option.ite_none_right_eq_some.1 h
      obtain rfl := Option.some.inj h
      exact .maintenance t busy asks calls m z ht hm ha hp
    all_goals cases h
  | loop t =>
    simp only [step] at h
    split at h
    · next ht =>
      obtain rfl := Option.some.inj h
      exact .loop t ht
    all_goals cases h
  | spurious t =>
    obtain ⟨ht, h⟩ := Option.ite_none_right_eq_some.1 h
    obtain rfl := Option.some.inj h
    exact .spurious t (of_isWaiting ht)

theorem client_cases {c : CacheChoice × HbaseAsks} {o : CacheOp} {a : o.Res}
    (h : client cfg c o x = some (a, y)) : x.aborted = false ∧
      CacheState.client cfg c.1 o x.cache = some (a, y.cache) ∧
      ∃ z, ask c.2 x = some z ∧ y = { z with cache := y.cache } ∧
        y.cache.pending = ↑(c.2.map Prod.fst) + x.cache.pending := by
  obtain ⟨hab, h⟩ := Option.ite_none_left_eq_some.1 h
  obtain ⟨⟨b, m⟩, hm, h⟩ := Option.bind_eq_some_iff.1 h
  obtain ⟨z, ha, h⟩ := Option.bind_eq_some_iff.1 h
  obtain ⟨hp, h⟩ := Option.ite_none_right_eq_some.1 h
  obtain ⟨rfl, rfl⟩ := Prod.mk.inj (Option.some.inj h)
  exact ⟨Bool.eq_false_of_not_eq_true hab, hm, z, ha, rfl, hp⟩

/-- What some requests do: each goes to the end of its queue, and threads that wait wake up. -/
structure Asked (asks : List StorageCall) (x y : HbaseCache) : Prop where
  cache : y.cache = x.cache
  aborted : y.aborted = x.aborted
  queue : ∀ s, y.queue s = x.queue s ++ asks.filter fun q => q.2.queue = s
  threads : ∀ t, y.threads t = x.threads t ∨ x.threads t = .waiting ∧ y.threads t = .looping

theorem asked_of_addRequest {q : StorageCall} {w : Option HbaseThreadId}
    (h : x.addRequest q w = some y) : Asked [q] x y := by
  have hqueue : ∀ s, Function.update x.queue q.2.queue (x.queue q.2.queue ++ [q]) s =
      x.queue s ++ [q].filter fun q => q.2.queue = s := by
    intro s
    by_cases hs : s = q.2.queue
    · subst hs
      simp
    · simp [Function.update_of_ne hs, Ne.symm hs]
  cases w with
  | none =>
    obtain ⟨-, h⟩ := Option.ite_none_right_eq_some.1 h
    obtain rfl := Option.some.inj h
    exact ⟨rfl, rfl, hqueue, fun _ => .inl rfl⟩
  | some t =>
    obtain ⟨⟨-, ht⟩, h⟩ := Option.ite_none_right_eq_some.1 h
    obtain rfl := Option.some.inj h
    refine ⟨rfl, rfl, hqueue, fun t' => ?_⟩
    by_cases heq : t' = t
    · subst heq
      exact .inr ⟨of_isWaiting ht, Function.update_self ..⟩
    · exact .inl (Function.update_of_ne heq ..)

theorem asked_of_ask {asks : HbaseAsks} (h : ask asks x = some y) :
    Asked (asks.map Prod.fst) x y := by
  induction asks generalizing x with
  | nil =>
    obtain rfl := Option.some.inj h
    exact ⟨rfl, rfl, fun s => (List.append_nil _).symm, fun _ => .inl rfl⟩
  | cons a asks ih =>
    obtain ⟨z, hz, h⟩ := Option.bind_eq_some_iff.1 h
    have hfirst := asked_of_addRequest hz
    have hrest := ih h
    refine ⟨hrest.cache.trans hfirst.cache, hrest.aborted.trans hfirst.aborted, fun s => ?_,
      fun t => ?_⟩
    · rw [hrest.queue, hfirst.queue, List.append_assoc, ← List.filter_append]
      rfl
    · rcases hrest.threads t with ht | ⟨ht, ht'⟩
      · rw [ht]
        exact hfirst.threads t
      · rcases hfirst.threads t with hz | ⟨hz, -⟩
        · exact .inr ⟨hz ▸ ht, ht'⟩
        · exact .inr ⟨hz, ht'⟩

end HbaseCache

/-- **The HBase storage is one of the storages of `cacheMachine`.**  Without the queues and the
threads, a step of the cache over it is a step of the cache, or none. -/
theorem hbaseMachine_refines (d : ℕ) (cfg : Config) :
    (hbaseMachine d cfg).Refines (cacheMachine cfg) HbaseCache.cache where
  client h := ⟨_, (HbaseCache.client_cases h).2.1⟩
  env h := by
    cases HbaseCache.moved_of_env h with
    | rest | take | abort | read | write | loop | spurious => exact .inl rfl
    | serve t k batch f r ht hk =>
      cases hm : CacheState.env cfg (.complete f r) _ with
      | none => exact .inl rfl
      | some m => exact .inr ⟨.complete f r, hm⟩
    | callback t f r calls m ht hm => exact .inr ⟨.callback f r, hm⟩
    | maintenance t busy asks calls m z ht hm => exact .inr ⟨.maintenance busy, hm⟩

/-! ### The books of the storage -/

/-- The storage can do its part of a new request, if the file of a read is there. -/
theorem CacheState.exists_complete (hp : (f, r) ∈ m.pending) (hr : r.isCompleted = false)
    (hs : r.data = none → (m.storage f).isSome) : ∃ m', m.env cfg (.complete f r) = some m' := by
  rcases r with (_ | b) | ⟨data, _ | _⟩ | ⟨data, _ | _⟩
  · obtain ⟨b, hb⟩ := Option.isSome_iff_exists.1 (hs rfl)
    exact ⟨_, by simp only [CacheState.env, if_pos hp, hb, Option.map_some]; rfl⟩
  · cases hr
  · exact ⟨_, if_pos hp⟩
  · cases hr
  · exact ⟨_, if_pos hp⟩
  · cases hr

theorem Request.isCompleted_completed {stored : Option ByteVec}
    (h : r.data = none → stored.isSome) : (r.completed stored).isCompleted = true := by
  cases r with
  | read => exact h rfl
  | evict | flush => rfl

theorem Request.queue_completed (stored : Option ByteVec) :
    (r.completed stored).queue = r.queue := by
  cases r <;> rfl

/-- The requests that `cacheMaintenance` makes. -/
theorem CacheState.made_maintenance {busy : LongId → Bool}
    (hc : m.cacheMaintenance cfg busy = some m') : ∃ new : Multiset StorageCall,
      m'.pending = new + m.pending ∧ ∀ q ∈ new, q.2.isCompleted = false ∧ q.2.isFlush = false := by
  refine cacheMaintenance_induct (P := fun x => ∃ new : Multiset StorageCall,
    x.pending = new + m.pending ∧ ∀ q ∈ new, q.2.isCompleted = false ∧ q.2.isFlush = false)
    (fun _ _ _ h _ _ _ _ => h) ?_ hc ⟨0, (zero_add _).symm, fun _ h => by simp at h⟩
  rintro x f file ⟨new, hp, hnew⟩ - - - -
  refine ⟨(f, .evict (serialize file.data) false) ::ₘ new, ?_, fun q hq => ?_⟩
  · rw [Multiset.cons_add, ← hp]
    rfl
  · rcases Multiset.mem_cons.1 hq with rfl | hq
    · exact ⟨rfl, rfl⟩
    · exact hnew q hq

/-- The requests that the client makes in a step: writes of `flushCache`, which has the mutex, or
others, while the mutex is free. -/
theorem CacheState.made_client {c : CacheChoice} {o : CacheOp} {a : o.Res}
    (h : CacheState.client cfg c o m = some (a, m')) : ∃ new : Multiset StorageCall,
      m'.pending = new + m.pending ∧ (∀ q ∈ new, q.2.isCompleted = false) ∧
      (new = 0 ∨
        m.owner .fileCacheMutex = some .client ∧ (∀ q ∈ new, q.2.isFlush = true) ∨
        m.owner .fileCacheMutex = none ∧ ∀ q ∈ new, q.2.isFlush = false) := by
  have hnone : m'.pending = m.pending → ∃ new : Multiset StorageCall, m'.pending = new + m.pending ∧
      (∀ q ∈ new, q.2.isCompleted = false) ∧
      (new = 0 ∨ m.owner .fileCacheMutex = some .client ∧ (∀ q ∈ new, q.2.isFlush = true) ∨
        m.owner .fileCacheMutex = none ∧ ∀ q ∈ new, q.2.isFlush = false) :=
    fun hp => ⟨0, hp.trans (zero_add _).symm, fun _ hq => by simp at hq, .inl rfl⟩
  cases CacheState.ClientStep.of_client h with
  | worked _ _ hw => exact hnone hw.pending
  | opened f modified ho hf =>
    refine ⟨{(f, .read none)}, (Multiset.singleton_add _ _).symm, fun q hq => ?_,
      .inr (.inr ⟨ho, fun q hq => ?_⟩)⟩ <;> rw [Multiset.mem_singleton.1 hq] <;> rfl
  | maintenance busy _ hc =>
    obtain ⟨new, hp, hnew⟩ := CacheState.made_maintenance hc
    exact ⟨new, hp, fun q hq => (hnew q hq).1,
      .inr (.inr ⟨Flights.free_of_maintenance hc, fun q hq => (hnew q hq).2⟩)⟩
  | flushFile f file ho hf hs hm =>
    refine ⟨{(f, .flush (serialize file.data) false)}, (Multiset.singleton_add _ _).symm,
      fun q hq => ?_, .inr (.inl ⟨ho, fun q hq => ?_⟩)⟩ <;> rw [Multiset.mem_singleton.1 hq] <;> rfl
  | found | created | flushBegin | flushWait => exact hnone rfl

/-- What a thread of the queue `s` can hold: the server has done its part of the requests whose
callbacks are to come, and of those of the batch that it has handled. -/
def HbaseThread.Holds (s : HbaseQueue) : HbaseThread → Prop
  | looping | waiting => True
  | requesting batch => ∀ row ∈ batch, row.1.2.isCompleted = row.2 ∧ row.1.2.queue = s
  | answering calls | maintenance calls | stuck calls =>
    ∀ q ∈ calls, q.2.isCompleted = true ∧ q.2.queue = s

namespace HbaseCache

/-- The requests in the queues and with the threads. -/
def held (x : HbaseCache) : Multiset StorageCall :=
  ∑ s, (x.queue s : Multiset StorageCall) + ∑ t, ((x.threads t).calls : Multiset StorageCall)

/-- The process has not aborted, and every request in flight is in its queue or with a thread that
serves this queue. -/
structure Books (x : HbaseCache) : Prop where
  flights : Flights x.cache
  running : x.aborted = false
  pending : x.cache.pending = x.held
  queued : ∀ s, ∀ q ∈ x.queue s, q.2.isCompleted = false ∧ q.2.queue = s
  holds : ∀ t, (x.threads t).Holds t.queue

theorem Books.opened (storage : LongId → Option ByteVec) : Books (opened storage) where
  flights := .opened storage
  running := rfl
  pending := by simp [HbaseCache.opened, CacheState.opened, held, HbaseThread.calls]
  queued s q hq := absurd hq List.not_mem_nil
  holds t := trivial

/-- A thread holds a request that is in flight. -/
theorem Books.mem_pending (h : Books x) {q : StorageCall} (hq : q ∈ (x.threads t).calls) :
    q ∈ x.cache.pending := by
  rw [h.pending]
  exact Multiset.mem_add.2 (.inr (Multiset.mem_sum.2 ⟨t, Finset.mem_univ t, hq⟩))

theorem Books.queue_pending (h : Books x) {s : HbaseQueue} {q : StorageCall} (hq : q ∈ x.queue s) :
    q ∈ x.cache.pending := by
  rw [h.pending]
  exact Multiset.mem_add.2 (.inl (Multiset.mem_sum.2 ⟨s, Finset.mem_univ s, hq⟩))

/-- A step of a thread that leaves its queue. -/
theorem Books.setThread (h : Books x) {z : HbaseThread} (hm : Flights m)
    (hp : m.pending + (x.threads t).calls = x.cache.pending + z.calls) (hz : z.Holds t.queue) :
    Books { x with
      cache := m
      threads := Function.update x.threads t z } where
  flights := hm
  running := h.running
  pending := by
    have hsum := sum_update (fun z => (z.calls : Multiset StorageCall)) x.threads t z
    refine add_right_cancel (b := ((x.threads t).calls : Multiset StorageCall)) ?_
    rw [hp, h.pending, held, held, add_assoc, add_assoc]
    exact congrArg _ hsum.symm
  queued := h.queued
  holds t' := by
    by_cases ht : t' = t
    · subst ht
      simpa only [Function.update_self] using hz
    · simpa only [Function.update_of_ne ht] using h.holds t'

theorem sum_filter_queue (asks : List StorageCall) :
    ∑ s, ((asks.filter fun q => q.2.queue = s : List StorageCall) : Multiset StorageCall) =
      asks := by
  induction asks with
  | nil => rfl
  | cons q asks ih =>
    rw [show (Finset.univ : Finset HbaseQueue) = {.read, .write} from rfl,
      Finset.sum_pair (by decide)] at ih ⊢
    rw [← Multiset.cons_coe, ← ih]
    cases hq : q.2.queue <;> simp [hq, ← Multiset.cons_coe]

theorem Asked.held {asks : List StorageCall} (h : Asked asks x y) : y.held = ↑asks + x.held := by
  have hcalls : ∀ t, (y.threads t).calls = (x.threads t).calls := by
    intro t
    rcases h.threads t with ht | ⟨ht, ht'⟩
    · rw [ht]
    · rw [ht, ht']
      rfl
  simp only [HbaseCache.held, hcalls, h.queue, ← Multiset.coe_add, Finset.sum_add_distrib,
    sum_filter_queue]
  rw [add_comm (∑ s, (x.queue s : Multiset StorageCall)), add_assoc]

/-- New requests come into the queues. -/
theorem Books.asked (h : Books x) {asks : List StorageCall} (ha : Asked asks x y) (hm : Flights m)
    (hp : m.pending = ↑asks + x.cache.pending) (hnew : ∀ q ∈ asks, q.2.isCompleted = false) :
    Books { y with cache := m } where
  flights := hm
  running := ha.aborted.trans h.running
  pending := by
    rw [hp, h.pending]
    exact ha.held.symm
  queued s q hq := by
    rcases List.mem_append.1 (ha.queue s ▸ hq) with hq | hq
    · exact h.queued s q hq
    · obtain ⟨hmem, hs⟩ := List.mem_filter.1 hq
      exact ⟨hnew q hmem, of_decide_eq_true hs⟩
  holds t := by
    change (y.threads t).Holds t.queue
    rcases ha.threads t with ht | ⟨-, ht⟩
    · rw [ht]
      exact h.holds t
    · rw [ht]
      trivial

/-- A thread that holds the same requests as before. -/
theorem Books.goOn (h : Books x) {z : HbaseThread} (hc : z.calls = (x.threads t).calls)
    (hz : z.Holds t.queue) : Books (x.setThread t z) :=
  h.setThread h.flights (by rw [hc]) hz

/-- A batch around the row that the server handles. -/
theorem exists_split {batch : List (StorageCall × Bool)} {k : ℕ} {row : StorageCall × Bool}
    (hk : batch[k]? = some row) (row' : StorageCall × Bool) : ∃ before after,
      batch = before ++ row :: after ∧ batch.set k row' = before ++ row' :: after := by
  obtain ⟨hlt, rfl⟩ := List.getElem?_eq_some_iff.1 hk
  obtain ⟨before, after, hbatch, -, hset⟩ := List.exists_of_set hlt
  exact ⟨before, after, hbatch, hset⟩

/-- The server handles a row. -/
theorem Books.serve (h : Books x) {batch : List (StorageCall × Bool)} {k : ℕ}
    (ht : x.threads t = .requesting batch) (hk : batch[k]? = some ((f, r), false))
    (hm : x.cache.env cfg (.complete f r) = some m)
    (hs : r.data = none → (x.cache.storage f).isSome) :
    Books { x with
      cache := m
      threads := Function.update x.threads t
        (.requesting (batch.set k ((f, r.completed (x.cache.storage f)), true))) } := by
  obtain ⟨before, after, hbatch, hset⟩ :=
    exists_split hk ((f, r.completed (x.cache.storage f)), true)
  obtain ⟨hp, hpending, -⟩ := CacheState.complete_cases hm
  have hholds : (x.threads t).Holds t.queue := h.holds t
  rw [ht] at hholds
  refine h.setThread (z := .requesting (batch.set k ((f, r.completed (x.cache.storage f)), true)))
    (h.flights.env (.of_env hm)) ?_ fun row hrow => ?_
  · have hold : ((x.threads t).calls : Multiset StorageCall) =
        (f, r) ::ₘ (before ++ after).map Prod.fst := by
      rw [ht, HbaseThread.calls, hbatch, Multiset.cons_coe, Multiset.coe_eq_coe]
      exact List.perm_middle.map Prod.fst
    have hnew : ((HbaseThread.requesting (batch.set k ((f, r.completed (x.cache.storage f)),
        true))).calls : Multiset StorageCall) =
          (f, r.completed (x.cache.storage f)) ::ₘ (before ++ after).map Prod.fst := by
      rw [HbaseThread.calls, hset, Multiset.cons_coe, Multiset.coe_eq_coe]
      exact List.perm_middle.map Prod.fst
    rw [hold, hnew, hpending, Multiset.cons_add, Multiset.add_cons, Multiset.add_cons,
      ← Multiset.cons_add, Multiset.cons_erase hp]
  · rcases List.mem_or_eq_of_mem_set hrow with hrow | rfl
    · exact hholds row hrow
    · refine ⟨Request.isCompleted_completed hs, ?_⟩
      rw [Request.queue_completed]
      exact (hholds _ (List.mem_of_getElem? hk)).2

/-- What the server has found for a batch whose rows are all there. -/
theorem exists_found {batch : List (StorageCall × Bool)}
    (h : ∀ row ∈ batch, row.1.2.isCompleted = true ∧ row.1.2.queue = .read) :
    ∃ found : List (LongId × ByteVec),
      batch.map Prod.fst = found.map fun p => (p.1, .read (some p.2)) := by
  induction batch with
  | nil => exact ⟨[], rfl⟩
  | cons row batch ih =>
    obtain ⟨found, hfound⟩ := ih fun row hrow => h row (List.mem_cons_of_mem _ hrow)
    obtain ⟨hdone, hqueue⟩ := h row List.mem_cons_self
    obtain ⟨⟨f, r⟩, b⟩ := row
    cases r with
    | read buffer =>
      obtain ⟨bytes, rfl⟩ := Option.isSome_iff_exists.1 hdone
      exact ⟨(f, bytes) :: found, by simp [hfound]⟩
    | evict | flush => cases hqueue

/-- `getBatch` answers a batch whose rows are all there. -/
theorem getBatch_found {batch : List (StorageCall × Bool)}
    (h : ∀ row ∈ batch, row.1.2.isCompleted = true ∧ row.1.2.queue = .read) :
    ∃ results, Hbase.getBatch (batch.map fun q => q.1.1.filePath d)
        (batch.filterMap fun q => rowResult q.1.2) = some results ∧
      ((batch.zip results).map fun p => ((p.1.1.1, .read (some p.2)) : StorageCall)) =
        batch.map Prod.fst := by
  obtain ⟨found, hfound⟩ := exists_found h
  have hlen : found.length = batch.length := by simpa using (congrArg List.length hfound).symm
  have hrows : (batch.filterMap fun q => rowResult q.1.2) =
      found.map fun p => ⟨[("data:", p.2)]⟩ := by
    have hmap := List.filterMap_map (f := Prod.fst) (g := fun q => rowResult q.2) (l := batch)
    rw [hfound, List.filterMap_map] at hmap
    rw [← List.filterMap_eq_map]
    exact hmap.symm
  refine ⟨found.map Prod.snd, ?_, ?_⟩
  · rw [hrows, Hbase.getBatch]
    split_ifs with hempty hne
    · rw [List.map_eq_nil_iff.1 (List.isEmpty_iff.1 hempty), List.map_nil]
    · exact absurd (by simp [hlen]) hne
    · exact Hbase.mapM_lookup_of_map_eq (by simp)
  · have hzip : ((batch.zip (found.map Prod.snd)).map fun p =>
          ((p.1.1.1, .read (some p.2)) : StorageCall)) =
        ((batch.map Prod.fst).zip (found.map Prod.snd)).map fun p =>
          (p.1.1, .read (some p.2)) := by
      rw [List.zip_map_left, List.map_map]
      rfl
    rw [hzip, hfound, List.zip_map', List.map_map]
    rfl

/-- A thread takes a batch. -/
theorem Books.take (h : Books x) {batch rest : List StorageCall} (ht : x.threads t = .looping)
    (hq : x.queue t.queue = batch ++ rest) :
    Books { x with
      queue := Function.update x.queue t.queue rest
      threads := Function.update x.threads t (.requesting (batch.map fun q => (q, false))) } where
  flights := h.flights
  running := h.running
  pending := by
    have hqueues := sum_update (fun l : List StorageCall => (l : Multiset StorageCall)) x.queue
      t.queue rest
    have hthreads := sum_update (fun z => (z.calls : Multiset StorageCall)) x.threads t
      (.requesting (batch.map fun q => (q, false)))
    have hcalls : (HbaseThread.requesting (batch.map fun q => (q, false))).calls = batch := by
      simp [HbaseThread.calls, Function.comp_def]
    rw [hq, ← Multiset.coe_add] at hqueues
    rw [ht, hcalls] at hthreads
    have hlooping : HbaseThread.looping.calls = [] := rfl
    rw [hlooping, Multiset.coe_nil, add_zero] at hthreads
    refine h.pending.trans (add_right_cancel (b := (rest : Multiset StorageCall)) ?_)
    simp only [held]
    rw [hthreads, add_right_comm, ← hqueues]
    abel
  queued s q hmem := by
    by_cases hs : s = t.queue
    · subst hs
      simp only [Function.update_self] at hmem
      exact h.queued _ q (by rw [hq]; exact List.mem_append_right _ hmem)
    · simp only [Function.update_of_ne hs] at hmem
      exact h.queued s q hmem
  holds t' := by
    by_cases heq : t' = t
    · subst heq
      simp only [Function.update_self]
      intro row hrow
      obtain ⟨q, hmem, rfl⟩ := List.mem_map.1 hrow
      exact h.queued _ q (by rw [hq]; exact List.mem_append_left _ hmem)
    · simpa only [Function.update_of_ne heq] using h.holds t'

theorem calls_afterCallback (f : LongId) (m : CacheState) (calls : List StorageCall)
    (r : Request) : (afterCallback f m calls r).calls = calls := by
  cases r with
  | read | flush => rfl
  | evict data w =>
    rw [afterCallback]
    split_ifs <;> rfl

theorem holds_afterCallback {s : HbaseQueue} {calls : List StorageCall}
    (h : ∀ q ∈ calls, q.2.isCompleted = true ∧ q.2.queue = s) (f : LongId) (m : CacheState)
    (r : Request) : (afterCallback f m calls r).Holds s := by
  cases r with
  | read | flush => exact h
  | evict data w =>
    rw [afterCallback]
    split_ifs <;> exact h

/-- The thread runs a callback. -/
theorem Books.callback (h : Books x) {calls : List StorageCall}
    (ht : x.threads t = .answering ((f, r) :: calls))
    (hm : x.cache.env cfg (.callback f r) = some m) :
    Books { x with
      cache := m
      threads := Function.update x.threads t (afterCallback f m calls r) } := by
  obtain ⟨hp, hpending, -⟩ := CacheState.callback_cases hm
  have hholds : (x.threads t).Holds t.queue := h.holds t
  rw [ht] at hholds
  refine h.setThread (z := afterCallback f m calls r) (h.flights.env (.of_env hm)) ?_
    (holds_afterCallback (fun q hq => hholds q (List.mem_cons_of_mem _ hq)) f m r)
  rw [ht, calls_afterCallback, hpending, HbaseThread.calls, ← Multiset.cons_coe,
    Multiset.add_cons, ← Multiset.cons_add, Multiset.cons_erase hp]

/-- A thread runs `cacheMaintenance`. -/
theorem Books.maintenance (h : Books x) {busy : LongId → Bool} {asks : HbaseAsks}
    {calls : List StorageCall} (ht : x.threads t = .maintenance calls)
    (hm : x.cache.env cfg (.maintenance busy) = some m) (ha : ask asks x = some y)
    (hp : m.pending = ↑(asks.map Prod.fst) + x.cache.pending) :
    Books { y with
      cache := m
      threads := Function.update y.threads t (.answering calls) } := by
  have hasked := asked_of_ask ha
  have hthread : y.threads t = .maintenance calls := by
    rcases hasked.threads t with heq | ⟨hwait, -⟩
    · rw [heq, ht]
    · rw [ht] at hwait
      cases hwait
  have hholds : (x.threads t).Holds t.queue := h.holds t
  rw [ht] at hholds
  have hbooks : Books { y with cache := m } := by
    obtain ⟨-, hc⟩ := Option.ite_none_right_eq_some.1 hm
    obtain ⟨new, hpnew, hnew⟩ := CacheState.made_maintenance hc
    obtain rfl := add_right_cancel (hp.symm.trans hpnew)
    exact h.asked hasked (h.flights.env (.of_env hm)) hp fun q hq => (hnew q hq).1
  exact hbooks.goOn (t := t) (by rw [show HbaseCache.threads _ t = _ from hthread]; rfl) hholds

/-- Every step of the client keeps the books. -/
theorem Books.client {c : CacheChoice × HbaseAsks} {o : CacheOp} {a : o.Res} (h : Books x)
    (hc : client cfg c o x = some (a, y)) : Books y := by
  obtain ⟨-, hm, z, ha, hy, hp⟩ := client_cases hc
  obtain ⟨new, hpnew, hnew, -⟩ := CacheState.made_client hm
  obtain rfl := add_right_cancel (hp.symm.trans hpnew)
  rw [hy]
  exact h.asked (asked_of_ask ha) (h.flights.client (.of_client hm)) hp hnew

/-- Every step of the threads and the server keeps the books, if the files that are read are
there. -/
theorem Books.moved {e : HbaseEvent} (h : Books x) (hs : Moved d cfg x e y)
    (hstored : ∀ f, (f, .read none) ∈ x.cache.pending → (x.cache.storage f).isSome) : Books y := by
  cases hs with
  | rest t ht hq => exact h.goOn (by rw [ht]; rfl) trivial
  | take t batch rest ht hq hb => exact h.take ht hq
  | serve t k batch f r ht hk =>
    have hholds : (x.threads t).Holds t.queue := h.holds t
    rw [ht] at hholds
    have hmem := List.mem_of_getElem? hk
    have hp : (f, r) ∈ x.cache.pending :=
      h.mem_pending (t := t) (by rw [ht]; exact List.mem_map_of_mem hmem)
    have hdone : r.isCompleted = false := (hholds _ hmem).1
    have hstored' : r.data = none → (x.cache.storage f).isSome := by
      intro hd
      cases r with
      | read b =>
        cases b with
        | none => exact hstored f hp
        | some b => cases hdone
      | evict | flush => cases hd
    obtain ⟨m, hm⟩ : ∃ m, x.cache.env cfg (.complete f r) = some m :=
      CacheState.exists_complete hp hdone hstored'
    rw [hm]
    exact h.serve ht hk hm hstored'
  | abort i batch ht hb hg =>
    have hholds : (x.threads (.inl i)).Holds .read := h.holds (.inl i)
    rw [ht] at hholds
    have hfound : ∀ row ∈ batch, row.1.2.isCompleted = true ∧ row.1.2.queue = .read :=
      fun row hrow => ⟨(hholds row hrow).1.trans (hb row hrow), (hholds row hrow).2⟩
    obtain ⟨results, hresults, -⟩ := getBatch_found (d := d) hfound
    rw [hg] at hresults
    cases hresults
  | read i batch results ht hb hg =>
    have hholds : (x.threads (.inl i)).Holds .read := h.holds (.inl i)
    rw [ht] at hholds
    have hfound : ∀ row ∈ batch, row.1.2.isCompleted = true ∧ row.1.2.queue = .read :=
      fun row hrow => ⟨(hholds row hrow).1.trans (hb row hrow), (hholds row hrow).2⟩
    obtain ⟨results', hresults, hcalls⟩ := getBatch_found (d := d) hfound
    obtain rfl := Option.some.inj (hg.symm.trans hresults)
    rw [hcalls]
    refine h.goOn (by rw [ht]; rfl) fun q hq => ?_
    obtain ⟨row, hrow, rfl⟩ := List.mem_map.1 hq
    exact hfound row hrow
  | write i batch ht hb =>
    have hholds : (x.threads (.inr i)).Holds .write := h.holds (.inr i)
    rw [ht] at hholds
    refine h.goOn (by rw [ht]; rfl) fun q hq => ?_
    obtain ⟨row, hrow, rfl⟩ := List.mem_map.1 hq
    exact ⟨(hholds row hrow).1.trans (hb row hrow), (hholds row hrow).2⟩
  | callback t f r calls m ht hm => exact h.callback ht hm
  | maintenance t busy asks calls m z ht hm ha hp => exact h.maintenance ht hm ha hp
  | loop t ht => exact h.goOn (by rw [ht]; rfl) trivial
  | spurious t ht => exact h.goOn (by rw [ht]; rfl) trivial

end HbaseCache

open HbaseCache in
/-- The cache over the storage refines the store. -/
theorem hbase_simulates (d : ℕ) (cfg : Config) :
    (hbaseMachine d cfg).Simulates (fun _ o => NoMerge o) Store.step
      (fun x σ => Books x ∧ Sim Eq x.cache σ) where
  client c h ho hc hs := by
    obtain ⟨-, hm, -⟩ := client_cases hc
    obtain ⟨c', σ', hstep, hsim⟩ :=
      (simulates cfg).client c.1 h.2 (mergeCovered_of_noMerge ho) hm hs
    exact ⟨c', σ', hstep, h.1.client hc, hsim⟩
  env e h he := by
    refine ⟨h.1.moved (moved_of_env he) fun f hp => ?_, ?_⟩
    · obtain ⟨d', hs⟩ := h.2.stored_of_read hp
      rw [hs]
      rfl
    rcases (hbaseMachine_refines d cfg).env he with heq | ⟨e', he'⟩
    · rw [heq]
      exact h.2
    · exact h.2.env similarity_eq (.of_env he')

/-- **A tree over the HBase storage.**  In every run of a client, whatever the order in which the
threads and the server work: `getBatch` neither aborts nor loses the requests of a batch, since
every row that is asked for is there; every request is in its queue or with a thread; the run is
matched by the store, with the same replies; and what was read, and the rows of all files that are
not in memory, are what the store has. -/
theorem hbase_transparent {d : ℕ} {cfg cache : Config} {create : Bool} {ops : List TreeOp}
    {σ : Store} {q : TreeM Unit} {x : HbaseCache} (h₀ : Starts cfg create σ)
    (hrun : (hbaseMachine d cache).Run (fun _ _ => True) (sitting cfg create ops)
      (.opened fun f => (σ.files f).map serialize) q x) :
    x.aborted = false ∧ x.cache.pending = x.held ∧
      (∀ f, (f, .read none) ∈ x.held → (x.cache.storage f).isSome) ∧
      ∃ σ', Prog.Exec Store.step (sitting cfg create ops) σ q σ' ∧
        (∀ f b, (f, .read (some b)) ∈ x.held → (σ'.files f).map serialize = some b) ∧
        ∀ f, x.cache.files f = none → x.cache.storage f = (σ'.files f).map serialize := by
  have hplain : (hbaseMachine d cache).Run (fun _ o => NoMerge o) (sitting cfg create ops)
      (.opened fun f => (σ.files f).map serialize) q x :=
    hrun.of_uses plain_sitting fun _ _ _ ho => ho
  obtain ⟨σ', hexec, ⟨hbooks, hsim⟩, -⟩ := (hbase_simulates d cache).run hplain
    ⟨.opened _, Sim.opened similarity_eq h₀.live fun _ => rfl⟩ (wp_sitting h₀ ops)
  refine ⟨hbooks.running, hbooks.pending, fun f hp => ?_, σ', hexec, fun f b hp => ?_,
    fun f hf => (hsim.storage_of_absent hf).2⟩
  · rw [← hbooks.pending] at hp
    obtain ⟨d', hs⟩ := hsim.stored_of_read hp
    rw [hs]
    rfl
  · rw [← hbooks.pending] at hp
    exact hsim.files_of_read hp

/-- What the threads do with the requests in a queue, one batch without disturbance. -/
def HbaseCache.serveQueue (t : HbaseThreadId) (n : ℕ) : List HbaseEvent :=
  [.take t] ++ (List.range n).map (.serve t) ++ [.reply t] ++
    (List.replicate n (match t with
      | .inl _ => [.callback t, .maintenance t (fun _ => false) []]
      | .inr _ => [.callback t])).flatten ++ [.loop t]

/-- A tree is opened again for one point: its root file is read, changed and written. -/
theorem hbase_transparent_reopened :
    let cfg := Config.sample
    let point : TreeOp := .addPoint (fun _ => 5 / 2) fun _ => 0
    ∃ (σ : Store) (x : HbaseCache), (∃ f, x.cache.storage f ≠ (σ.files f).map serialize) ∧
      x.aborted = false ∧ x.cache.pending = x.held ∧
        (∀ f, (f, .read none) ∈ x.held → (x.cache.storage f).isSome) ∧
        ∃ σ', Prog.Exec Store.step (sitting cfg false [point]) σ (.ret ()) σ' ∧
          (∀ f b, (f, .read (some b)) ∈ x.held → (σ'.files f).map serialize = some b) ∧
          ∀ f, x.cache.files f = none → x.cache.storage f = (σ'.files f).map serialize := by
  intro cfg point
  let choose (o : CacheOp) (x : HbaseCache) : CacheChoice × HbaseAsks :=
    (.plain, (x.cache.calls cfg o).map fun q => (q, none))
  let serve (x : HbaseCache) : List HbaseEvent :=
    if (x.queue .read).isEmpty then HbaseCache.serveQueue (.inr 0) (x.queue .write).length
    else HbaseCache.serveQueue (.inl 0) (x.queue .read).length
  let machine := hbaseMachine 3 cfg
  let test (σ : Store) (z : TreeM Unit × HbaseCache) : Bool :=
    z.1.returns && z.2.cache.order.any fun f =>
      decide (z.2.cache.storage f ≠ (σ.files f).map serialize)
  have htest : ((visit cfg true []).run Store.step .plain .init).toOption.elim false
      (fun a => test a.2 (machine.drive choose serve 50 (sitting cfg false [point])
        (.opened fun f => (a.2.files f).map serialize))) = true := by decide +kernel
  obtain ⟨⟨⟨⟩, σ⟩, hσ, htest⟩ := elim_eq_true htest
  have hrun : machine.Run (fun _ _ => True) (sitting cfg false [point])
      (.opened fun f => (σ.files f).map serialize) _ _ := .of_drive choose serve 50
  change test σ (machine.drive choose serve 50 (sitting cfg false [point])
    (.opened fun f => (σ.files f).map serialize)) = true at htest
  generalize machine.drive choose serve 50 (sitting cfg false [point])
    (.opened fun f => (σ.files f).map serialize) = z at hrun htest
  obtain ⟨hret, hany⟩ := Bool.and_eq_true_iff.1 htest
  obtain ⟨⟨⟩, hret⟩ := Prog.of_returns hret
  obtain ⟨f, -, hf⟩ := List.any_eq_true.1 hany
  rw [hret] at hrun
  exact ⟨σ, z.2, ⟨f, of_decide_eq_true hf⟩, hbase_transparent (starts_of_run hσ) hrun⟩

end MegaTree
