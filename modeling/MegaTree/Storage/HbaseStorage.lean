import MegaTree.Core.Basic
import MegaTree.Effect.Transition
import Mathlib.Algebra.BigOperators.Fin
import Mathlib.Algebra.Order.BigOperators.Group.Finset
import Mathlib.Data.List.Perm.Basic

/-!
# Asynchronous reads of the HBase storage

`getAsync` puts a request into a queue.  Reader threads take batches of requests from it, ask the
server for the rows of a batch and invoke the callbacks with the answer of `getBatch`.

A run is any sequence of the steps `Event`: calls of `getAsync`, changes of the table, and the steps
of the threads.  Beside the variables of the code the state keeps what was asked and what was
answered.

* `Conserved` : every request is answered, held by a thread or in the queue, as often as it was
  made.
* `getBatch_eq` : `getBatch` answers the rows of a batch, or aborts, when one of the rows exists.
* `getAsync_answered` : in a run where every batch has such a row no request is lost.
-/

namespace MegaTree

open Effect

namespace Hbase

/-- `NUM_READER_THREADS` -/
abbrev numReaderThreads : ℕ := 10

/-- `ASYNC_READ_BATCH_SIZE` -/
def asyncReadBatchSize : ℕ := 10000

/-- `ReadData`: the row, and which callback it is. -/
structure ReadData where
  path : String
  callback : ℕ
deriving DecidableEq

/-- A row of the server's answer: its columns by name. -/
structure TRowResult where
  columns : List (String × ByteVec)

/-- What the server stores in the `data:` column of each row. -/
abbrev Table := String → Option ByteVec

/-! ### Batches -/

/-- `getBatch`, after the answer of the server; `none` where it aborts. -/
def getBatch (paths : List String) (rowResults : List TRowResult) : Option (List ByteVec) :=
  if rowResults.isEmpty then some []
  else if rowResults.length ≠ paths.length then none
  else rowResults.mapM fun row => row.columns.lookup "data:"

/-- The answer of the server to `getRows`: one result with a `data:` column for each requested row
that exists, in the order of the request. -/
def IsReply (table : Table) (paths : List String) (rowResults : List TRowResult) : Prop :=
  rowResults.map (fun row => row.columns.lookup "data:") = (paths.filterMap table).map some

instance (table : Table) (paths : List String) (rowResults : List TRowResult) :
    Decidable (IsReply table paths rowResults) := inferInstanceAs (Decidable (_ = _))

/-! ### Threads -/

/-- Where a reader thread is: it waits for the queue, it waits for the server, or it has callbacks
to invoke, with the table from which they were answered. -/
inductive ReadThread where
  | waiting
  | requesting (batch : List ReadData)
  | answering (table : Table) (callbacks : List (ReadData × ByteVec))

/-- The requests that a thread holds. -/
def ReadThread.requests : ReadThread → List ReadData
  | waiting => []
  | requesting batch => batch
  | answering _ callbacks => callbacks.map Prod.fst

@[simp] theorem requests_waiting : ReadThread.waiting.requests = [] := rfl

@[simp] theorem requests_requesting (batch : List ReadData) :
    (ReadThread.requesting batch).requests = batch := rfl

@[simp] theorem requests_answering (table : Table) (callbacks : List (ReadData × ByteVec)) :
    (ReadThread.answering table callbacks).requests = callbacks.map Prod.fst := rfl

/-- An invocation of a callback, with the table from which it was answered. -/
structure Answer where
  request : ReadData
  bytes : ByteVec
  table : Table

/-- The storage, its server, and the record of what was asked and answered. -/
structure Storage where
  readQueue : List ReadData
  threads : Fin numReaderThreads → ReadThread
  table : Table
  aborted : Bool
  issued : List ReadData
  answers : List Answer

/-- What can happen next. -/
inductive Event where
  /-- A call of `getAsync`. -/
  | getAsync (request : ReadData)
  /-- Some client changes the table. -/
  | write (table : Table)
  /-- A thread takes a batch from the queue and sends it to the server. -/
  | take (t : Fin numReaderThreads)
  /-- The server answers a thread. -/
  | reply (t : Fin numReaderThreads) (rowResults : List TRowResult)
  /-- A thread invokes its next callback, or goes back to the queue. -/
  | callback (t : Fin numReaderThreads)

/-- The events that are steps of `asyncReadThread`. -/
def Event.OfThread : Event → Prop
  | getAsync _ => False
  | write _ => False
  | take _ => True
  | reply _ _ => True
  | callback _ => True

/-- Thread `t` goes on to `thread`. -/
def Storage.setThread (s : Storage) (t : Fin numReaderThreads) (thread : ReadThread) : Storage :=
  { s with threads := Function.update s.threads t thread }

def step : Event → Storage → Option Storage
  | .getAsync request, s =>
    if s.aborted then none
    else some { s with readQueue := s.readQueue ++ [request], issued := s.issued ++ [request] }
  | .write table, s => if s.aborted then none else some { s with table }
  | .take t, s =>
    match s.aborted, s.threads t with
    | false, .waiting =>
      if s.readQueue.isEmpty then none
      else some { s.setThread t (.requesting (s.readQueue.take asyncReadBatchSize)) with
        readQueue := s.readQueue.drop asyncReadBatchSize }
    | _, _ => none
  | .reply t rowResults, s =>
    match s.aborted, s.threads t with
    | false, .requesting batch =>
      if IsReply s.table (batch.map ReadData.path) rowResults then
        match getBatch (batch.map ReadData.path) rowResults with
        | none => some { s with aborted := true }
        -- the loop over `results` stops where they do
        | some results => some (s.setThread t (.answering s.table (batch.zip results)))
      else none
    | _, _ => none
  | .callback t, s =>
    match s.aborted, s.threads t with
    | false, .answering table ((request, bytes) :: callbacks) =>
      some { s.setThread t (.answering table callbacks) with
        answers := s.answers ++ [⟨request, bytes, table⟩] }
    | false, .answering _ [] => some (s.setThread t .waiting)
    | _, _ => none

/-- The storage after its constructor. -/
def Storage.start (table : Table) : Storage where
  readQueue := []
  threads _ := .waiting
  table := table
  aborted := false
  issued := []
  answers := []

/-! ### The answer of `getBatch` -/

theorem mapM_lookup_of_map_eq {rowResults : List TRowResult} {values : List ByteVec}
    (h : rowResults.map (fun row => row.columns.lookup "data:") = values.map some) :
    (rowResults.mapM fun row => row.columns.lookup "data:") = some values := by
  induction rowResults generalizing values with
  | nil =>
    obtain rfl := List.map_eq_nil_iff.mp h.symm
    rfl
  | cons row rowResults ih =>
    cases values with
    | nil => cases h
    | cons value values =>
      obtain ⟨hrow, hrest⟩ := List.cons.inj h
      have hrow' : row.columns.lookup "data:" = some value := hrow
      rw [List.mapM_cons, hrow', ih hrest]
      rfl

/-- As many rows as requests: every row exists. -/
theorem filterMap_eq_of_length_eq {table : Table} {paths : List String}
    (h : (paths.filterMap table).length = paths.length) :
    paths.filterMap table = paths.map fun path => (table path).getD [] := by
  induction paths with
  | nil => rfl
  | cons path paths ih =>
    cases hpath : table path with
    | none =>
      rw [List.filterMap_cons_none hpath, List.length_cons] at h
      have := List.length_filterMap_le table paths
      omega
    | some bytes =>
      rw [List.filterMap_cons_some hpath, List.length_cons, List.length_cons] at h
      rw [List.filterMap_cons_some hpath, ih (Nat.succ_inj.mp h), List.map_cons, hpath]
      rfl

/-- A batch with a row that exists is answered, row by row, or the process aborts. -/
theorem getBatch_eq {table : Table} {paths : List String} {rowResults : List TRowResult}
    (hreply : IsReply table paths rowResults) (hrow : ∃ path ∈ paths, (table path).isSome) :
    getBatch paths rowResults = none ∨
      getBatch paths rowResults = some (paths.map fun path => (table path).getD []) := by
  have hlen : rowResults.length = (paths.filterMap table).length := by
    simpa using congrArg List.length hreply
  have hne : rowResults.isEmpty = false := by
    obtain ⟨path, hmem, hsome⟩ := hrow
    obtain ⟨bytes, hbytes⟩ := Option.isSome_iff_exists.mp hsome
    have hpos := List.length_pos_of_mem (List.mem_filterMap.mpr ⟨path, hmem, hbytes⟩)
    rw [← hlen] at hpos
    simpa using List.ne_nil_of_length_pos hpos
  rw [getBatch, if_neg (by simp [hne])]
  by_cases heq : rowResults.length = paths.length
  · right
    rw [if_neg (not_not.mpr heq), mapM_lookup_of_map_eq hreply,
      filterMap_eq_of_length_eq (hlen.symm.trans heq)]
  · exact .inl (if_pos heq)

/-- The callbacks of a batch with what the table has for their rows. -/
def answersFrom (table : Table) (batch : List ReadData) : List (ReadData × ByteVec) :=
  batch.map fun request => (request, (table request.path).getD [])

theorem zip_eq_answersFrom (table : Table) (batch : List ReadData) :
    batch.zip ((batch.map ReadData.path).map fun path => (table path).getD []) =
      answersFrom table batch := by
  have h := List.zip_map' (f := id) (g := fun r => (table (ReadData.path r)).getD []) (l := batch)
  rw [List.map_id] at h
  rwa [List.map_map]

theorem map_fst_answersFrom (table : Table) (batch : List ReadData) :
    (answersFrom table batch).map Prod.fst = batch := by
  rw [answersFrom, List.map_map]
  exact List.map_id batch

/-! ### No request is lost -/

/-- A sum over the threads, when one of them goes on. -/
theorem sum_setThread (g : ReadThread → ℕ) (s : Storage) (t : Fin numReaderThreads)
    (thread : ReadThread) :
    ∑ i, g ((s.setThread t thread).threads i) + g (s.threads t) =
      ∑ i, g (s.threads i) + g thread := by
  have h₁ := Finset.add_sum_erase _ (fun i => g ((s.setThread t thread).threads i))
    (Finset.mem_univ t)
  have h₂ := Finset.add_sum_erase _ (fun i => g (s.threads i)) (Finset.mem_univ t)
  have h₃ : ∑ i ∈ Finset.univ.erase t, g ((s.setThread t thread).threads i) =
      ∑ i ∈ Finset.univ.erase t, g (s.threads i) :=
    Finset.sum_congr rfl fun i hi =>
      congrArg g (Function.update_of_ne (Finset.ne_of_mem_erase hi) _ _)
  have h₄ : (s.setThread t thread).threads t = thread := Function.update_self ..
  simp only [h₄] at h₁
  omega

/-- How often the threads hold a request. -/
def Storage.held (s : Storage) (r : ReadData) : ℕ := ∑ t, (s.threads t).requests.count r

/-- Every request has been answered, is held by a thread or is in the queue, as often as it was
made, and callbacks are given what the table has for their row. -/
structure Conserved (s : Storage) : Prop where
  count : ∀ r, (s.answers.map Answer.request).count r + s.held r + s.readQueue.count r =
    s.issued.count r
  answered : ∀ a ∈ s.answers, a.bytes = (a.table a.request.path).getD []
  answering : ∀ t table callbacks, s.threads t = .answering table callbacks →
    ∀ c ∈ callbacks, c.2 = (table c.1.path).getD []

theorem conserved_start (table : Table) : Conserved (.start table) where
  count r := by simp [Storage.start, Storage.held, ReadThread.requests]
  answered := by simp [Storage.start]
  answering t table callbacks h := by cases h

/-- The server has one of the rows of the batch that it answers. -/
def RowsFound (s : Storage) : Event → Prop
  | .reply t _ => ∀ batch, s.threads t = .requesting batch →
    ∃ request ∈ batch, (s.table request.path).isSome
  | _ => True

/-- What a thread that goes on keeps, when it is only given callbacks with the right bytes. -/
theorem Conserved.answering_setThread {s : Storage} (h : Conserved s) (t : Fin numReaderThreads)
    {thread : ReadThread}
    (hthread : ∀ table callbacks, thread = .answering table callbacks →
      ∀ c ∈ callbacks, c.2 = (table c.1.path).getD []) :
    ∀ i table callbacks, (s.setThread t thread).threads i = .answering table callbacks →
      ∀ c ∈ callbacks, c.2 = (table c.1.path).getD [] := by
  intro i table callbacks hi
  by_cases heq : i = t
  · subst heq
    exact hthread table callbacks (by simpa [Storage.setThread] using hi)
  · exact h.answering i table callbacks (by simpa [Storage.setThread, heq] using hi)

section Step

variable {s s' : Storage} {t : Fin numReaderThreads}

theorem Conserved.take (h : Conserved s) (hd : step (.take t) s = some s') : Conserved s' := by
  simp only [step] at hd
  split at hd
  · next hab ht =>
    split_ifs at hd
    obtain rfl := Option.some.inj hd
    refine ⟨fun r => ?_, h.answered, h.answering_setThread t (by simp)⟩
    have hcount := h.count r
    have hheld := sum_setThread (fun thread => thread.requests.count r) s t
      (.requesting (s.readQueue.take asyncReadBatchSize))
    have hqueue := congrArg (List.count r) (List.take_append_drop asyncReadBatchSize s.readQueue)
    rw [List.count_append] at hqueue
    simp only [ht, requests_waiting, requests_requesting, List.count_nil] at hheld
    simp only [Storage.held, Storage.setThread] at hcount hheld ⊢
    omega
  · cases hd

theorem Conserved.reply (h : Conserved s) {rowResults : List TRowResult}
    (hfound : RowsFound s (.reply t rowResults)) (hd : step (.reply t rowResults) s = some s') :
    Conserved s' := by
  simp only [step] at hd
  split at hd
  · next batch hab ht =>
    split_ifs at hd with hreply
    obtain ⟨request, hmem, hrow⟩ := hfound batch ht
    rcases getBatch_eq hreply ⟨_, List.mem_map_of_mem hmem, hrow⟩ with hbatch | hbatch
    · rw [hbatch] at hd
      obtain rfl := Option.some.inj hd
      exact ⟨h.count, h.answered, h.answering⟩
    · rw [hbatch] at hd
      obtain rfl := Option.some.inj hd
      rw [zip_eq_answersFrom]
      refine ⟨fun r => ?_, h.answered, h.answering_setThread t ?_⟩
      · have hcount := h.count r
        have hheld := sum_setThread (fun thread => thread.requests.count r) s t
          (.answering s.table (answersFrom s.table batch))
        simp only [ht, requests_requesting, requests_answering, map_fst_answersFrom] at hheld
        simp only [Storage.held, Storage.setThread] at hcount hheld ⊢
        omega
      · rintro _ _ ⟨rfl, rfl⟩ c hc
        obtain ⟨r, -, rfl⟩ := List.mem_map.mp hc
        rfl
  · cases hd

theorem Conserved.callback (h : Conserved s) (hd : step (.callback t) s = some s') :
    Conserved s' := by
  simp only [step] at hd
  split at hd
  · next table request bytes callbacks hab ht =>
    obtain rfl := Option.some.inj hd
    refine ⟨fun r => ?_, ?_, h.answering_setThread t ?_⟩
    · have hcount := h.count r
      have hheld := sum_setThread (fun thread => thread.requests.count r) s t
        (.answering table callbacks)
      simp only [ht, requests_answering, List.map_cons, List.count_cons] at hheld
      simp only [Storage.held, Storage.setThread, List.map_append, List.map_cons, List.map_nil,
        List.count_append, List.count_cons, List.count_nil] at hcount hheld ⊢
      omega
    · simp only [List.forall_mem_append, List.forall_mem_singleton]
      exact ⟨h.answered, h.answering t _ _ ht _ List.mem_cons_self⟩
    · rintro _ _ ⟨rfl, rfl⟩ c hc
      exact h.answering t _ _ ht c (List.mem_cons_of_mem _ hc)
  · next table hab ht =>
    obtain rfl := Option.some.inj hd
    refine ⟨fun r => ?_, h.answered, h.answering_setThread t (by simp)⟩
    have hcount := h.count r
    have hheld := sum_setThread (fun thread => thread.requests.count r) s t .waiting
    simp only [ht, requests_answering, requests_waiting, List.map_nil, List.count_nil] at hheld
    simp only [Storage.held, Storage.setThread] at hcount hheld ⊢
    omega
  · cases hd

theorem Conserved.step {d : Event} (h : Conserved s) (hfound : RowsFound s d)
    (hd : step d s = some s') : Conserved s' := by
  cases d with
  | getAsync request =>
    simp only [Hbase.step] at hd
    split_ifs at hd
    obtain rfl := Option.some.inj hd
    refine ⟨fun r => ?_, h.answered, h.answering⟩
    have := h.count r
    simp only [List.count_append, Storage.held] at this ⊢
    omega
  | write table =>
    simp only [Hbase.step] at hd
    split_ifs at hd
    obtain rfl := Option.some.inj hd
    exact ⟨h.count, h.answered, h.answering⟩
  | take t => exact h.take hd
  | reply t rowResults => exact h.reply hfound hd
  | callback t => exact h.callback hd

end Step

/-! ### The threads come to rest -/

/-- How many steps a thread has to take before it waits again. -/
def ReadThread.work : ReadThread → ℕ
  | waiting => 0
  | requesting batch => batch.length + 2
  | answering _ callbacks => callbacks.length + 1

@[simp] theorem work_waiting : ReadThread.waiting.work = 0 := rfl

@[simp] theorem work_requesting (batch : List ReadData) :
    (ReadThread.requesting batch).work = batch.length + 2 := rfl

@[simp] theorem work_answering (table : Table) (callbacks : List (ReadData × ByteVec)) :
    (ReadThread.answering table callbacks).work = callbacks.length + 1 := rfl

/-- A bound on the steps that the threads can take without new requests. -/
def Storage.work (s : Storage) : ℕ :=
  4 * s.readQueue.length + ∑ t, (s.threads t).work + (!s.aborted).toNat

theorem work_lt {s s' : Storage} {d : Event} (hthread : d.OfThread) (hd : step d s = some s') :
    s'.work < s.work := by
  cases d with
  | getAsync request => cases hthread
  | write table => cases hthread
  | take t =>
    simp only [step] at hd
    split at hd
    · next hab ht =>
      split_ifs at hd with hempty
      obtain rfl := Option.some.inj hd
      have hsum := sum_setThread ReadThread.work s t
        (.requesting (s.readQueue.take asyncReadBatchSize))
      have hpos : 0 < s.readQueue.length :=
        List.length_pos_of_ne_nil (by simpa using hempty)
      simp only [ht, work_waiting, work_requesting, List.length_take, asyncReadBatchSize] at hsum
      simp only [Storage.work, Storage.setThread, List.length_drop, asyncReadBatchSize] at hsum ⊢
      omega
    · cases hd
  | reply t rowResults =>
    simp only [step] at hd
    split at hd
    · next batch hab ht =>
      split_ifs at hd
      split at hd
      · obtain rfl := Option.some.inj hd
        simp [Storage.work, hab]
      · next results hbatch =>
        obtain rfl := Option.some.inj hd
        have hsum := sum_setThread ReadThread.work s t (.answering s.table (batch.zip results))
        simp only [ht, work_requesting, work_answering, List.length_zip] at hsum
        simp only [Storage.work, Storage.setThread] at hsum ⊢
        omega
    · cases hd
  | callback t =>
    simp only [step] at hd
    split at hd
    · next table request bytes callbacks hab ht =>
      obtain rfl := Option.some.inj hd
      have hsum := sum_setThread ReadThread.work s t (.answering table callbacks)
      simp only [ht, work_answering, List.length_cons] at hsum
      simp only [Storage.work, Storage.setThread] at hsum ⊢
      omega
    · next table hab ht =>
      obtain rfl := Option.some.inj hd
      have hsum := sum_setThread ReadThread.work s t .waiting
      simp only [ht, work_answering, work_waiting, List.length_nil] at hsum
      simp only [Storage.work, Storage.setThread] at hsum ⊢
      omega
    · cases hd

theorem length_le_work {s s' : Storage} {ds : List Event} (hthread : ∀ d ∈ ds, d.OfThread)
    (hplay : play step ds s = some s') : ds.length ≤ s.work := by
  induction ds generalizing s with
  | nil => exact Nat.zero_le _
  | cons d ds ih =>
    obtain ⟨s₁, hd, hds⟩ := Option.bind_eq_some_iff.mp hplay
    rw [List.forall_mem_cons] at hthread
    exact Nat.lt_of_le_of_lt (ih hthread.2 hds) (work_lt hthread.1 hd)

/-- The server can always answer. -/
theorem exists_isReply (table : Table) (paths : List String) :
    ∃ rowResults, IsReply table paths rowResults := by
  refine ⟨(paths.filterMap table).map fun bytes => ⟨[("data:", bytes)]⟩, ?_⟩
  rw [IsReply, List.map_map]
  rfl

/-- Threads that cannot go on are waiting for the queue, which is empty. -/
theorem no_step_iff {s : Storage} (hab : s.aborted = false) :
    (∀ d : Event, d.OfThread → step d s = none) ↔
      s.readQueue = [] ∧ ∀ t, s.threads t = .waiting := by
  constructor
  · intro hrest
    have hwaiting : ∀ t, s.threads t = .waiting := by
      intro t
      cases ht : s.threads t with
      | waiting => rfl
      | requesting batch =>
        obtain ⟨rowResults, hreply⟩ := exists_isReply s.table (batch.map ReadData.path)
        have := hrest (.reply t rowResults) trivial
        simp only [step, hab, ht, if_pos hreply] at this
        split at this <;> cases this
      | answering table callbacks =>
        have := hrest (.callback t) trivial
        cases callbacks <;> simp [step, hab, ht] at this
    have htake := hrest (.take 0) trivial
    simp only [step, hab, hwaiting] at htake
    split_ifs at htake with hempty
    exact ⟨List.isEmpty_iff.mp hempty, hwaiting⟩
  · rintro ⟨hqueue, hwaiting⟩ d hthread
    cases d with
    | getAsync request => cases hthread
    | write table => cases hthread
    | take t => simp [step, hab, hwaiting, hqueue]
    | reply t rowResults => simp [step, hab, hwaiting]
    | callback t => simp [step, hab, hwaiting]

/-- In a run where the server has one of the rows of every batch, no request is lost and no callback
is given another row's bytes; and the threads come to rest, with every request answered once unless
the process has aborted. -/
theorem getAsync_answered {table : Table} {s : Storage}
    (h : Reach step RowsFound (.start table) s) :
    (∀ r, (s.answers.map Answer.request).count r + s.held r + s.readQueue.count r =
        s.issued.count r) ∧
      (∀ a ∈ s.answers, a.bytes = (a.table a.request.path).getD []) ∧
      (∀ ds s', (∀ d ∈ ds, d.OfThread) → play step ds s = some s' → ds.length ≤ s.work) ∧
      (s.aborted = false → (∀ d : Event, d.OfThread → step d s = none) →
        (s.answers.map Answer.request).Perm s.issued) := by
  have hinv : Conserved s := h.invariant (conserved_start table) fun _ _ _ hm hok hd =>
    hm.step hok hd
  refine ⟨hinv.count, hinv.answered, fun ds s' => length_le_work, fun hab hrest => ?_⟩
  obtain ⟨hqueue, hwaiting⟩ := (no_step_iff hab).mp hrest
  refine List.perm_iff_count.mpr fun r => ?_
  have hcount := hinv.count r
  simpa [hqueue, Storage.held, hwaiting] using hcount

theorem getAsync_answered_one :
    ∃ s : Storage, s.answers.map Answer.bytes = [[1, 2, 3]] ∧
      (s.aborted = false → (∀ d : Event, d.OfThread → step d s = none) →
        (s.answers.map Answer.request).Perm s.issued) := by
  let table : Table := fun path => if path = "f1" then some [1, 2, 3] else none
  have h : Reach step RowsFound (.start table) _ :=
    .tail (.callback 0) (.tail (.callback 0) (.tail (.reply 0 [⟨[("data:", [1, 2, 3])]⟩])
      (.tail (.take 0) (.tail (.getAsync ⟨"f1", 0⟩) .refl trivial rfl) trivial rfl)
      (by
        rintro batch ⟨⟩
        exact ⟨⟨"f1", 0⟩, by decide, by decide⟩) rfl) trivial rfl) trivial rfl
  exact ⟨_, rfl, (getAsync_answered h).2.2.2⟩

/-- A request for the only row of a batch, which does not exist: the results are cleared, and the
thread waits again without having invoked the callback. -/
theorem exists_dropped : ∃ s : Storage,
    Reach step (fun _ _ => True) (.start fun _ => none) s ∧ s.aborted = false ∧
      (s.readQueue = [] ∧ ∀ t, s.threads t = .waiting) ∧ s.answers = [] ∧
        s.issued = [⟨"f1", 0⟩] := by
  refine ⟨_, .tail (.callback 0) (.tail (.reply 0 []) (.tail (.take 0) (.tail (.getAsync ⟨"f1", 0⟩)
    .refl trivial rfl) trivial rfl) trivial rfl) trivial rfl, rfl, ⟨rfl, fun t => ?_⟩, rfl, rfl⟩
  by_cases ht : t = 0 <;> simp [Storage.setThread, Storage.start, ht]

theorem not_getAsync_answered :
    ¬ ∀ (table : Table) (s : Storage), Reach step (fun _ _ => True) (.start table) s →
      s.aborted = false → (∀ d : Event, d.OfThread → step d s = none) →
        (s.answers.map Answer.request).Perm s.issued := by
  intro h
  obtain ⟨s, hreach, hab, hrest, hanswers, hissued⟩ := exists_dropped
  have hperm := h _ s hreach hab (no_step_iff hab |>.mpr hrest)
  rw [hanswers, hissued] at hperm
  exact absurd hperm.length_eq (by decide)

end Hbase

end MegaTree
