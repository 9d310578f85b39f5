import MegaTree.Cache.HbaseCache

/-!
# `flushCache` over the HBase storage

The storage has one writer thread, which runs the callbacks of a batch one after the other.  While
`flushCache` waits, with `file_cache_mutex` held, `evictNodeFileCb` waits for the mutex; and behind
it wait the callbacks of the writes of `flushCache`.

* `Wakes` : the writes are in the order in which they were made, those of `flushCache` behind all
  evictions; and no thread waits beside a queue that is not served.
* `hbase_flushCache_returns` : `flushCache` returns if and only if no eviction is under way.
-/

namespace MegaTree

open Effect

/-! ### Evictions -/

/-- The evictions that are under way. -/
def CacheState.evictions (m : CacheState) : ℕ := m.pending.countP fun q => q.2.isEvict

variable {d : ℕ} {cfg : Config} {x y : HbaseCache} {t : HbaseThreadId} {f : LongId} {r : Request}
  {m m' : CacheState} {σ : Store}

theorem CacheState.evictions_replace {r' : Request} (hp : (f, r) ∈ m.pending)
    (hm : m'.pending = (f, r') ::ₘ m.pending.erase (f, r)) (hr : r'.isEvict = r.isEvict) :
    m'.evictions = m.evictions := by
  obtain ⟨rest, hrest⟩ := Multiset.exists_cons_of_mem hp
  rw [evictions, evictions, hm, hrest, Multiset.erase_cons_head, Multiset.countP_cons,
    Multiset.countP_cons, hr]

theorem CacheState.evictions_erase (hp : (f, r) ∈ m.pending)
    (hm : m'.pending = m.pending.erase (f, r)) (hr : r.isEvict = false) :
    m'.evictions = m.evictions := by
  obtain ⟨rest, hrest⟩ := Multiset.exists_cons_of_mem hp
  rw [evictions, evictions, hm, hrest, Multiset.erase_cons_head,
    Multiset.countP_cons_of_neg _ (by rw [hr]; simp)]

/-- While the client has the mutex, no eviction begins or ends. -/
theorem EnvStep.evictions_of_held (hs : EnvStep cfg m m')
    (ho : m.owner .fileCacheMutex = some .client) : m'.evictions = m.evictions := by
  have hfree : m.owner .fileCacheMutex ≠ none := by
    rw [ho]
    exact fun h => by cases h
  cases hs with
  | completeRead f buffer hp => exact CacheState.evictions_replace hp rfl rfl
  | completeEvict f data hp => exact CacheState.evictions_replace hp rfl rfl
  | completeFlush f data hp => exact CacheState.evictions_replace hp rfl rfl
  | readCb f buffer file data hp => exact CacheState.evictions_erase hp rfl rfl
  | flushCb f data file hp => exact CacheState.evictions_erase hp rfl rfl
  | evicted f data file hp hnone => exact absurd hnone hfree
  | reloaded f data file owner hp hnone => exact absurd hnone hfree
  | stuck f data owner hp hevict =>
    rcases hevict with h | ⟨h, -⟩
    · rw [ho] at h
      cases h
    · exact absurd h hfree
  | maintenance busy _ hl hc => exact absurd (Flights.free_of_maintenance hc) hfree

/-! ### The order of the writes -/

namespace HbaseThread

/-- One for a thread that is on its way to the mutex of its queue. -/
def awake : HbaseThread → ℕ
  | looping => 1
  | waiting | requesting _ | answering _ | maintenance _ | stuck _ => 0

/-- How many steps a thread can take before it waits, if it finds no request and does not have to
run `cacheMaintenance`. -/
def work : HbaseThread → ℕ
  | looping => 1
  | waiting | stuck _ => 0
  | requesting batch => 3 + batch.length + batch.countP fun row => !row.2
  | answering calls | maintenance calls => 2 + calls.length

end HbaseThread

namespace HbaseCache

/-- The threads of a queue that are on their way to its mutex. -/
def awake (x : HbaseCache) (s : HbaseQueue) : ℕ :=
  ∑ t : HbaseThreadId, if t.queue = s then (x.threads t).awake else 0

/-- Which of the writes that have yet to be answered are of `flushCache`, in order. -/
def writes (x : HbaseCache) : List Bool :=
  ((x.threads (.inr 0)).calls ++ x.queue .write).map fun q => q.2.isFlush

/-- No wake-up is lost, and the writes of `flushCache` are behind all evictions. -/
structure Wakes (x : HbaseCache) : Prop where
  waits : ∀ t, x.threads t = .waiting → (x.queue t.queue).length ≤ x.awake t.queue
  fifo : x.writes.Pairwise (· ≤ ·)
  stuck : ∀ t calls, x.threads t = .stuck calls → Stuck x.cache
  writer : ∀ i calls, x.threads (.inr i) ≠ .maintenance calls

theorem Wakes.opened (storage : LongId → Option ByteVec) : Wakes (opened storage) where
  waits t h := by cases h
  fifo := .nil
  stuck t calls h := by cases h
  writer i calls h := by cases h

/-- Where one thread changes. -/
theorem awake_update {z : HbaseThread} (hy : y.threads = Function.update x.threads t z)
    (s : HbaseQueue) : y.awake s + (if t.queue = s then (x.threads t).awake else 0) =
      x.awake s + if t.queue = s then z.awake else 0 := by
  rw [awake, hy]
  exact sum_update_of (fun t z => if t.queue = s then z.awake else 0) x.threads t z

theorem writes_reader {i : Fin Hbase.numReaderThreads} {z : HbaseThread}
    (ht : y.threads = Function.update x.threads (.inl i) z) (hq : y.queue .write = x.queue .write) :
    y.writes = x.writes := by
  rw [writes, writes, ht, hq, Function.update_of_ne (by simp)]

theorem writes_writer {z : HbaseThread} (ht : y.threads = Function.update x.threads (.inr 0) z) :
    y.writes = (z.calls ++ y.queue .write).map fun q => q.2.isFlush := by
  rw [writes, ht, Function.update_self]

/-- A thread goes on and does not wait. -/
theorem Wakes.setThread (h : Wakes x) {z : HbaseThread} (hz : z ≠ .waiting)
    (hawake : (x.threads t).awake ≤ z.awake) (hstuck : Stuck x.cache → Stuck m)
    (hz' : ∀ calls, z = .stuck calls → Stuck m)
    (hwriter : ∀ i calls, t = .inr i → z ≠ .maintenance calls)
    (hw : t = .inr 0 → ((z.calls ++ x.queue .write).map fun q => q.2.isFlush).Pairwise (· ≤ ·)) :
    Wakes { x with
      cache := m
      threads := Function.update x.threads t z } where
  waits t' ht' := by
    have hsum := awake_update (x := x) (z := z) (t := t)
      (y := { x with cache := m, threads := Function.update x.threads t z }) rfl t'.queue
    have hne : t' ≠ t := by
      rintro rfl
      exact hz ((Function.update_self ..).symm.trans ht')
    have hle := h.waits t' ((Function.update_of_ne hne ..).symm.trans ht')
    simp only
    split_ifs at hsum <;> omega
  fifo := by
    rcases t with i | i
    · have heq := writes_reader (x := x) (i := i) (z := z)
        (y := { x with cache := m, threads := Function.update x.threads (.inl i) z }) rfl rfl
      rw [heq]
      exact h.fifo
    · obtain rfl : i = 0 := Subsingleton.elim ..
      have heq := writes_writer (x := x) (z := z)
        (y := { x with cache := m, threads := Function.update x.threads (.inr 0) z }) rfl
      rw [heq]
      exact hw rfl
  stuck t' calls ht' := by
    by_cases heq : t' = t
    · subst heq
      exact hz' calls ((Function.update_self ..).symm.trans ht')
    · exact hstuck (h.stuck t' calls ((Function.update_of_ne heq ..).symm.trans ht'))
  writer i calls ht' := by
    by_cases heq : .inr i = t
    · subst heq
      exact hwriter i calls rfl ((Function.update_self ..).symm.trans ht')
    · exact h.writer i calls ((Function.update_of_ne heq ..).symm.trans ht')

/-- One more request: a thread that waits for its queue is woken up, or none does. -/
theorem waits_addRequest {q : StorageCall} {w : Option HbaseThreadId}
    (h : ∀ t, x.threads t = .waiting → (x.queue t.queue).length ≤ x.awake t.queue)
    (ha : x.addRequest q w = some y) (t : HbaseThreadId) (ht : y.threads t = .waiting) :
    (y.queue t.queue).length ≤ y.awake t.queue := by
  cases w with
  | none =>
    obtain ⟨hnone, ha⟩ := Option.ite_none_right_eq_some.1 ha
    obtain rfl := Option.some.inj ha
    have hne : t.queue ≠ q.2.queue := by
      intro heq
      have hw := hnone t heq
      rw [show x.threads t = .waiting from ht] at hw
      cases hw
    simp only [Function.update_of_ne hne]
    exact h t ht
  | some t₀ =>
    obtain ⟨⟨hqueue, hwait⟩, ha⟩ := Option.ite_none_right_eq_some.1 ha
    obtain rfl := Option.some.inj ha
    have hsum := awake_update (x := x) (z := .looping) (t := t₀)
      (y := { x with
        queue := Function.update x.queue q.2.queue (x.queue q.2.queue ++ [q])
        threads := Function.update x.threads t₀ .looping }) rfl t.queue
    have hne : t ≠ t₀ := by
      rintro rfl
      cases (Function.update_self ..).symm.trans ht
    have hle := h t ((Function.update_of_ne hne ..).symm.trans ht)
    have hlooping : HbaseThread.looping.awake = 1 := rfl
    rw [of_isWaiting hwait, show HbaseThread.waiting.awake = 0 from rfl, hlooping, hqueue] at hsum
    by_cases heq : q.2.queue = t.queue
    · rw [if_pos heq, if_pos heq] at hsum
      simp only [← heq, Function.update_self, List.length_append, List.length_singleton] at hsum ⊢
      rw [heq] at hsum ⊢
      omega
    · rw [if_neg heq, if_neg heq] at hsum
      simp only [Function.update_of_ne (Ne.symm heq)]
      omega

theorem waits_ask {asks : HbaseAsks}
    (h : ∀ t, x.threads t = .waiting → (x.queue t.queue).length ≤ x.awake t.queue)
    (ha : ask asks x = some y) : ∀ t, y.threads t = .waiting →
      (y.queue t.queue).length ≤ y.awake t.queue := by
  induction asks generalizing x with
  | nil =>
    obtain rfl := Option.some.inj ha
    exact h
  | cons a asks ih =>
    obtain ⟨z, hz, ha⟩ := Option.bind_eq_some_iff.1 ha
    exact ih (waits_addRequest h hz) ha

theorem Asked.writes {asks : List StorageCall} (h : Asked asks x y) :
    y.writes = x.writes ++ (asks.filter fun q => q.2.queue = .write).map fun q => q.2.isFlush := by
  have hcalls : (y.threads (.inr 0)).calls = (x.threads (.inr 0)).calls := by
    rcases h.threads (.inr 0) with ht | ⟨ht, ht'⟩
    · rw [ht]
    · rw [ht, ht']
      rfl
  rw [HbaseCache.writes, HbaseCache.writes, hcalls, h.queue, ← List.append_assoc, List.map_append]

/-- New requests come into the queues. -/
theorem Wakes.asked (h : Wakes x) {asks : HbaseAsks} (ha : ask asks x = some y)
    (hstuck : Stuck x.cache → Stuck m) (hw : y.writes.Pairwise (· ≤ ·)) :
    Wakes { y with cache := m } := by
  have hasked := asked_of_ask ha
  refine ⟨fun t ht => waits_ask h.waits ha t ht, hw, fun t calls ht => ?_, fun i calls ht => ?_⟩
  · rcases hasked.threads t with heq | ⟨-, hloop⟩
    · exact hstuck (h.stuck t calls (heq.symm.trans ht))
    · cases hloop.symm.trans ht
  · rcases hasked.threads (.inr i) with heq | ⟨-, hloop⟩
    · exact h.writer i calls (heq.symm.trans ht)
    · cases hloop.symm.trans ht

/-- Outside `flushCache` none of its writes is in flight. -/
theorem Books.not_isFlush (h : Books x) (ho : x.cache.owner .fileCacheMutex ≠ some .client)
    {q : StorageCall} (hq : q ∈ x.cache.pending) : q.2.isFlush = false :=
  flushes_eq_zero.1 (h.flights.idle ho) q.1 q.2 (mem_inFlight.2 hq)

theorem Books.writes_false (h : Books x) (ho : x.cache.owner .fileCacheMutex ≠ some .client) :
    ∀ b ∈ x.writes, b = false := by
  intro b hb
  obtain ⟨q, hq, rfl⟩ := List.mem_map.1 hb
  refine h.not_isFlush ho ?_
  rcases List.mem_append.1 hq with hq | hq
  · exact h.mem_pending hq
  · exact h.queue_pending hq

theorem pairwise_of_false {l : List Bool} (h : ∀ b ∈ l, b = false) : l.Pairwise (· ≤ ·) :=
  List.pairwise_of_forall_mem_list fun a ha b hb => by rw [h a ha, h b hb]

/-- `flushCache` puts its writes behind all others. -/
theorem pairwise_append_true {l l' : List Bool} (h : l.Pairwise (· ≤ ·))
    (h' : ∀ b ∈ l', b = true) : (l ++ l').Pairwise (· ≤ ·) := by
  refine List.pairwise_append.2 ⟨h, ?_, fun a _ b hb => ?_⟩
  · exact List.pairwise_of_forall_mem_list fun a ha b hb => by rw [h' a ha, h' b hb]
  · rw [h' b hb]
    exact Bool.le_true a

/-- Every step of the client keeps the order of the writes. -/
theorem Wakes.client {c : CacheChoice × HbaseAsks} {o : CacheOp} {a : o.Res} (h : Wakes x)
    (hx : Books x) (hc : HbaseCache.client cfg c o x = some (a, y)) : Wakes y := by
  obtain ⟨-, hm, z, ha, hy, hp⟩ := client_cases hc
  obtain ⟨new, hpnew, -, hnew⟩ := CacheState.made_client hm
  obtain rfl := add_right_cancel (hp.symm.trans hpnew)
  rw [hy]
  refine h.asked ha (fun hs => hs.client (.of_client hm)) ?_
  rw [(asked_of_ask ha).writes]
  have hmem : ∀ b ∈ ((c.2.map Prod.fst).filter fun q => q.2.queue = .write).map
      (fun q => q.2.isFlush), ∃ q ∈ c.2.map Prod.fst, q.2.isFlush = b := by
    intro b hb
    obtain ⟨q, hq, rfl⟩ := List.mem_map.1 hb
    exact ⟨q, (List.mem_filter.1 hq).1, rfl⟩
  rcases hnew with hnil | ⟨-, hflush⟩ | ⟨hfree, hnone⟩
  · rw [(Multiset.coe_eq_zero _).1 hnil]
    simpa using h.fifo
  · refine pairwise_append_true h.fifo fun b hb => ?_
    obtain ⟨q, hq, rfl⟩ := hmem b hb
    exact hflush q hq
  · refine pairwise_of_false fun b hb => ?_
    rcases List.mem_append.1 hb with hb | hb
    · exact hx.writes_false (by rw [hfree]; exact fun h => by cases h) b hb
    · obtain ⟨q, hq, rfl⟩ := hmem b hb
      exact hnone q hq

/-- A thread that takes a batch, or finds its queue empty. -/
theorem Wakes.take (h : Wakes x) {batch rest : List StorageCall} {z : HbaseThread}
    (ht : x.threads t = .looping) (hq : x.queue t.queue = batch ++ rest)
    (hz : z = .waiting ∧ batch ++ rest = [] ∨
      z = .requesting (batch.map fun q => (q, false)) ∧ batch ≠ []) :
    Wakes { x with
      queue := Function.update x.queue t.queue rest
      threads := Function.update x.threads t z } where
  waits t' ht' := by
    have hsum := awake_update (x := x) (z := z) (t := t)
      (y := { x with
        queue := Function.update x.queue t.queue rest
        threads := Function.update x.threads t z }) rfl t'.queue
    rw [ht, show HbaseThread.looping.awake = 1 from rfl] at hsum
    by_cases heq : t' = t
    · subst heq
      obtain ⟨-, hnil⟩ | ⟨hz, -⟩ := hz
      · simp only [Function.update_self, (List.append_eq_nil_iff.1 hnil).2]
        exact Nat.zero_le _
      · cases hz.symm.trans ((Function.update_self ..).symm.trans ht')
    · have hle := h.waits t' ((Function.update_of_ne heq ..).symm.trans ht')
      by_cases hqueue : t.queue = t'.queue
      · rw [if_pos hqueue, if_pos hqueue] at hsum
        rw [← hqueue, hq, List.length_append] at hle
        simp only [← hqueue, Function.update_self] at hsum ⊢
        obtain ⟨-, hnil⟩ | ⟨-, hne⟩ := hz
        · rw [(List.append_eq_nil_iff.1 hnil).2]
          exact Nat.zero_le _
        · have hpos := List.length_pos_iff.2 hne
          omega
      · rw [if_neg hqueue, if_neg hqueue] at hsum
        simp only [Function.update_of_ne (Ne.symm hqueue)]
        omega
  fifo := by
    rcases t with i | i
    · have heq := writes_reader (x := x) (i := i) (z := z)
        (y := { x with
          queue := Function.update x.queue .read rest
          threads := Function.update x.threads (.inl i) z }) rfl rfl
      exact heq ▸ h.fifo
    · obtain rfl : i = 0 := Subsingleton.elim ..
      have heq := writes_writer (x := x) (z := z)
        (y := { x with
          queue := Function.update x.queue .write rest
          threads := Function.update x.threads (.inr 0) z }) rfl
      have hcalls : z.calls ++ rest = x.queue .write := by
        obtain ⟨rfl, hnil⟩ | ⟨rfl, -⟩ := hz
        · rw [show x.queue .write = batch ++ rest from hq, hnil,
            (List.append_eq_nil_iff.1 hnil).2]
          rfl
        · rw [show x.queue .write = batch ++ rest from hq]
          simp [HbaseThread.calls, Function.comp_def]
      have hfifo := h.fifo
      rw [writes, ht] at hfifo
      refine heq ▸ ?_
      simp only [Function.update_self, hcalls]
      exact hfifo
  stuck t' calls ht' := by
    by_cases heq : t' = t
    · subst heq
      have hstuck := (Function.update_self ..).symm.trans ht'
      obtain ⟨rfl, -⟩ | ⟨rfl, -⟩ := hz <;> cases hstuck
    · exact h.stuck t' calls ((Function.update_of_ne heq ..).symm.trans ht')
  writer i calls ht' := by
    by_cases heq : .inr i = t
    · subst heq
      have hwriter := (Function.update_self ..).symm.trans ht'
      obtain ⟨rfl, -⟩ | ⟨rfl, -⟩ := hz <;> cases hwriter
    · exact h.writer i calls ((Function.update_of_ne heq ..).symm.trans ht')

theorem afterCallback_ne_waiting (f : LongId) (m : CacheState) (calls : List StorageCall)
    (r : Request) : afterCallback f m calls r ≠ .waiting := by
  cases r with
  | read | flush => exact fun h => by cases h
  | evict data w =>
    rw [afterCallback]
    split_ifs <;> exact fun h => by cases h

theorem stuck_of_afterCallback {calls calls' : List StorageCall}
    (h : afterCallback f m calls r = .stuck calls') : Stuck m := by
  cases r with
  | read | flush => cases h
  | evict data w =>
    rw [afterCallback] at h
    split_ifs at h with ho
    exact ⟨f, ho⟩

theorem queue_ne_write_of_afterCallback {calls calls' : List StorageCall}
    (h : afterCallback f m calls r = .maintenance calls') : r.queue ≠ .write := by
  cases r with
  | read => exact fun h => by cases h
  | flush => cases h
  | evict data w =>
    rw [afterCallback] at h
    split_ifs at h

/-- The writer goes on, and has the flags of its requests as before. -/
theorem Wakes.fifo_writer (h : Wakes x) {calls calls' : List StorageCall}
    (ht : (x.threads (.inr 0)).calls = calls)
    (hc : calls'.map (fun q => q.2.isFlush) <:+ calls.map fun q => q.2.isFlush) :
    ((calls' ++ x.queue .write).map fun q => q.2.isFlush).Pairwise (· ≤ ·) := by
  have hfifo := h.fifo
  rw [writes, ht, List.map_append] at hfifo
  rw [List.map_append]
  exact hfifo.sublist (hc.sublist.append_right _)

/-- Every step of the threads and the server keeps the order of the writes. -/
theorem Wakes.moved {e : HbaseEvent} (h : Wakes x) (hx : Books x) (hs : Moved d cfg x e y) :
    Wakes y := by
  cases hs with
  | rest t ht hq =>
    have htake := h.take (z := .waiting) ht (show x.queue t.queue = [] ++ [] from hq)
      (.inl ⟨rfl, rfl⟩)
    rwa [show Function.update x.queue t.queue [] = x.queue by
      rw [← hq]
      exact Function.update_eq_self ..] at htake
  | take t batch rest ht hq hb => exact h.take ht hq (.inr ⟨rfl, hb⟩)
  | serve t k batch f r ht hk =>
    refine h.setThread (fun h => by cases h) (by rw [ht]; exact Nat.le_refl 0) ?_
      (fun _ h => by cases h) (fun _ _ _ h => by cases h) fun hw => ?_
    · cases hm : x.cache.env cfg (.complete f r) with
      | none => exact id
      | some m => exact fun hs => hs.env (.of_env hm)
    · subst hw
      obtain ⟨before, after, hbatch, hset⟩ :=
        exists_split hk ((f, r.completed (x.cache.storage f)), true)
      have hflags : ((batch.set k ((f, r.completed (x.cache.storage f)), true)).map Prod.fst).map
          (fun q => q.2.isFlush) = (batch.map Prod.fst).map fun q => q.2.isFlush := by
        rw [hset, hbatch]
        simp [Request.isFlush_completed]
      exact h.fifo_writer (congrArg HbaseThread.calls ht) (hflags ▸ List.suffix_refl _)
  | abort i batch ht hb hg => exact ⟨h.waits, h.fifo, h.stuck, h.writer⟩
  | read i batch results ht hb hg =>
    exact h.setThread (fun h => by cases h) (by rw [ht]; exact Nat.le_refl 0) id
      (fun _ h => by cases h) (fun _ _ _ h => by cases h) fun hw => by cases hw
  | write i batch ht hb =>
    refine h.setThread (fun h => by cases h) (by rw [ht]; exact Nat.le_refl 0) id
      (fun _ h => by cases h) (fun _ _ _ h => by cases h) fun hw => ?_
    obtain rfl : i = 0 := Subsingleton.elim ..
    exact h.fifo_writer (congrArg HbaseThread.calls ht) (List.suffix_refl _)
  | callback t f r calls m ht hm =>
    refine h.setThread (afterCallback_ne_waiting f m calls r) (by rw [ht]; exact Nat.zero_le _)
      (fun hs => hs.env (.of_env hm)) (fun _ => stuck_of_afterCallback) (fun i calls' hw heq => ?_)
      fun hw => ?_
    · subst hw
      have hholds : (x.threads (.inr i)).Holds .write := hx.holds (.inr i)
      rw [ht] at hholds
      exact queue_ne_write_of_afterCallback heq (hholds _ List.mem_cons_self).2
    · subst hw
      refine h.fifo_writer (congrArg HbaseThread.calls ht) ?_
      rw [calls_afterCallback]
      exact List.suffix_cons _ _
  | maintenance t busy asks calls m z ht hm ha hp =>
    have hasked := asked_of_ask ha
    obtain ⟨-, hc⟩ := Option.ite_none_right_eq_some.1 hm
    have hfree := Flights.free_of_maintenance hc
    have hthread : z.threads t = .maintenance calls := by
      rcases hasked.threads t with heq | ⟨hwait, -⟩
      · rw [heq, ht]
      · cases hwait.symm.trans ht
    have hz : Wakes { z with cache := m } := by
      obtain ⟨new, hpnew, hnew⟩ := CacheState.made_maintenance hc
      obtain rfl := add_right_cancel (hp.symm.trans hpnew)
      refine h.asked ha (fun hs => hs.env (.of_env hm)) (pairwise_of_false fun b hb => ?_)
      rw [hasked.writes] at hb
      rcases List.mem_append.1 hb with hb | hb
      · have hfree' : x.cache.owner .fileCacheMutex = none := hfree
        exact hx.writes_false (by rw [hfree']; exact fun h => by cases h) b hb
      · obtain ⟨q, hq, rfl⟩ := List.mem_map.1 hb
        exact (hnew q (List.mem_filter.1 hq).1).2
    refine hz.setThread (t := t) (z := .answering calls) (fun h => by cases h) ?_ id
      (fun _ h => by cases h) (fun _ _ _ h => by cases h) fun hw => ?_
    · rw [show HbaseCache.threads _ t = _ from hthread]
      exact Nat.zero_le _
    · subst hw
      exact absurd ht (h.writer 0 calls)
  | loop t ht =>
    refine h.setThread (fun h => by cases h) (by rw [ht]; exact Nat.zero_le 1) id
      (fun _ h => by cases h) (fun _ _ _ h => by cases h) fun hw => ?_
    subst hw
    exact h.fifo_writer (congrArg HbaseThread.calls ht) (List.suffix_refl _)
  | spurious t ht =>
    refine h.setThread (fun h => by cases h) (by rw [ht]; exact Nat.zero_le 1) id
      (fun _ h => by cases h) (fun _ _ _ h => by cases h) fun hw => ?_
    subst hw
    exact h.fifo_writer (congrArg HbaseThread.calls ht) (List.suffix_refl _)

/-- The order of the writes goes along with the simulation. -/
theorem hbase_simulates_wakes (d : ℕ) (cfg : Config) :
    (hbaseMachine d cfg).Simulates (fun _ o => NoMerge o) Store.step
      (fun x σ => Wakes x ∧ Books x ∧ Sim Eq x.cache σ) where
  client c h ho hc hs := by
    obtain ⟨c', σ', hstep, hsim⟩ := (hbase_simulates d cfg).client c h.2 ho hc hs
    exact ⟨c', σ', hstep, h.1.client h.2.1 hc, hsim⟩
  env e h he := ⟨h.1.moved h.2.1 (moved_of_env he), (hbase_simulates d cfg).env e h.2 he⟩

/-! ### While `flushCache` waits -/

/-- Seen from the cache, a step of the storage is one of `cacheMachine` or none. -/
theorem Moved.cache {e : HbaseEvent} (he : HbaseCache.env d cfg e x = some y) :
    y.cache = x.cache ∨ EnvStep cfg x.cache y.cache :=
  ((hbaseMachine_refines d cfg).env he).imp id fun ⟨_, h⟩ => .of_env h

/-- What is known while `flushCache` waits. -/
structure AtFlush (x : HbaseCache) (σ : Store) : Prop where
  books : Books x
  wakes : Wakes x
  sim : Sim Eq x.cache σ
  held : x.cache.owner .fileCacheMutex = some .client

theorem AtFlush.env {e : HbaseEvent} (h : AtFlush x σ)
    (he : HbaseCache.env d cfg e x = some y) :
    AtFlush y σ ∧ y.cache.evictions = x.cache.evictions := by
  have hs := moved_of_env he
  obtain ⟨hbooks, hsim⟩ := (hbase_simulates d cfg).env e ⟨h.books, h.sim⟩ he
  rcases Moved.cache he with heq | henv
  · exact ⟨⟨hbooks, h.wakes.moved h.books hs, hsim, by rw [heq]; exact h.held⟩, by rw [heq]⟩
  · exact ⟨⟨hbooks, h.wakes.moved h.books hs, hsim, by rw [(henv.held h.held).1]; exact h.held⟩,
      henv.evictions_of_held h.held⟩

theorem Holds.queue {s : HbaseQueue} {z : HbaseThread} (h : z.Holds s) {q : StorageCall}
    (hq : q ∈ z.calls) : q.2.queue = s := by
  cases z with
  | looping | waiting => exact absurd hq List.not_mem_nil
  | requesting batch =>
    obtain ⟨row, hrow, rfl⟩ := List.mem_map.1 hq
    exact (h row hrow).2
  | answering calls | maintenance calls | stuck calls => exact (h q hq).2

/-- A write is in the queue of the writer, or the writer has it. -/
theorem Books.mem_writer (h : Books x) {q : StorageCall} (hq : q ∈ x.cache.pending)
    (hw : q.2.queue = .write) : q ∈ (x.threads (.inr 0)).calls ++ x.queue .write := by
  rw [h.pending] at hq
  rcases Multiset.mem_add.1 hq with hq | hq
  · obtain ⟨s, -, hq⟩ := Multiset.mem_sum.1 hq
    obtain rfl : s = .write := (h.queued s q hq).2.symm.trans hw
    exact List.mem_append_right _ hq
  · obtain ⟨t, -, hq⟩ := Multiset.mem_sum.1 hq
    have ht : t.queue = .write := (Holds.queue (h.holds t) hq).symm.trans hw
    rcases t with i | i
    · cases ht
    · obtain rfl : i = 0 := Subsingleton.elim ..
      exact List.mem_append_left _ hq

theorem queue_of_isEvict (h : r.isEvict = true) : r.queue = .write ∧ r.isFlush = false := by
  cases r with
  | evict => exact ⟨rfl, rfl⟩
  | read | flush => cases h

theorem queue_of_isFlush (h : r.isFlush = true) : r.queue = .write := by
  cases r with
  | flush => rfl
  | read | evict => cases h

/-- While an eviction is under way, the writer does not come to the writes of `flushCache`. -/
theorem AtFlush.not_isFlush (h : AtFlush x σ) (hev : 0 < x.cache.evictions)
    {calls : List StorageCall} (ht : x.threads t = .answering ((f, r) :: calls)) :
    r.isFlush = false := by
  by_contra hflush
  rw [Bool.not_eq_false] at hflush
  have hqueue : r.queue = t.queue := Holds.queue (h.books.holds t) (q := (f, r)) (by
    rw [ht]
    exact List.mem_cons_self)
  rcases t with i | i
  · cases (queue_of_isFlush hflush).symm.trans hqueue
  obtain rfl : i = 0 := Subsingleton.elim ..
  obtain ⟨q, hq, hevict⟩ := Multiset.countP_pos.1 hev
  obtain ⟨hwrite, hnot⟩ := queue_of_isEvict hevict
  have hfifo := h.wakes.fifo
  have hmem := h.books.mem_writer hq hwrite
  rw [ht] at hmem
  rw [writes, ht, HbaseThread.calls, List.cons_append, List.map_cons, List.pairwise_cons] at hfifo
  rcases List.mem_cons.1 hmem with rfl | hmem
  · rw [hflush] at hnot
    cases hnot
  · have hle := hfifo.1 _ (List.mem_map_of_mem hmem)
    rw [hflush, hnot] at hle
    exact absurd hle (by decide)

theorem AtFlush.remaining_env {e : HbaseEvent} (h : AtFlush x σ)
    (he : HbaseCache.env d cfg e x = some y) (hev : 0 < x.cache.evictions) :
    y.cache.remaining = x.cache.remaining := by
  cases moved_of_env he with
  | rest | take | abort | read | write | loop | spurious => rfl
  | serve t k batch f r ht hk =>
    cases hm : x.cache.env cfg (.complete f r) with
    | none => rfl
    | some m => exact (CacheState.complete_cases hm).2.2.1
  | callback t f r calls m ht hm =>
    exact (CacheState.callback_cases hm).2.2.1 (h.not_isFlush hev ht)
  | maintenance t busy asks calls m z ht hm =>
    exact (DiskCache.not_maintenance_of_held h.held hm).elim

/-- So the client waits for ever. -/
theorem AtFlush.waits {α : Type} {ok : HbaseCache → CacheOp → Prop} {k : Unit → TreeM α}
    {q : TreeM α} (h : AtFlush x σ) (hr : 0 < x.cache.remaining) (hev : 0 < x.cache.evictions)
    (hrun : (hbaseMachine d cfg).Run ok (.call .flushWait k) x q y) :
    q = .call .flushWait k ∧ 0 < y.cache.remaining := by
  generalize hp : (Prog.call CacheOp.flushWait k : TreeM α) = p at hrun
  induction hrun with
  | refl => exact ⟨rfl, hr⟩
  | client c _ hc _ _ =>
    cases hp
    obtain ⟨-, hm, -⟩ := client_cases hc
    obtain ⟨-, hzero, -⟩ := CacheState.flushWait_cases hm
    rw [hzero] at hr
    cases hr
  | env e he _ ih =>
    obtain ⟨hy, heq⟩ := h.env he
    exact ih hy (by rwa [h.remaining_env he hev]) (by rwa [heq]) hp

/-- How many steps the threads can take while the client has the mutex. -/
def work (x : HbaseCache) : ℕ :=
  5 * ∑ s, (x.queue s).length + ∑ t, (x.threads t).work

theorem HbaseThread.work_le (z : HbaseThread) : z.work ≤ 3 + 5 * z.calls.length := by
  cases z with
  | looping => exact Nat.le_add_right_of_le (by decide)
  | waiting | stuck => exact Nat.zero_le _
  | requesting batch =>
    have hle := List.countP_le_length (p := fun row : StorageCall × Bool => !row.2) (l := batch)
    simp only [HbaseThread.work, HbaseThread.calls, List.length_map]
    omega
  | answering calls | maintenance calls =>
    simp only [HbaseThread.work, HbaseThread.calls]
    omega

theorem Books.work_le (h : Books x) :
    x.work ≤ 5 * x.cache.pending.card + 3 * Fintype.card HbaseThreadId := by
  have hsum : ∑ t, (x.threads t).work ≤ ∑ t, (3 + 5 * (x.threads t).calls.length) :=
    Finset.sum_le_sum fun t _ => HbaseThread.work_le (x.threads t)
  rw [Finset.sum_add_distrib, ← Finset.mul_sum, Finset.sum_const, Finset.card_univ,
    smul_eq_mul] at hsum
  have hcard : x.cache.pending.card =
      ∑ s, (x.queue s).length + ∑ t, (x.threads t).calls.length := by
    rw [h.pending, held, Multiset.card_add, Multiset.card_sum, Multiset.card_sum]
    rfl
  rw [work, hcard]
  omega

theorem work_setThread {z : HbaseThread} (h : z.work < (x.threads t).work) :
    work { x with
      cache := m
      threads := Function.update x.threads t z } < x.work := by
  have hsum := sum_update HbaseThread.work x.threads t z
  rw [work, work]
  simp only
  omega

theorem work_afterCallback (f : LongId) (m : CacheState) (calls : List StorageCall)
    (r : Request) : (afterCallback f m calls r).work ≤ 2 + calls.length := by
  cases r with
  | read | flush => exact Nat.le_refl _
  | evict data w =>
    rw [afterCallback]
    split_ifs
    · exact Nat.zero_le _
    · exact Nat.le_refl _

/-- Every step is one less to take. -/
theorem AtFlush.work_lt {e : HbaseEvent} (h : AtFlush x σ) (hown : e.own)
    (he : HbaseCache.env d cfg e x = some y) : y.work < x.work := by
  cases moved_of_env he with
  | rest t ht hq => exact work_setThread (by rw [ht]; exact Nat.one_pos)
  | take t batch rest ht hq hb =>
    have hqueues := sum_update List.length x.queue t.queue rest
    have hthreads := sum_update HbaseThread.work x.threads t
      (.requesting (batch.map fun q => (q, false)))
    have hwork : (HbaseThread.requesting (batch.map fun q => (q, false))).work =
        3 + 2 * batch.length := by
      simp [HbaseThread.work, List.countP_map, Function.comp_def]
      omega
    rw [ht, hwork, show HbaseThread.looping.work = 1 from rfl] at hthreads
    rw [hq, List.length_append] at hqueues
    have hpos := List.length_pos_iff.2 hb
    rw [work, work]
    simp only
    omega
  | serve t k batch f r ht hk =>
    refine work_setThread ?_
    obtain ⟨before, after, hbatch, hset⟩ :=
      exists_split hk ((f, r.completed (x.cache.storage f)), true)
    rw [ht, hset, hbatch]
    simp [HbaseThread.work]
  | abort i batch ht hb hg =>
    cases (h.env he).1.books.running
  | read i batch results ht hb hg =>
    refine work_setThread ?_
    rw [ht]
    simp only [HbaseThread.work, List.length_map, List.length_zip]
    omega
  | write i batch ht hb =>
    refine work_setThread ?_
    rw [ht]
    simp only [HbaseThread.work, List.length_map]
    omega
  | callback t f r calls m ht hm =>
    refine work_setThread ?_
    have hle := work_afterCallback f m calls r
    rw [ht, HbaseThread.work, List.length_cons]
    omega
  | maintenance t busy asks calls m z ht hm =>
    exact (DiskCache.not_maintenance_of_held h.held hm).elim
  | loop t ht => exact work_setThread (by rw [ht]; exact Nat.one_lt_two)
  | spurious => exact hown.elim

/-- No thread can take a step. -/
def AtRest (d : ℕ) (cfg : Config) (x : HbaseCache) : Prop :=
  ∀ e : HbaseEvent, e.own → env d cfg e x = none

theorem AtRest.step (h : AtRest d cfg x) (hx : x.aborted = false) {e : HbaseEvent} (he : e.own) :
    x.step d cfg e = none := by
  have henv := h e he
  rwa [env, if_neg (by rw [hx]; simp)] at henv

/-- When no thread can go on and no eviction is under way, the writer waits. -/
theorem AtRest.writer (h : AtRest d cfg x) (hx : AtFlush x σ) (hev : x.cache.evictions = 0) :
    x.threads (.inr 0) = .waiting := by
  have hstep : ∀ {e : HbaseEvent}, e.own → x.step d cfg e = none := h.step hx.books.running
  cases ht : x.threads (.inr 0) with
  | waiting => rfl
  | looping =>
    have htake := hstep (e := .take (.inr 0)) trivial
    simp only [HbaseCache.step, HbaseCache.take, ht] at htake
    split_ifs at htake
  | requesting batch =>
    by_cases hall : batch.all Prod.snd = true
    · have hreply := hstep (e := .reply (.inr 0)) trivial
      simp only [HbaseCache.step, HbaseCache.reply, ht, if_pos hall, reduceCtorEq] at hreply
    · simp only [List.all_eq_true, not_forall] at hall
      obtain ⟨⟨⟨f, r⟩, b⟩, hrow, hb⟩ := hall
      obtain ⟨k, hk⟩ := List.mem_iff_getElem?.1 hrow
      have hserve := hstep (e := .serve (.inr 0) k) trivial
      cases b with
      | true => exact absurd rfl hb
      | false => simp only [HbaseCache.step, HbaseCache.serve, ht, hk, reduceCtorEq] at hserve
  | maintenance calls => exact absurd ht (hx.wakes.writer 0 calls)
  | stuck calls => exact absurd hx.held (hx.wakes.stuck _ calls ht).busy.2
  | answering calls =>
    cases calls with
    | nil =>
      have hloop := hstep (e := .loop (.inr 0)) trivial
      simp only [HbaseCache.step, ht, reduceCtorEq] at hloop
    | cons q calls =>
      obtain ⟨f, r⟩ := q
      have hmem : (f, r) ∈ (x.threads (.inr 0)).calls := by
        rw [ht]
        exact List.mem_cons_self
      have hp := hx.books.mem_pending hmem
      have hholds : (x.threads (.inr 0)).Holds .write := hx.books.holds (.inr 0)
      rw [ht] at hholds
      obtain ⟨hdone, hqueue⟩ := hholds (f, r) List.mem_cons_self
      cases r with
      | read buffer => cases hqueue
      | evict data w =>
        have hpos : 0 < x.cache.evictions := Multiset.countP_pos.2 ⟨_, hp, rfl⟩
        omega
      | flush data w =>
        obtain rfl : w = true := hdone
        obtain ⟨m, hm⟩ : ∃ m, x.cache.env cfg (.callback f (.flush data true)) = some m :=
          CacheState.exists_flushCb hx.books.flights hx.held hp
        have hcallback := hstep (e := .callback (.inr 0)) trivial
        simp only [HbaseCache.step, HbaseCache.callback, ht, hm, Option.map_some,
          reduceCtorEq] at hcallback

/-- Then all writes of `flushCache` are answered. -/
theorem AtRest.remaining (h : AtRest d cfg x) (hx : AtFlush x σ) (hev : x.cache.evictions = 0) :
    x.cache.remaining = 0 := by
  have hwait := h.writer hx hev
  have hawake : x.awake .write = 0 := by
    refine Finset.sum_eq_zero fun t _ => ?_
    rcases t with i | i
    · rfl
    · obtain rfl : i = 0 := Subsingleton.elim ..
      rw [hwait]
      rfl
  have hlen := hx.wakes.waits _ hwait
  rw [show HbaseThreadId.queue (.inr 0) = .write from rfl, hawake, Nat.le_zero,
    List.length_eq_zero_iff] at hlen
  rw [hx.books.flights.remaining hx.held, flushes, Multiset.countP_eq_zero]
  intro q hq hflush
  have hmem := hx.books.mem_writer hq (queue_of_isFlush hflush)
  rw [hwait, hlen] at hmem
  exact List.not_mem_nil hmem

/-- Without evictions, the threads come to rest after all writes of `flushCache`. -/
theorem AtFlush.answers (h : AtFlush x σ) (hev : x.cache.evictions = 0) {es : List HbaseEvent}
    (hown : ∀ e ∈ es, e.own) (hplay : play (HbaseCache.env d cfg) es x = some y) :
    es.length ≤ 5 * x.cache.pending.card + 3 * Fintype.card HbaseThreadId ∧
      (AtRest d cfg y → y.aborted = false ∧
        y.cache.owner .fileCacheMutex = some .client ∧ y.cache.remaining = 0) := by
  obtain ⟨⟨hy, hev'⟩, hle⟩ := play_bounded
    (I := fun z => AtFlush z σ ∧ z.cache.evictions = 0) (w := work) hplay ⟨h, hev⟩
    fun e he z z' hz hstep => by
      obtain ⟨hz', heq⟩ := hz.1.env hstep
      exact ⟨⟨hz', heq.trans hz.2⟩, hz.1.work_lt (hown e he) hstep⟩
  have hwork := h.books.work_le
  exact ⟨by omega, fun hrest => ⟨hy.books.running, hy.held, hrest.remaining hy hev'⟩⟩

end HbaseCache

/-- The check that the program waits in `flushCache`. -/
def isFlushWait : TreeM Unit → Bool
  | .call .flushWait _ => true
  | _ => false

theorem of_isFlushWait {q : TreeM Unit} (h : isFlushWait q = true) :
    ∃ k, q = .call .flushWait k := by
  cases q with
  | ret a => cases h
  | fail e => cases h
  | call o k =>
    cases o with
    | flushWait => exact ⟨k, rfl⟩
    | _ => cases h

end MegaTree
