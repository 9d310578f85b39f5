import MegaTree.Cache.Client

/-!
# What is in flight

`Flights m` holds in every state that any client program can reach: nothing is in flight for a file
that is not in the cache, one read for a file that is being read, one eviction write for a file that
is being evicted, and writes of `flushCache` only while the client is in it.

* `Flight` : the requests that fit each state of a file.
* `Flights.client`, `Flights.env`, `Flights.run` : every step keeps the books of the requests.
-/

namespace MegaTree

open Effect

/-! ### The requests of a file -/

/-- The requests in flight for a file in a state; `none` is a file that is not in the cache. -/
inductive Flight (state : Option NodeState) (requests : Multiset Request) : Prop
  | absent (hs : state = none) (hr : requests = 0)
  | reading (buffer : Option ByteVec) (hs : state = some .loading) (hr : requests = {.read buffer})
  | loaded (hs : state = some .loaded) (hr : ∀ r ∈ requests, r.isFlush = true)
  | evicting (data : ByteVec) (written : Bool) (rest : Multiset Request)
      (hs : state = some .evicting ∨ state = some .loading)
      (hr : requests = .evict data written ::ₘ rest) (hrest : ∀ r ∈ rest, r.isFlush = true)

/-- The state of the object of a file. -/
def CacheState.state (m : CacheState) (f : LongId) : Option NodeState :=
  (m.files f).map NodeFile.nodeState

/-- The requests in flight are those that the states of the files call for. -/
structure Flights (m : CacheState) : Prop where
  locks : LocksOk m
  remaining : m.owner .fileCacheMutex = some .client → m.remaining = flushes m.pending
  idle : m.owner .fileCacheMutex ≠ some .client → flushes m.pending = 0
  file : ∀ f, Flight (m.state f) (inFlight m.pending f)

variable {cfg : Config} {m m' : CacheState} {f g : LongId} {state : Option NodeState}
  {requests : Multiset Request} {data : ByteVec} {w : Bool} {r : Request} {file : NodeFile}

namespace Flight

theorem of_evict (h : Flight state requests) (hr : .evict data w ∈ requests) :
    (state = some .evicting ∨ state = some .loading) ∧
      ∃ rest, requests = .evict data w ::ₘ rest ∧ ∀ r ∈ rest, r.isFlush = true := by
  cases h with
  | absent hs h => rw [h] at hr; exact absurd hr (Multiset.notMem_zero _)
  | reading buffer hs h => rw [h, Multiset.mem_singleton] at hr; cases hr
  | loaded hs h => cases h _ hr
  | evicting data' w' rest hs h hrest =>
    rw [h] at hr
    rcases Multiset.mem_cons.1 hr with hr | hr
    · cases hr
      exact ⟨hs, rest, h, hrest⟩
    · cases hrest _ hr

theorem of_read {buffer : Option ByteVec} (h : Flight state requests)
    (hr : .read buffer ∈ requests) : state = some .loading ∧ requests = {.read buffer} := by
  cases h with
  | absent hs h => rw [h] at hr; exact absurd hr (Multiset.notMem_zero _)
  | reading buffer' hs h =>
    rw [h, Multiset.mem_singleton] at hr
    cases hr
    exact ⟨hs, h⟩
  | loaded hs h => cases h _ hr
  | evicting data' w' rest hs h hrest =>
    rw [h] at hr
    rcases Multiset.mem_cons.1 hr with hr | hr
    · cases hr
    · cases hrest _ hr

theorem of_evicting (h : Flight (some .evicting) requests) : ∃ data w rest,
    requests = .evict data w ::ₘ rest ∧ ∀ r ∈ rest, r.isFlush = true := by
  cases h with
  | evicting data w rest hs hr hrest => exact ⟨data, w, rest, hr, hrest⟩
  | absent hs => cases hs
  | reading buffer hs => cases hs
  | loaded hs => cases hs

theorem of_loaded (h : Flight (some .loaded) requests) : ∀ r ∈ requests, r.isFlush = true := by
  cases h with
  | loaded hs h => exact h
  | absent hs => cases hs
  | reading buffer hs => cases hs
  | evicting data' w' rest hs => rcases hs with hs | hs <;> cases hs

theorem of_none (h : Flight none requests) : requests = 0 := by
  cases h with
  | absent hs h => exact h
  | reading buffer hs => cases hs
  | loaded hs => cases hs
  | evicting data' w' rest hs => rcases hs with hs | hs <;> cases hs

/-- Writes of `flushCache` come and go, except for a file that is not there or not loaded yet. -/
theorem exchange {a b rest : Multiset Request} (h : Flight state (a + rest))
    (hold : ∀ r ∈ a, r.isFlush = true) (hnew : ∀ r ∈ b, r.isFlush = true)
    (hs : a ≠ 0 ∨ ∃ s, state = some s ∧ s ≠ .loading) : Flight state (b + rest) := by
  have hne : state ≠ none := by
    rcases hs with hs | ⟨s, rfl, -⟩
    · rintro rfl
      exact hs (add_eq_zero.1 h.of_none).1
    · exact Option.some_ne_none s
  cases h with
  | absent h' => exact absurd h' hne
  | reading buffer h' hr =>
    exfalso
    rcases hs with hs | ⟨s, hs, hl⟩
    · obtain ⟨r, hr'⟩ := Multiset.exists_mem_of_ne_zero hs
      have hmem : r ∈ a + rest := Multiset.mem_add.2 (.inl hr')
      rw [hr, Multiset.mem_singleton] at hmem
      cases hmem ▸ hold r hr'
    · exact hl (Option.some.inj (hs.symm.trans h'))
  | loaded h' hr =>
    refine .loaded h' fun r hr' => ?_
    rcases Multiset.mem_add.1 hr' with hr' | hr'
    · exact hnew r hr'
    · exact hr r (Multiset.mem_add.2 (.inr hr'))
  | evicting data w rest' h' hr hrest =>
    -- the eviction write is not one of the old writes of `flushCache`
    have hmem : Request.evict data w ∈ rest := by
      have : Request.evict data w ∈ a + rest := hr ▸ Multiset.mem_cons_self ..
      rcases Multiset.mem_add.1 this with h | h
      · cases hold _ h
      · exact h
    obtain ⟨rest₁, rfl⟩ := Multiset.exists_cons_of_mem hmem
    rw [Multiset.add_cons, Multiset.cons_inj_right] at hr
    refine .evicting data w (b + rest₁) h' (Multiset.add_cons ..) fun r hr' => ?_
    rcases Multiset.mem_add.1 hr' with hr' | hr'
    · exact hnew r hr'
    · exact hrest r (hr ▸ Multiset.mem_add.2 (.inr hr'))

theorem isFlush_of_mem_singleton : ∀ r ∈ ({.flush data w} : Multiset Request), r.isFlush = true := by
  intro r hr
  rw [Multiset.mem_singleton.1 hr]
  rfl

theorem addFlush (h : Flight state requests) (hs : ∃ s, state = some s ∧ s ≠ .loading) :
    Flight state (.flush data w ::ₘ requests) :=
  exchange (a := 0) (b := {.flush data w}) (by rwa [zero_add])
    (fun r hr => absurd hr (Multiset.notMem_zero r)) isFlush_of_mem_singleton (.inr hs)

theorem takeFlush (h : Flight state requests) (hr : .flush data w ∈ requests) :
    Flight state (requests.erase (.flush data w)) := by
  rw [← Multiset.cons_erase hr] at h
  have := exchange (a := {.flush data w}) (b := 0) h isFlush_of_mem_singleton
    (fun r hr => absurd hr (Multiset.notMem_zero r)) (.inl (Multiset.singleton_ne_zero _))
  rwa [zero_add] at this

theorem completeFlush (h : Flight state requests) (hr : .flush data w ∈ requests) :
    Flight state (.flush data true ::ₘ requests.erase (.flush data w)) := by
  rw [← Multiset.cons_erase hr] at h
  exact exchange (a := {.flush data w}) (b := {.flush data true}) h isFlush_of_mem_singleton
    isFlush_of_mem_singleton (.inl (Multiset.singleton_ne_zero _))

end Flight

namespace Flights

theorem opened (storage : LongId → Option ByteVec) : Flights (.opened storage) where
  locks := ⟨fun _ h => absurd rfl h, fun _ _ _ h => (nomatch h)⟩
  remaining h := nomatch h
  idle _ := rfl
  file _ := .absent rfl rfl

/-- A step that changes one file. -/
theorem update (h : Flights m) (f : LongId) (hm : ∀ g, g ≠ f → m'.state g = m.state g)
    (hp : ∀ g, g ≠ f → inFlight m'.pending g = inFlight m.pending g) (ho : m'.owner = m.owner)
    (hr : m.owner .fileCacheMutex = some .client →
      m'.remaining + flushes m.pending = m.remaining + flushes m'.pending)
    (hi : m.owner .fileCacheMutex ≠ some .client → flushes m'.pending = flushes m.pending)
    (hd : ∀ data w, (f, .evict data w) ∈ m'.pending →
      m.owner .fileCacheMutex ≠ some (.evictNodeFileCb f))
    (hf : Flight (m'.state f) (inFlight m'.pending f)) : Flights m' where
  locks := by
    refine ⟨by rw [ho]; exact h.locks.file, fun g data w hg hmem => ?_⟩
    rw [ho] at hg
    by_cases hgf : g = f
    · subst hgf
      exact hd data w hmem hg
    · rw [← mem_inFlight, hp g hgf, mem_inFlight] at hmem
      exact h.locks.dead g data w hg hmem
  remaining hc := by
    rw [ho] at hc
    have := hr hc
    have := h.remaining hc
    omega
  idle hc := by
    rw [ho] at hc
    rw [hi hc, h.idle hc]
  file g := by
    by_cases hgf : g = f
    · rw [hgf]; exact hf
    · rw [hm g hgf, hp g hgf]; exact h.file g

theorem congr (h : Flights m) (hm : ∀ f, m'.state f = m.state f) (hp : m'.pending = m.pending)
    (ho : m'.owner = m.owner) (hr : m'.remaining = m.remaining) : Flights m' where
  locks := ⟨by rw [ho]; exact h.locks.file, by rw [ho, hp]; exact h.locks.dead⟩
  remaining := by rw [ho, hp, hr]; exact h.remaining
  idle := by rw [ho, hp]; exact h.idle
  file f := by rw [hm, hp]; exact h.file f

theorem worked (h : Flights m) (hw : CacheState.Worked m m') : Flights m' := by
  refine h.congr (fun f => ?_) hw.pending hw.owner hw.remaining
  rw [CacheState.state, CacheState.state]
  cases hf : m.files f with
  | none => rw [hw.gone f hf]
  | some file =>
    obtain ⟨file', hf', hs, -⟩ := hw.file f file hf
    rw [hf', Option.map_some, Option.map_some, hs]

/-- Outside `flushCache` a loaded file has nothing in flight. -/
theorem inFlight_of_loaded (h : Flights m) (ho : m.owner .fileCacheMutex ≠ some .client)
    (hs : m.state f = some .loaded) : inFlight m.pending f = 0 := by
  rw [Multiset.eq_zero_iff_forall_notMem]
  intro r hr
  have hflush := (hs ▸ h.file f).of_loaded r hr
  rw [flushes_eq_zero.1 (h.idle ho) f r hr] at hflush
  cases hflush

theorem state_update {files : LongId → Option NodeFile} {x : Option NodeFile}
    (hm : m'.files = Function.update files f x) (hs : x.map NodeFile.nodeState = state) :
    m'.state f = state := by
  rw [CacheState.state, hm, Function.update_self, hs]

theorem state_update_of_ne {x : Option NodeFile} (hg : g ≠ f)
    (hm : m'.files = Function.update m.files f x) : m'.state g = m.state g := by
  rw [CacheState.state, hm, Function.update_of_ne hg, CacheState.state]

theorem inFlight_of_loaded_file (h : Flights m) (ho : m.owner .fileCacheMutex = none)
    (hf : m.files f = some file) (hs : file.nodeState = .loaded) : inFlight m.pending f = 0 :=
  h.inFlight_of_loaded (by rw [ho]; exact fun h => nomatch h)
    (by rw [CacheState.state, hf, Option.map_some, hs])

theorem inFlight_of_none (h : Flights m) (hf : m.files f = none) : inFlight m.pending f = 0 := by
  have hfl := h.file f
  rw [CacheState.state, hf] at hfl
  exact hfl.of_none

theorem dropFile (h : Flights m) (ho : m.owner .fileCacheMutex = none)
    (hf : m.files f = some file) (hs : file.nodeState = .loaded) : Flights (m.dropFile f file) := by
  refine h.update f (fun g hg => state_update_of_ne hg rfl) (fun _ _ => rfl) rfl
    (fun _ => rfl) (fun _ => rfl) (fun data w hmem => ?_)
    (.absent (state_update (x := none) rfl rfl) (h.inFlight_of_loaded_file ho hf hs))
  rw [ho]
  exact fun h => nomatch h

theorem startEvict (h : Flights m) (ho : m.owner .fileCacheMutex = none)
    (hf : m.files f = some file) (hs : file.nodeState = .loaded) :
    Flights (m.startEvict f file) := by
  have hflush : flushes (m.startEvict f file).pending = flushes m.pending :=
    flushes_cons_of_not _ _ rfl
  refine h.update f (fun g hg => state_update_of_ne hg rfl) (fun g hg => inFlight_cons_of_ne hg)
    rfl (fun _ => by rw [hflush]; rfl) (fun _ => hflush) (fun data w hmem => ?_)
    (.evicting (serialize file.data) false 0 (.inl ?_) ?_ fun _ h =>
      absurd h (Multiset.notMem_zero _))
  · rw [ho]
    exact fun h => nomatch h
  · exact state_update (x := some { file with nodeState := .evicting }) rfl rfl
  · exact inFlight_cons_self.trans (congrArg _ (h.inFlight_of_loaded_file ho hf hs))

theorem free_of_maintenance {busy : LongId → Bool}
    (hc : m.cacheMaintenance cfg busy = some m') : m.owner .fileCacheMutex = none := by
  unfold CacheState.cacheMaintenance at hc
  split_ifs at hc with ho
  exact ho

theorem maintenance {busy : LongId → Bool} (h : Flights m)
    (hc : m.cacheMaintenance cfg busy = some m') : Flights m' := by
  refine (CacheState.cacheMaintenance_induct (P := fun m => Flights m ∧
    m.owner .fileCacheMutex = none) ?_ ?_ hc ⟨h, free_of_maintenance hc⟩).1
  · rintro m f file ⟨h, ho⟩ hf hs - -
    exact ⟨h.dropFile ho hf hs, ho⟩
  · rintro m f file ⟨h, ho⟩ hf hs - -
    exact ⟨h.startEvict ho hf hs, ho⟩

/-- The client keeps the books of the requests. -/
theorem client {o : CacheOp} (h : Flights m) (hs : CacheState.ClientStep cfg m o m') :
    Flights m' := by
  cases hs with
  | worked _ _ hw => exact h.worked hw
  | found f file ho hf =>
    refine h.update f (fun g hg => state_update_of_ne hg rfl) (fun _ _ => rfl) rfl (fun _ => rfl)
      (fun _ => rfl) (fun data w _ => by rw [ho]; exact fun h => nomatch h) ?_
    rw [state_update rfl rfl]
    have hfl := h.file f
    rw [CacheState.state, hf] at hfl
    cases hfl with
    | absent hs => cases hs
    | reading buffer hs hr =>
      -- the request in flight stays the one that it was
      obtain hs : file.nodeState = .loading := Option.some.inj hs
      exact .reading buffer (by simp [hs]) hr
    | loaded hs hr =>
      obtain hs : file.nodeState = .loaded := Option.some.inj hs
      exact .loaded (by simp [hs]) hr
    | evicting data w rest hs hr hrest =>
      -- a file whose eviction is written is now loading, and its write is still in flight
      refine .evicting data w rest (.inr ?_) hr hrest
      rcases hs with hs | hs
      · simp [Option.some.inj hs]
      · simp [show file.nodeState = .loading from Option.some.inj hs]
  | opened f modified ho hf =>
    have hfl := h.file f
    rw [CacheState.state, hf] at hfl
    have hcount : flushes ((f, Request.read none) ::ₘ m.pending) = flushes m.pending :=
      flushes_cons_of_not _ _ rfl
    refine h.update f (fun g hg => state_update_of_ne hg rfl)
      (fun g hg => inFlight_cons_of_ne hg) rfl
      (fun _ => by rw [hcount]) (fun _ => hcount)
      (fun data w _ => by rw [ho]; exact fun h => nomatch h)
      (.reading none (state_update rfl rfl) ?_)
    exact inFlight_cons_self.trans (congrArg _ hfl.of_none)
  | created f ho hf =>
    have hfl := h.file f
    rw [CacheState.state, hf] at hfl
    refine h.update f (fun g hg => state_update_of_ne hg rfl) (fun _ _ => rfl) rfl (fun _ => rfl)
      (fun _ => rfl) (fun data w _ => by rw [ho]; exact fun h => nomatch h)
      (.loaded (state_update rfl rfl) fun r hr => ?_)
    rw [hfl.of_none] at hr
    exact absurd hr (Multiset.notMem_zero r)
  | maintenance busy _ hc => exact h.maintenance hc
  | flushBegin ho =>
    refine ⟨⟨fun f hf => ?_, fun f data w hd => ?_⟩, fun _ => ?_, fun hc => ?_, h.file⟩
    · obtain ⟨g, hg⟩ := h.locks.file f (by simpa using hf)
      rw [ho] at hg
      cases hg
    · simp at hd
    -- the counter of `flushCache` starts at the number of writes, and there are none
    · exact (h.idle (by rw [ho]; exact fun h => nomatch h)).symm
    · exact absurd (Function.update_self Lock.fileCacheMutex _ m.owner) hc
  | flushFile f file ho hf hs hm =>
    have hcount := flushes_cons_flush m.pending f (serialize file.data) false
    refine h.update f (fun _ _ => rfl) (fun g hg => inFlight_cons_of_ne hg) rfl
      (fun _ => by rw [hcount]; simp only; omega) (fun hc => absurd ho hc)
      (fun data w _ => by rw [ho]; exact fun h => nomatch h) ?_
    change Flight (m.state f) _
    rw [inFlight_cons_self]
    exact (h.file f).addFlush ⟨file.nodeState, by rw [CacheState.state, hf]; rfl, hs⟩
  | flushWait ho hr =>
    refine ⟨⟨fun f hf => ?_, fun f data w hd => ?_⟩, fun hc => ?_, fun _ => ?_, h.file⟩
    · obtain ⟨g, hg⟩ := h.locks.file f (by simpa using hf)
      rw [ho] at hg
      cases hg
    · simp at hd
    · simp at hc
    · exact (h.remaining ho).symm.trans hr

theorem eq_zero_of_idle {rest : Multiset Request} (hi : flushes m.pending = 0)
    (hr : inFlight m.pending f = r ::ₘ rest) (hrest : ∀ r ∈ rest, r.isFlush = true) : rest = 0 := by
  rw [Multiset.eq_zero_iff_forall_notMem]
  intro x hx
  have hf := flushes_eq_zero.1 hi f x (hr ▸ Multiset.mem_cons_of_mem hx)
  rw [hrest x hx] at hf
  cases hf

/-- Unless the client holds the mutex, an eviction is the only request of its file. -/
theorem inFlight_erase_evict (h : Flights m) (hp : (f, .evict data true) ∈ m.pending)
    (ho : m.owner .fileCacheMutex ≠ some .client) :
    inFlight (m.pending.erase (f, .evict data true)) f = 0 := by
  obtain ⟨-, rest, hr, hrest⟩ := (h.file f).of_evict (mem_inFlight.2 hp)
  rw [inFlight_erase_self hp, hr, Multiset.erase_cons_head]
  exact eq_zero_of_idle (h.idle ho) hr hrest

/-- A request is taken out, and possibly put back in another form. -/
theorem flushes_erase (hp : (f, r) ∈ m.pending) (hr : r.isFlush = false) :
    flushes (m.pending.erase (f, r)) = flushes m.pending := by
  conv_rhs => rw [← Multiset.cons_erase hp]
  exact (flushes_cons_of_not _ _ hr).symm

theorem flushes_erase_flush (hp : (f, .flush data w) ∈ m.pending) :
    flushes (m.pending.erase (f, .flush data w)) + 1 = flushes m.pending := by
  conv_rhs => rw [← Multiset.cons_erase hp]
  exact (flushes_cons_flush ..).symm

/-- The storage and its callbacks keep the books of the requests. -/
theorem env (h : Flights m) (hs : EnvStep cfg m m') : Flights m' := by
  cases hs with
  | completeRead f buffer hp hst =>
    obtain ⟨hl, hr⟩ := (h.file f).of_read (mem_inFlight.2 hp)
    have hcount : flushes ((f, Request.read (some buffer)) ::ₘ m.pending.erase (f, .read none)) =
        flushes m.pending := (flushes_cons_of_not _ _ rfl).trans (flushes_erase hp rfl)
    refine h.update f (fun _ _ => rfl)
      (fun g hg => (inFlight_cons_of_ne hg).trans (inFlight_erase_of_ne hg)) rfl
      (fun _ => by rw [hcount]) (fun _ => hcount) (fun data w hmem => ?_)
      (.reading (some buffer) hl ?_)
    · rw [← mem_inFlight, inFlight_cons_self, inFlight_erase_self hp, hr] at hmem
      simp at hmem
    · rw [inFlight_cons_self, inFlight_erase_self hp, hr, Multiset.erase_singleton]
      rfl
  | completeEvict f data hp =>
    obtain ⟨hs, rest, hr, hrest⟩ := (h.file f).of_evict (mem_inFlight.2 hp)
    have hcount : flushes ((f, Request.evict data true) ::ₘ m.pending.erase (f, .evict data false)) =
        flushes m.pending := (flushes_cons_of_not _ _ rfl).trans (flushes_erase hp rfl)
    refine h.update f (fun _ _ => rfl)
      (fun g hg => (inFlight_cons_of_ne hg).trans (inFlight_erase_of_ne hg)) rfl
      (fun _ => by rw [hcount]) (fun _ => hcount) (fun _ _ _ ho => h.locks.dead f data false ho hp)
      (.evicting data true rest hs ?_ hrest)
    rw [inFlight_cons_self, inFlight_erase_self hp, hr, Multiset.erase_cons_head]
  | completeFlush f data hp =>
    have hcount : flushes ((f, Request.flush data true) ::ₘ m.pending.erase (f, .flush data false)) =
        flushes m.pending := (flushes_cons_flush ..).trans (flushes_erase_flush hp)
    refine h.update f (fun _ _ => rfl)
      (fun g hg => (inFlight_cons_of_ne hg).trans (inFlight_erase_of_ne hg)) rfl
      (fun _ => by rw [hcount]) (fun _ => hcount) (fun data' w hmem ho => ?_) ?_
    · have hmem : (f, Request.evict data' w) ∈ m.pending := by
        rcases Multiset.mem_cons.1 hmem with hmem | hmem
        · cases hmem
        · exact Multiset.mem_of_mem_erase hmem
      exact h.locks.dead f data' w ho hmem
    · rw [inFlight_cons_self, inFlight_erase_self hp]
      exact (h.file f).completeFlush (mem_inFlight.2 hp)
  | readCb f buffer file data hp hf hd =>
    obtain ⟨-, hr⟩ := (h.file f).of_read (mem_inFlight.2 hp)
    have hno : inFlight (m.pending.erase (f, .read (some buffer))) f = 0 := by
      rw [inFlight_erase_self hp, hr, Multiset.erase_singleton]
    refine h.update f (fun g hg => state_update_of_ne hg rfl) (fun g hg => inFlight_erase_of_ne hg)
      rfl (fun _ => by rw [flushes_erase hp rfl]) (fun _ => flushes_erase hp rfl)
      (fun data' w hmem => ?_) (.loaded (state_update rfl rfl) fun r hr => ?_)
    · rw [← mem_inFlight, hno] at hmem
      exact absurd hmem (Multiset.notMem_zero _)
    · rw [hno] at hr
      exact absurd hr (Multiset.notMem_zero r)
  | evicted f data file hp ho hf hm hs =>
    have hno := h.inFlight_erase_evict hp (by rw [ho]; exact fun h => nomatch h)
    refine h.update f (fun g hg => state_update_of_ne hg rfl) (fun g hg => inFlight_erase_of_ne hg)
      rfl (fun _ => by rw [flushes_erase hp rfl]) (fun _ => flushes_erase hp rfl)
      (fun data' w _ => by rw [ho]; exact fun h => nomatch h)
      (.absent (state_update (x := none) rfl rfl) hno)
  | reloaded f data file owner hp ho ho' hf hm hs =>
    have hclient : m.owner .fileCacheMutex ≠ some .client := by
      rw [ho]
      exact fun h => nomatch h
    have hidle := h.idle hclient
    have hno := h.inFlight_erase_evict hp hclient
    refine ⟨⟨fun g _ => ⟨f, ho'⟩, fun g data' w hg hmem => ?_⟩, fun hc => ?_,
      fun _ => ?_, fun g => ?_⟩
    · obtain rfl : f = g := by
        cases ho'.symm.trans hg
        rfl
      rw [← mem_inFlight, hno] at hmem
      exact Multiset.notMem_zero _ hmem
    · rw [show owner .fileCacheMutex = _ from hc] at ho'
      cases ho'
    · exact (flushes_erase hp rfl).trans hidle
    · by_cases hg : g = f
      · subst hg
        refine .loaded (state_update rfl rfl) fun r hr => ?_
        rw [hno] at hr
        exact absurd hr (Multiset.notMem_zero r)
      · rw [state_update_of_ne hg rfl, inFlight_erase_of_ne hg]
        exact h.file g
  | stuck f data owner hp ho ho' =>
    -- a worker that waits for itself has no request in flight
    rcases ho with ho | ⟨ho, hf⟩
    · exact absurd hp (h.locks.dead f data true ho)
    · obtain ⟨g, hg⟩ := h.locks.file f hf
      rw [ho] at hg
      cases hg
  | flushCb f data file hp hf =>
    have hcount := flushes_erase_flush hp
    have hcl : m.owner .fileCacheMutex = some .client := by
      by_contra hc
      have := h.idle hc
      omega
    have hrem := h.remaining hcl
    refine h.update f (fun g hg => state_update_of_ne hg rfl) (fun g hg => inFlight_erase_of_ne hg)
      rfl (fun _ => by simp only; omega) (fun hc => absurd hcl hc)
      (fun data' w _ => by rw [hcl]; exact fun h => nomatch h) ?_
    rw [state_update rfl (show (some { file with isModified := false }).map NodeFile.nodeState =
      m.state f by rw [CacheState.state, hf]; rfl), inFlight_erase_self hp]
    exact (h.file f).takeFlush (mem_inFlight.2 hp)
  | maintenance busy _ hl hc =>
    have h : Flights { m with loaders := m.loaders - 1 } := h.congr (fun _ => rfl) rfl rfl rfl
    exact h.maintenance hc

/-- The requests are in order in every state that a client program can reach. -/
theorem run {α : Type} {ok : CacheState → CacheOp → Prop} {p q : TreeM α} (h : Flights m)
    (hrun : (cacheMachine cfg).Run ok p m q m') : Flights m' :=
  hrun.invariant h (fun _ _ _ _ _ h _ hc => h.client (.of_client hc))
    fun _ _ _ h he => h.env (.of_env he)

/-- The mutex of a file is free while `file_cache_mutex` is. -/
theorem fileMutex_free (h : Flights m) (f : LongId) (ho : m.owner .fileCacheMutex = none) :
    m.owner (.fileMutex f) = none := by
  by_contra hne
  obtain ⟨g, hg⟩ := h.locks.file f hne
  rw [ho] at hg
  cases hg

/-- A file that is being evicted has exactly one eviction write, and no read. -/
theorem evict_unique (h : Flights m) {data' : ByteVec} {w' : Bool}
    (hp : (f, .evict data w) ∈ m.pending) :
    .evict data' w' ∉ inFlight (m.pending.erase (f, .evict data w)) f := by
  obtain ⟨-, rest, hr, hrest⟩ := (h.file f).of_evict (mem_inFlight.2 hp)
  rw [inFlight_erase_self hp, hr, Multiset.erase_cons_head]
  intro hmem
  cases hrest _ hmem

end Flights

end MegaTree
