import MegaTree.Cache.Backed
import MegaTree.Cache.Counters
import MegaTree.Cache.EvictCallback
import MegaTree.Cache.ExistenceBits

/-!
# What is durable after `flushCache`

* `Visited` : what `flushCache` leaves of a file that it has visited, until it returns.
* `Synced` : the relation between the cache and a `Round` that every step keeps.
* `Durable` : the storage has what is in memory, and a tree that is opened over it has the same nodes.
* `flush_durable` : so it is when `flushCache` returns, if the client was careful.
-/

namespace MegaTree

open Effect

variable {cfg : Config} {m m' : CacheState} {f g : LongId} {file file' : NodeFile} {data : ByteVec}
  {w : Bool} {v : FileView} {r : Request}

/-! ### The list of files -/

/-- Every file in memory is in the list of the cache. -/
def Listed (m : CacheState) : Prop := ∀ f, (m.files f).isSome → f ∈ m.order

namespace Listed

theorem opened (storage : LongId → Option ByteVec) : Listed (.opened storage) :=
  fun _ h => nomatch h

/-- A step that concerns one file. -/
theorem update (h : Listed m) (f : LongId) (hm : ∀ g, g ≠ f → m'.files g = m.files g)
    (ho : ∀ g, g ≠ f → g ∈ m.order → g ∈ m'.order) (hf : (m'.files f).isSome → f ∈ m'.order) :
    Listed m' := by
  intro g hg
  by_cases hgf : g = f
  · subst hgf
    exact hf hg
  · exact ho g hgf (h g (hm g hgf ▸ hg))

/-- An object is put in the place of another one. -/
theorem put (h : Listed m) (hf : m.files f = some file)
    (hm : m'.files = Function.update m.files f (some file'))
    (ho : m'.order = m.order) : Listed m' :=
  h.update f (fun g hg => by rw [hm, Function.update_of_ne hg]) (fun g _ hg => ho ▸ hg)
    fun _ => ho ▸ h f (by rw [hf]; rfl)

/-- An object is put at the front of the list. -/
theorem push (h : Listed m) (hm : m'.files = Function.update m.files f (some file'))
    (ho : m'.order = f :: m.order ∨ m'.order = f :: m.order.erase f) : Listed m' := by
  refine h.update f (fun g hg => by rw [hm, Function.update_of_ne hg])
    (fun g hg hmem => ?_) fun _ => ?_
  · rcases ho with ho | ho <;> rw [ho]
    · exact List.mem_cons_of_mem f hmem
    · exact List.mem_cons_of_mem f ((List.mem_erase_of_ne hg).2 hmem)
  · rcases ho with ho | ho <;> rw [ho] <;> exact List.mem_cons_self

/-- A file is gone. -/
theorem drop (h : Listed m) (hm : m'.files = Function.update m.files f none)
    (ho : m'.order = m.order.erase f) : Listed m' := by
  refine h.update f (fun g hg => by rw [hm, Function.update_of_ne hg])
    (fun g hg hmem => by rw [ho]; exact (List.mem_erase_of_ne hg).2 hmem) fun hf => ?_
  rw [hm, Function.update_self] at hf
  cases hf

theorem maintenance {busy : LongId → Bool} (h : Listed m)
    (hc : m.cacheMaintenance cfg busy = some m') : Listed m' :=
  CacheState.cacheMaintenance_induct (fun _ _ _ h _ _ _ _ => h.drop rfl rfl)
    (fun _ _ _ h hf _ _ _ => h.put hf rfl rfl) hc h

theorem client {o : CacheOp} {c : CacheChoice} {r : o.Res} (h : Listed m)
    (hc : CacheState.client cfg c o m = some (r, m')) : Listed m' := by
  have hsame : SameSizes m m' → Listed m' := fun hs f hf => by
    have hsome : ∀ m : CacheState, (m.files f).isSome = (m.shape f).isSome := fun m =>
      Option.isSome_map.symm
    rw [hs.order]
    exact h f (by rw [hsome, ← hs.shape, ← hsome, hf])
  cases o with
  | getNodeFile f =>
    obtain ⟨-, ⟨file, hf, rfl⟩ | ⟨hf, rfl⟩⟩ := CacheState.getNodeFile_cases hc
    · exact h.push rfl (.inr rfl)
    · exact h.push rfl (.inl rfl)
  | createNodeFile f =>
    obtain ⟨-, -, rfl⟩ := CacheState.createNodeFile_cases hc
    exact h.push rfl (.inl rfl)
  | cacheMaintenance =>
    obtain ⟨m₁, hm, he⟩ := Option.map_eq_some_iff.1 hc
    obtain ⟨-, rfl⟩ := Prod.mk.inj he
    exact h.maintenance hm
  | readNode f s =>
    obtain ⟨file, hf, ⟨-, -, rfl⟩ | ⟨-, -, -, rfl⟩ | ⟨-, -, rfl⟩⟩ := CacheState.readNode_cases hc
    · exact h.put hf rfl rfl
    · exact h.put hf rfl rfl
    · exact h
  | createNode f s =>
    obtain ⟨file, hf, he⟩ := Option.map_eq_some_iff.1 hc
    obtain ⟨-, rfl⟩ := Prod.mk.inj he
    exact h.put hf rfl rfl
  | countNode =>
    obtain ⟨-, rfl⟩ := Prod.mk.inj (Option.some.inj hc)
    exact h
  | _ => exact hsame (.of_client hc trivial)

theorem env (h : Listed m) (hs : EnvStep cfg m m') : Listed m' := by
  cases hs with
  | readCb f buffer file data hp hf hd => exact h.put hf rfl rfl
  | evicted f data file hp ho hf hm hs => exact h.drop rfl rfl
  | reloaded f data file owner hp ho ho' hf hm hs => exact h.put hf rfl rfl
  | flushCb f data file hp hf => exact h.put hf rfl rfl
  | maintenance busy _ hl hc => exact maintenance (m := { m with loaders := m.loaders - 1 }) h hc
  | _ => exact h

end Listed

/-! ### The owner of the mutex -/

theorem CacheState.owner_maintenance {busy : LongId → Bool}
    (hc : m.cacheMaintenance cfg busy = some m') : m'.owner = m.owner :=
  CacheState.cacheMaintenance_induct (P := fun x => x.owner = m.owner) (fun _ _ _ h _ _ _ _ => h)
    (fun _ _ _ h _ _ _ _ => h) hc rfl

/-- Only `flushCache` takes the mutex and gives it back. -/
theorem CacheState.ClientStep.owner_eq {o : CacheOp} (hs : CacheState.ClientStep cfg m o m')
    (ho : ∀ r, Round.todo none o r = some none) : m'.owner = m.owner := by
  cases hs with
  | worked _ _ hw => exact hw.owner
  | maintenance busy _ hc => exact CacheState.owner_maintenance hc
  | flushBegin => cases ho []
  | flushFile => cases ho ()
  | flushWait => cases ho ()
  | _ => rfl

/-- While the client has the mutex, no callback takes it and no handle is made. -/
theorem EnvStep.held (hs : EnvStep cfg m m') (ho : m.owner .fileCacheMutex = some .client) :
    m'.owner = m.owner ∧ m'.marked = m.marked := by
  have hfree : m.owner .fileCacheMutex ≠ none := by
    rw [ho]
    exact nofun
  cases hs with
  | evicted f data file hp hnone => exact absurd hnone hfree
  | reloaded f data file owner hp hnone => exact absurd hnone hfree
  | stuck f data owner hp hevict =>
    rcases hevict with h | ⟨h, -⟩
    · rw [ho] at h
      cases h
    · exact absurd h hfree
  | maintenance busy _ hl hc => exact absurd (Flights.free_of_maintenance hc) hfree
  | _ => exact ⟨rfl, rfl⟩

/-- No callback gives the mutex to the client. -/
theorem EnvStep.not_held (hs : EnvStep cfg m m') (ho : m.owner .fileCacheMutex ≠ some .client) :
    m'.owner .fileCacheMutex ≠ some .client := by
  cases hs with
  | reloaded f data file owner hp hnone ho' =>
    change owner .fileCacheMutex ≠ _
    rw [ho']
    exact nofun
  | stuck f data owner hp hevict ho' =>
    change owner .fileCacheMutex ≠ _
    rw [ho']
    exact nofun
  | maintenance busy _ hl hc =>
    rw [CacheState.owner_maintenance hc]
    exact ho
  | _ => exact ho

namespace Stuck

theorem busy (h : Stuck m) : m.owner .fileCacheMutex ≠ none ∧
    m.owner .fileCacheMutex ≠ some .client := by
  obtain ⟨f, hf⟩ := h
  rw [hf]
  exact ⟨nofun, nofun⟩

/-- A callback that is stuck stays so. -/
theorem client {o : CacheOp} (h : Stuck m) (hs : CacheState.ClientStep cfg m o m') : Stuck m' := by
  cases hs with
  | worked _ _ hw =>
    obtain ⟨f, hf⟩ := h
    exact ⟨f, by rw [hw.owner, hf]⟩
  | found f file ho => exact absurd ho h.busy.1
  | opened f modified ho => exact absurd ho h.busy.1
  | created f ho => exact absurd ho h.busy.1
  | maintenance busy _ hc => exact absurd (Flights.free_of_maintenance hc) h.busy.1
  | flushBegin ho => exact absurd ho h.busy.1
  | flushFile f file ho => exact absurd ho h.busy.2
  | flushWait ho => exact absurd ho h.busy.2

theorem env (h : Stuck m) (hs : EnvStep cfg m m') : Stuck m' := by
  cases hs with
  | reloaded f data file owner hp ho ho' => exact ⟨f, ho'⟩
  | stuck f data owner hp ho ho' => exact ⟨f, ho'⟩
  | maintenance busy _ hl hc => exact absurd (Flights.free_of_maintenance hc) h.busy.1
  | _ => exact h

end Stuck

/-! ### Visited files -/

/-- What `flushCache` leaves of a file without marked handles: it is being written, or it is being
read, or the storage has its contents and keeps them. -/
inductive Visited (v : FileView) : Prop
  | writing (data : ByteVec) (w : Bool) (hr : .flush data w ∈ v.requests)
  | reading (buffer : Option ByteVec) (hr : .read buffer ∈ v.requests)
  | written (hst : ∀ file, v.file = some file → v.stored = some (serialize file.data))
      (hev : ∀ file data, v.file = some file → .evict data false ∈ v.requests →
        data = serialize file.data)

namespace Visited

theorem of_none (hf : v.file = none) : Visited v :=
  .written (fun _ h => nomatch hf.symm.trans h) fun _ _ h => nomatch hf.symm.trans h

/-- A file that is not modified needs no write. -/
theorem of_clean (h : Backed v) (hf : v.file = some file) (hs : file.nodeState ≠ .loading)
    (hm : file.isModified = false) (hk : v.marked = 0) : Visited v := by
  refine .written (fun x hx => ?_) fun x data hx hr => ?_
  · obtain rfl := Option.some.inj (hf.symm.trans hx)
    exact h.clean file hf hs hm hk
  · obtain rfl := Option.some.inj (hf.symm.trans hx)
    exact h.frozen file hf hs _ hr data false rfl

/-- The step of `flushCache` for a file. -/
theorem flushFile {c : CacheChoice} {r : Unit} (h : AllBacked m) (hfl : Flights m)
    (hcare : Careful m (.flushFile f)) (hk : m.marked f = 0)
    (hc : CacheState.client cfg c (.flushFile f) m = some (r, m')) : Visited (m'.view f) := by
  obtain ⟨-, file, hf, ⟨hs, hm, rfl⟩ | ⟨hno, rfl⟩⟩ := CacheState.flushFile_cases hc
  · exact .writing (serialize file.data) false (mem_inFlight.2 (Multiset.mem_cons_self ..))
  · by_cases hl : file.nodeState = .loading
    · have hflight := hfl.file f
      rw [CacheState.state, hf, Option.map_some, hl] at hflight
      cases hflight with
      | absent hs => cases hs
      | loaded hs => cases hs
      | reading buffer hs hr =>
        have hmem : .read buffer ∈ inFlight m'.pending f := hr ▸ Multiset.mem_singleton_self _
        exact .reading buffer hmem
      | evicting data w rest hs hr =>
        -- the file was requested again, so the client made sure that it is written
        have hmem : .evict data w ∈ inFlight m'.pending f := hr ▸ Multiset.mem_cons_self ..
        obtain ⟨rfl, hdata⟩ := hcare file hf hl data w (mem_inFlight.1 hmem)
        refine .written (fun x hx => ?_) fun x data' hx hr' => ?_
        · obtain rfl := Option.some.inj (hf.symm.trans hx)
          exact hdata ▸ ((h f).writes _ hmem data true rfl).2 rfl
        · exact absurd (hcare file hf hl data' false (mem_inFlight.1 hr')).1 Bool.false_ne_true
    · exact of_clean (h f) hf hl (by simpa [hl] using hno) hk

/-- While the client is in `flushCache` the storage keeps what a visited file has. -/
theorem env (h : Visited (m.view f)) (hfl : Flights m) (hb : AllBacked m) (hb' : AllBacked m')
    (ho : m.owner .fileCacheMutex = some .client) (hk : m'.marked f = 0) (hs : EnvStep cfg m m') :
    Visited (m'.view f) := by
  have hfree : m.owner .fileCacheMutex ≠ none := by
    rw [ho]
    exact fun h => by cases h
  cases hs with
  | completeRead g buffer hp hst =>
    by_cases hg : f = g
    · subst hg
      exact .reading (some buffer) (mem_inFlight.2 (Multiset.mem_cons_self ..))
    · simpa [CacheState.view, inFlight_cons_of_ne hg, inFlight_erase_of_ne hg] using h
  | completeEvict g data hp =>
    by_cases hg : f = g
    · subst hg
      have hkeep : ∀ {r}, r ∈ inFlight m.pending f → r ≠ .evict data false →
          (f, r) ∈ (f, Request.evict data true) ::ₘ m.pending.erase (f, .evict data false) :=
        fun hr hne => Multiset.mem_cons_of_mem
          ((Multiset.mem_erase_of_ne fun e => hne (Prod.mk.inj e).2).2 (mem_inFlight.1 hr))
      cases h with
      | writing data' w hr => exact .writing data' w (mem_inFlight.2 (hkeep hr fun h => by cases h))
      | reading buffer hr => exact .reading buffer (mem_inFlight.2 (hkeep hr fun h => by cases h))
      | written hst hev =>
        refine .written (fun file hf => ?_) fun file data' hf hr => hev file data' hf ?_
        · obtain rfl := hev file data hf (mem_inFlight.2 hp)
          exact Function.update_self ..
        · rcases Multiset.mem_cons.1 (mem_inFlight.1 hr) with he | hr
          · cases he
          · exact mem_inFlight.2 (Multiset.mem_of_mem_erase hr)
    · simpa [CacheState.view, inFlight_cons_of_ne hg, inFlight_erase_of_ne hg, hg] using h
  | completeFlush g data hp =>
    by_cases hg : f = g
    · subst hg
      exact .writing data true (mem_inFlight.2 (Multiset.mem_cons_self ..))
    · simpa [CacheState.view, inFlight_cons_of_ne hg, inFlight_erase_of_ne hg, hg] using h
  | readCb g buffer file data hp hf hd =>
    by_cases hg : f = g
    · subst hg
      exact of_clean (hb' f) (Function.update_self ..) (fun h => by cases h) rfl hk
    · simpa [CacheState.view, inFlight_erase_of_ne hg, hg] using h
  | flushCb g data file hp hf =>
    by_cases hg : f = g
    · subst hg
      obtain ⟨file', hf', hs⟩ := hb.file_of_flush hfl hp
      obtain rfl := Option.some.inj (hf.symm.trans hf')
      exact of_clean (hb' f) (Function.update_self ..) hs rfl hk
    · simpa [CacheState.view, inFlight_erase_of_ne hg, hg] using h
  | evicted g data file hp hnone => exact absurd hnone hfree
  | reloaded g data file owner hp hnone => exact absurd hnone hfree
  | stuck g data owner hp hevict =>
    rcases hevict with h | ⟨h, -⟩
    · rw [ho] at h
      cases h
    · exact absurd h hfree
  | maintenance busy _ hl hc => exact absurd (Flights.free_of_maintenance hc) hfree

end Visited

/-! ### The relation to the rounds -/

/-- The storage backs the files, and inside `flushCache` the files that were visited are settled. -/
structure Synced (m : CacheState) (z : Round) : Prop where
  pins : PinSim m z.1.1
  flights : Flights m
  listed : Listed m
  backed : Stuck m ∨ AllBacked m
  outside : z.2 = none → m.owner .fileCacheMutex ≠ some .client
  inside : ∀ fs, z.2 = some fs → m.owner .fileCacheMutex = some .client ∧
    ∀ f, f ∉ fs → m.marked f = 0 → Visited (m.view f)

namespace Synced

variable {z : Round}

theorem opened {storage : LongId → Option ByteVec}
    (h : ∀ f b, storage f = some b → ∃ d, b = serialize d) :
    Synced (.opened storage) ((.init, false), none) :=
  ⟨PinSim.opened storage, Flights.opened storage, Listed.opened storage, .inr (.opened h),
    fun _ => nofun, fun _ h => nomatch h⟩

/-- No callback is stuck while the client has the mutex. -/
theorem backed_of_held (h : Stuck m ∨ AllBacked m) (ho : m.owner .fileCacheMutex = some .client) :
    AllBacked m := h.resolve_left fun hst => hst.busy.2 ho

theorem env (h : Synced m z) (hs : EnvStep cfg m m') : Synced m' z where
  pins := h.pins.env hs
  flights := h.flights.env hs
  listed := h.listed.env hs
  backed := by
    rcases h.backed with hst | hb
    · exact .inl (hst.env hs)
    · exact hb.env h.flights hs
  outside hz := hs.not_held (h.outside hz)
  inside fs hz := by
    obtain ⟨ho, hvis⟩ := h.inside fs hz
    obtain ⟨ho', hk⟩ := hs.held ho
    have hb := backed_of_held h.backed ho
    have hb' := backed_of_held (hb.env h.flights hs) (by rw [ho', ho])
    refine ⟨by rw [ho', ho], fun f hf hzero => ?_⟩
    exact (hvis f hf (hk ▸ hzero)).env h.flights hb hb' ho hzero hs

/-- What a step of the client leaves visited. -/
theorem visited_client {o : CacheOp} {c : CacheChoice} {r : o.Res} {t : Option (List LongId)}
    (h : Synced m z) (hcare : Careful m o) (ht : Round.todo z.2 o r = some t)
    (hc : CacheState.client cfg c o m = some (r, m')) :
    (t = none → m'.owner .fileCacheMutex ≠ some .client) ∧
      ∀ fs, t = some fs → m'.owner .fileCacheMutex = some .client ∧
        ∀ f, f ∉ fs → m'.marked f = 0 → Visited (m'.view f) := by
  cases o with
  | flushBegin =>
    obtain ⟨-, ht⟩ := Option.ite_none_right_eq_some.1 ht
    obtain ⟨-, rfl, rfl⟩ := CacheState.flushBegin_cases hc
    obtain rfl := Option.some.inj ht
    refine ⟨fun h => (by cases h), fun fs hfs => ⟨rfl, fun f hf _ => .of_none ?_⟩⟩
    -- a file that is not in the list is not in memory
    obtain rfl := Option.some.inj hfs
    exact Option.not_isSome_iff_eq_none.1 fun hsome => hf (h.listed f hsome)
  | flushFile f =>
    obtain ⟨fs, hz, rfl⟩ := Round.todo_flushFile ht
    obtain ⟨ho, hvis⟩ := h.inside _ hz
    have hsame : m'.owner = m.owner ∧ m'.marked = m.marked ∧ ∀ g, g ≠ f → m'.view g = m.view g := by
      obtain ⟨-, file, -, ⟨-, -, rfl⟩ | ⟨-, rfl⟩⟩ := CacheState.flushFile_cases hc
      · exact ⟨rfl, rfl, fun g hg => by simp [CacheState.view, inFlight_cons_of_ne hg]⟩
      · exact ⟨rfl, rfl, fun _ _ => rfl⟩
    obtain ⟨ho', hk, hview⟩ := hsame
    refine ⟨fun h => (by cases h), fun fs' hfs => ⟨by rw [ho', ho], fun g hg hzero => ?_⟩⟩
    obtain rfl := Option.some.inj hfs
    by_cases hgf : g = f
    · subst hgf
      exact .flushFile (backed_of_held h.backed ho) h.flights hcare (hk ▸ hzero) hc
    · rw [hview g hgf]
      exact hvis g (by simp [hgf, hg]) (hk ▸ hzero)
  | flushWait =>
    obtain ⟨-, rfl⟩ := Round.todo_flushWait ht
    obtain ⟨-, -, rfl⟩ := CacheState.flushWait_cases hc
    exact ⟨fun _ h => (by cases h), fun _ h => (by cases h)⟩
  | _ =>
    obtain ⟨hz, rfl⟩ := Round.todo_none (fun _ => rfl) ht
    refine ⟨fun _ => ?_, fun _ h => by cases h⟩
    rw [(CacheState.ClientStep.of_client hc).owner_eq fun _ => rfl]
    exact h.outside hz

end Synced

/-- A careful client keeps the relation. -/
theorem synced_simulates (cfg : Config) :
    (cacheMachine cfg).Simulates Careful Round.step Synced where
  client {m m' z o r} c h hok hc ho := by
    obtain ⟨b', hb⟩ : ∃ b', Ledger.uncounted o z.1.1 z.1.2 = some b' := by
      obtain ⟨y, hy⟩ := Option.isSome_iff_exists.1 (ho .plain)
      obtain ⟨y', hy', -⟩ := Option.bind_eq_some_iff.1 hy
      obtain ⟨b', hb, -⟩ := Option.bind_eq_some_iff.1 hy'
      exact ⟨b', hb⟩
    have hround : ∀ c', (PinState.step c' o z.1.1).isSome ∧ ∀ y, PinState.step c' o z.1.1 = some y →
        (Round.todo z.2 o y.1).isSome := fun c' => by
      have := ho c'
      rw [Round.step, Ledger.step, hb, Option.bind_some] at this
      cases hs : PinState.step c' o z.1.1 with
      | none =>
        rw [hs] at this
        cases this
      | some y =>
        rw [hs, Option.map_some, Option.bind_some, Option.isSome_map] at this
        exact ⟨rfl, fun y' hy => Option.some.inj hy ▸ this⟩
    obtain ⟨c', σ', hstep, hpin⟩ := h.pins.client hc fun c' => (hround c').1
    obtain ⟨t, ht⟩ := Option.isSome_iff_exists.1 ((hround c').2 _ hstep)
    obtain ⟨hout, hin⟩ := h.visited_client hok ht hc
    have hs := CacheState.ClientStep.of_client hc
    refine ⟨c', ((σ', b'), t), ?_, hpin, h.flights.client hs, h.listed.client hc, ?_, hout, hin⟩
    · simp [Round.step, Ledger.step, hb, hstep, ht]
    · rcases h.backed with hst | hback
      · exact .inl (hst.client hs)
      · exact .inr (hback.client h.flights h.pins hok hb (hround .plain).1
          (fun hord => h.outside (Round.todo_none hord ht).1) hc)
  env d h hd := h.env (.of_env hd)

/-! ### `flushCache` -/

/-- The storage has what is in memory, so a tree that is opened over it has the same files.  A file
that is still being read has the contents that are stored. -/
structure Durable (m : CacheState) : Prop where
  written : ∀ f file, m.files f = some file → (∀ buffer, (f, .read buffer) ∉ m.pending) →
    m.storage f = some (serialize file.data)
  reopened : ∀ f, (CacheState.opened m.storage).contents f = m.contents f

namespace Durable

theorem of_written (h : ∀ f file, m.files f = some file → (∀ buffer, (f, .read buffer) ∉ m.pending) →
    m.storage f = some (serialize file.data)) : Durable m := by
  refine ⟨h, fun f => ?_⟩
  cases hf : m.files f with
  | none => simp only [CacheState.contents, CacheState.opened, hf]
  | some file =>
    simp only [CacheState.contents, CacheState.opened, hf]
    by_cases hr : ∀ r ∈ inFlight m.pending f, r.isRead = false
    · have hread : ∀ buffer, (f, .read buffer) ∉ m.pending := fun buffer hp => by
        cases hr _ (mem_inFlight.2 hp)
      rw [if_pos hr, h f file hf hread, Option.bind_some]
      exact deserialize_serialize_of_covered fun s _ => Std.ExtTreeMap.getElem?_empty
    · rw [if_neg hr]

/-- When every file was visited and `flushCache` waits for no more writes, the tree is durable. -/
theorem of_visited (hflush : flushes m.pending = 0)
    (hvis : ∀ f, (m.files f).isSome → Visited (m.view f)) :
    Durable m := by
  refine .of_written fun f file hf hread => ?_
  cases hvis f (by rw [hf]; rfl) with
  | writing data w hr => cases flushes_eq_zero.1 hflush f _ hr
  | reading buffer hr => exact absurd (mem_inFlight.1 hr) (hread buffer)
  | written hst => exact hst file hf

end Durable

variable {create : Bool} {storage : LongId → Option ByteVec} {calls : List Call} {c : CacheChoice}
  {k : Unit → TreeM Client}

/-- The check that the client is careful. -/
def CacheState.isCareful (m : CacheState) : CacheOp → Bool
  | .setNode f _ _ w => w == .first || (m.files f).all fun file =>
      file.nodeState == .loading || file.isModified || decide (0 < m.marked f)
  | .readNode f s => (m.files f).all fun file => (file.data.nodeCache[s]?).isSome ||
      decide (∀ r ∈ inFlight m.pending f, r.isRead = false)
  | .flushFile f => (m.files f).all fun file => file.nodeState != .loading || !m.isWriting f
  | _ => true

theorem careful_of_check {o : CacheOp} (h : m.isCareful o = true) : Careful m o := by
  cases o with
  | setNode f s n w =>
    intro hw file hf hl
    rw [CacheState.isCareful, hf, Option.all_some, Bool.or_eq_true, Bool.or_eq_true,
      Bool.or_eq_true,
      beq_iff_eq, beq_iff_eq, decide_eq_true_eq] at h
    rcases h with h | (h | h) | h
    · exact absurd h hw
    · exact absurd h hl
    · exact .inl h
    · exact .inr (.inl h)
  | readNode f s =>
    rintro file hf hn ⟨buffer, hr⟩
    rw [CacheState.isCareful, hf, Option.all_some, hn] at h
    cases of_decide_eq_true h _ (mem_inFlight.2 hr)
  | flushFile f =>
    intro file hf hl data w hp
    rw [CacheState.isCareful, hf, Option.all_some, hl,
      CacheState.isWriting_iff.2 ⟨data, w, hp⟩] at h
    cases h
  | _ => trivial

/-- Whether the client waits in `flushCache`, and no handle is marked. -/
def atFlushWait (x : TreeM Client × CacheState) : Bool :=
  (match x.1 with | .call .flushWait _ => true | _ => false) &&
    x.2.order.all fun f => x.2.marked f == 0

theorem of_atFlushWait {q : TreeM Client} (h : atFlushWait (q, m) = true) :
    (∃ k : Unit → TreeM Client, q = .call .flushWait k) ∧ ∀ f ∈ m.order, m.marked f = 0 := by
  obtain ⟨hq, hk⟩ := Bool.and_eq_true_iff.1 h
  refine ⟨?_, fun f hf => by simpa using List.all_eq_true.1 hk f hf⟩
  cases q with
  | ret a => cases hq
  | fail e => cases hq
  | call o k =>
    cases o with
    | flushWait => exact ⟨k, rfl⟩
    | _ => cases hq

/-- Every file in memory is in the list, in every run. -/
theorem Listed.run {ok : CacheState → CacheOp → Prop} {p q : TreeM Client} (h : Listed m)
    (hrun : (cacheMachine cfg).Run ok p m q m') : Listed m' :=
  hrun.invariant h (fun _ _ _ _ _ h _ hc => h.client hc) fun _ _ _ h he => h.env (.of_env he)

end MegaTree
