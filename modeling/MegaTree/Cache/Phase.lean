import MegaTree.Cache.Steps
import MegaTree.Store.UpTo

/-!
# A relation between the cache and the store

`Sim E m σ` relates a state of the concurrent cache to a state of the store that never evicts.  For
every file the object in the cache, its requests in flight and the bytes in the storage are in one
of five phases (`Phase`): the file does not exist, or it is only in the storage, or it is being
read, or it is loaded, or it is being evicted and possibly requested again.  The contents of the
store are in the object, or in the storage, or on the way, up to the relation `E`: with equality the
cache loses nothing, with a coarser relation it may lose what the relation does not see.

* `Phase`, `FileSim`, `Sim` : the relation.
* `Phase.of_ready`, `Phase.of_read`, `Phase.of_evict`, `Phase.of_flush` : what is known of a file
  that the client has seen loaded, and of a file with a request in flight.
-/

namespace MegaTree

open Effect

/-! ### Requests in flight -/

section InFlight

variable {pending : Multiset (LongId × Request)} {f g : LongId} {r : Request}

@[simp] theorem inFlight_zero : inFlight 0 f = 0 := rfl

@[simp] theorem inFlight_cons_self : inFlight ((f, r) ::ₘ pending) f = r ::ₘ inFlight pending f := by
  simp [inFlight]

theorem inFlight_cons_of_ne (h : g ≠ f) : inFlight ((f, r) ::ₘ pending) g = inFlight pending g := by
  have hne : ¬ f = g := fun e => h e.symm
  simp [inFlight, hne]

theorem mem_inFlight : r ∈ inFlight pending f ↔ (f, r) ∈ pending := by
  simp [inFlight]

/-- A request in flight is the first of the requests for its file. -/
theorem inFlight_erase (h : (f, r) ∈ pending) :
    inFlight pending f = r ::ₘ inFlight (pending.erase (f, r)) f := by
  conv_lhs => rw [← Multiset.cons_erase h]
  exact inFlight_cons_self

theorem inFlight_erase_self (h : (f, r) ∈ pending) :
    inFlight (pending.erase (f, r)) f = (inFlight pending f).erase r := by
  rw [inFlight_erase h, Multiset.erase_cons_head]

theorem inFlight_erase_of_ne (h : g ≠ f) :
    inFlight (pending.erase (f, r)) g = inFlight pending g := by
  by_cases hm : (f, r) ∈ pending
  · conv_rhs => rw [← Multiset.cons_erase hm]
    exact (inFlight_cons_of_ne h).symm
  · rw [Multiset.erase_of_notMem hm]

end InFlight

/-! ### The relation -/

/-- The storage has the contents `d`. -/
def Kept (E : FileData → FileData → Prop) (d : FileData) (stored : Option ByteVec) : Prop :=
  ∃ d', E d d' ∧ stored = some (serialize d')

/-- What a state of the cache says about one file. -/
structure FileView where
  /-- The object in the cache. -/
  file : Option NodeFile
  /-- The bytes in the storage. -/
  stored : Option ByteVec
  /-- The requests in flight. -/
  requests : Multiset Request
  /-- The number of live handles that are marked as modified. -/
  marked : ℕ

/-- What a state of the cache says about the file `f`. -/
def CacheState.view (m : CacheState) (f : LongId) : FileView :=
  ⟨m.files f, m.storage f, inFlight m.pending f, m.marked f⟩

/-- What a state of the store says about the file `f`. -/
def Store.view (σ : Store) (f : LongId) : Option FileData × FileUse := (σ.files f, σ.uses f)

/-- The books of the store are consistent; `fl` says whether the client is in `flushCache`. -/
structure UseOk (fl : Bool) (u : FileUse) : Prop where
  marked_le : u.marked ≤ u.users
  marked_ready : 0 < u.marked → u.ready = true
  dirty_ready : 0 < u.users → u.dirty = true → u.ready = true
  idle : fl = true → u.dirty = false

/-- A write of `flushCache`. -/
def Request.isFlush : Request → Bool
  | .flush _ _ => true
  | _ => false

/-- A request of `flushCache` for a file with contents `d`. -/
def IsFlush (E : FileData → FileData → Prop) (fl : Bool) (stored : Option ByteVec) (d : FileData)
    (r : Request) : Prop :=
  ∃ d' w, E d d' ∧ r = .flush (serialize d') w ∧ fl = true ∧ (w = true → Kept E d stored)

/-- The phases of a file with contents `d`. -/
inductive Phase (E : FileData → FileData → Prop) (fl : Bool) (d : FileData) (u : FileUse)
    (v : FileView) : Prop
  | absent (hf : v.file = none) (hr : v.requests = 0) (hu : u.users = 0) (hs : Kept E d v.stored)
  | reading (data d' : FileData) (modified : Bool) (buffer : Option ByteVec) (hE : E d d')
      (hf : v.file = some ⟨.loading, data, u.users, modified⟩) (hr : v.requests = {.read buffer})
      (hu : 0 < u.users → u.ready = false)
      (hd : ∀ s : ShortId, d.nodeCache[s]? = none → data.nodeCache[s]? = none)
      (hb : ∀ b, buffer = some b → b = serialize d') (hs : v.stored = some (serialize d'))
  | loaded (d' : FileData) (modified : Bool) (hE : E d d')
      (hf : v.file = some ⟨.loaded, d', u.users, modified⟩)
      (hr : ∀ r ∈ v.requests, IsFlush E fl v.stored d r)
      (hs : modified = false → u.marked = 0 → Kept E d v.stored)
      (hm : 0 < u.users → u.dirty = true → modified = true)
  | evicting (d' d'' : FileData) (state : NodeState) (modified written : Bool)
      (rest : Multiset Request) (hE : E d d') (hE' : E d d'')
      (hf : v.file = some ⟨state, d', u.users, modified⟩)
      (hr : v.requests = .evict (serialize d'') written ::ₘ rest)
      (hrest : ∀ r ∈ rest, IsFlush E fl v.stored d r)
      (hu : state = .evicting ∧ u.users = 0 ∨ state = .loading ∧ (0 < u.users → u.ready = false))
      (hs : written = true → Kept E d v.stored)

/-- What the cache says about a file agrees with what the store says. -/
structure FileSim (E : FileData → FileData → Prop) (fl : Bool) (x : Option FileData × FileUse)
    (v : FileView) : Prop where
  marked : v.marked = x.2.marked
  use : UseOk fl x.2
  missing : x.1 = none → v.file = none ∧ v.requests = 0 ∧ x.2.users = 0 ∧ v.stored = none
  phase : ∀ d, x.1 = some d → Phase E fl d x.2 v

/-- The number of writes of `flushCache` in flight. -/
def flushes (pending : Multiset (LongId × Request)) : ℕ :=
  pending.countP fun x => x.2.isFlush = true

/-- Who may own the mutexes: the mutex of a file only belongs to a callback that waits for itself,
and such a callback is not in flight any more. -/
structure LocksOk (m : CacheState) : Prop where
  file : ∀ f, m.owner (.fileMutex f) ≠ none →
    ∃ g, m.owner .fileCacheMutex = some (.evictNodeFileCb g)
  dead : ∀ f data w, m.owner .fileCacheMutex = some (.evictNodeFileCb f) →
    (f, .evict data w) ∉ m.pending

/-- The cache in the state `m` holds the files of the store in the state `σ`. -/
structure Sim (E : FileData → FileData → Prop) (m : CacheState) (σ : Store) : Prop where
  flushing : σ.flushing = true ↔ m.owner .fileCacheMutex = some .client
  remaining : σ.flushing = true → m.remaining = flushes m.pending
  locks : LocksOk m
  file : ∀ f, FileSim E σ.flushing (σ.view f) (m.view f)

/-- A write of `mergeChild` meets a file that is modified or that a marked handle will make so, or
changes nothing that `E` sees. -/
def MergeCovered (E : FileData → FileData → Prop) (m : CacheState) : CacheOp → Prop
  | .setNode f s n .merge => ∀ file, m.files f = some file →
      file.isModified = true ∨ 0 < m.marked f ∨ E file.data (file.data.setNode s n)
  | _ => True

variable {E : FileData → FileData → Prop} {m m' : CacheState} {σ σ' : Store} {f : LongId}
  {cfg : Config} {fl : Bool} {d : FileData} {u : FileUse} {v : FileView}

theorem Kept.of (hE : Similarity E) (d : FileData) : Kept E d (some (serialize d)) :=
  ⟨d, hE.refl d, rfl⟩

theorem Kept.similar (hE : Similarity E) {d d' : FileData} {stored : Option ByteVec} (he : E d d')
    (h : Kept E d stored) : Kept E d' stored := by
  obtain ⟨d₁, h₁, hs⟩ := h
  exact ⟨d₁, hE.trans (hE.symm he) h₁, hs⟩

theorem IsFlush.similar (hE : Similarity E) {d d' : FileData}
    {stored : Option ByteVec} {r : Request}
    (he : E d d') (h : IsFlush E fl stored d r) : IsFlush E fl stored d' r := by
  obtain ⟨d₁, w, h₁, hr, hfl, hw⟩ := h
  exact ⟨d₁, w, hE.trans (hE.symm he) h₁, hr, hfl, fun h => (hw h).similar hE he⟩

theorem IsFlush.stored {stored stored' : Option ByteVec} {r : Request} (h : IsFlush E fl stored d r)
    (hk : Kept E d stored') : IsFlush E fl stored' d r := by
  obtain ⟨d₁, w, h₁, hr, hfl, -⟩ := h
  exact ⟨d₁, w, h₁, hr, hfl, fun _ => hk⟩

theorem IsFlush.isFlush {stored : Option ByteVec} {r : Request} (h : IsFlush E fl stored d r) :
    r.isFlush = true := by
  obtain ⟨_, _, -, rfl, -⟩ := h
  rfl

/-- Outside `flushCache` there are no writes of it. -/
theorem eq_zero_of_isFlush {rest : Multiset Request} {stored : Option ByteVec}
    (h : ∀ r ∈ rest, IsFlush E false stored d r) : rest = 0 := by
  rw [Multiset.eq_zero_iff_forall_notMem]
  intro r hr
  obtain ⟨-, -, -, -, hfl, -⟩ := h r hr
  cases hfl

/-- The phase does not see the difference between similar contents. -/
theorem Phase.similar (hE : Similarity E) {d d' : FileData} (he : E d d') (h : Phase E fl d u v) :
    Phase E fl d' u v := by
  have hd' : ∀ {x}, E d x → E d' x := hE.trans (hE.symm he)
  cases h with
  | absent hf hr hu hs => exact .absent hf hr hu (hs.similar hE he)
  | reading data d₁ modified buffer h₁ hf hr hu hd hb hs =>
    refine .reading data d₁ modified buffer (hd' h₁) hf hr hu (fun s hn => hd s ?_) hb hs
    have := hE.nodes he s
    rw [hn] at this
    exact Option.not_isSome_iff_eq_none.1 (by rw [← this]; simp)
  | loaded d₁ modified h₁ hf hr hs hm =>
    exact .loaded d₁ modified (hd' h₁) hf (fun r hr' => (hr r hr').similar hE he)
      (fun hm' h0 => (hs hm' h0).similar hE he) hm
  | evicting d₁ d₂ state modified written rest h₁ h₂ hf hr hrest hu hs =>
    exact .evicting d₁ d₂ state modified written rest (hd' h₁) (hd' h₂) hf hr
      (fun r hr' => (hrest r hr').similar hE he) hu fun hw => (hs hw).similar hE he

/-- A step that changes one file. -/
theorem Sim.update (h : Sim E m σ) (f : LongId) (hm : ∀ g, g ≠ f → m'.view g = m.view g)
    (hσ : ∀ g, g ≠ f → σ'.view g = σ.view g) (hfl : σ'.flushing = σ.flushing)
    (ho : m'.owner .fileCacheMutex = some .client ↔ m.owner .fileCacheMutex = some .client)
    (hr : σ.flushing = true → m'.remaining = flushes m'.pending) (hl : LocksOk m')
    (hf : FileSim E σ.flushing (σ'.view f) (m'.view f)) : Sim E m' σ' where
  flushing := by rw [hfl, ho]; exact h.flushing
  remaining := by rw [hfl]; exact hr
  locks := hl
  file g := by
    rw [hfl]
    by_cases hg : g = f
    · rw [hg]; exact hf
    · rw [hm g hg, hσ g hg]; exact h.file g

/-- A step that changes nothing about the files. -/
theorem Sim.congr (h : Sim E m σ) (hm : ∀ g, m'.view g = m.view g)
    (ho : m'.owner .fileCacheMutex = some .client ↔ m.owner .fileCacheMutex = some .client)
    (hr : σ.flushing = true → m'.remaining = flushes m'.pending) (hl : LocksOk m') :
    Sim E m' σ where
  flushing := by rw [ho]; exact h.flushing
  remaining := hr
  locks := hl
  file g := by rw [hm g]; exact h.file g

/-- A cache in which nothing is in memory, over the files of a store without users. -/
theorem Sim.opened (hE : Similarity E) {storage : LongId → Option ByteVec} (hL : Live σ [])
    (hs : ∀ f, storage f = (σ.files f).map serialize) : Sim E (.opened storage) σ where
  flushing := by simp [hL.idle, CacheState.opened]
  remaining h := by rw [hL.idle] at h; cases h
  locks := ⟨fun f h => absurd rfl h, fun f data w h => (nomatch h)⟩
  file f := by
    have hu : (σ.uses f).users = 0 := hL.users_eq_zero f
    have hm : (σ.uses f).marked = 0 := by
      have := hL.marked_le f
      omega
    refine ⟨hm.symm, ⟨hL.marked_le f, fun h => ?_, fun h => ?_, fun h => ?_⟩,
      fun hn => ⟨rfl, rfl, hu, ?_⟩, fun d hd => .absent rfl rfl hu ⟨d, hE.refl d, ?_⟩⟩
    · exact absurd hm (Nat.ne_of_gt h)
    · exact absurd hu (Nat.ne_of_gt h)
    · rw [hL.idle] at h; cases h
    · exact (hs f).trans (by rw [show σ.files f = none from hn]; rfl)
    · exact (hs f).trans (by rw [show σ.files f = some d from hd]; rfl)

/-! ### Users -/

namespace FileUse

variable {u : FileUse} {fl modified : Bool}

@[simp] theorem addUser_users : u.addUser.users = u.users + 1 := by
  unfold addUser
  split_ifs with h
  · simp [h]
  · rfl

theorem addUser_marked (h : u.marked ≤ u.users) : u.addUser.marked = u.marked := by
  unfold addUser
  split_ifs with hu
  · simp only; omega
  · rfl

/-- A user that finds others knows what they know. -/
theorem addUser_of_pos (h : 0 < u.users) : u.addUser = { u with users := u.users + 1 } :=
  if_neg (Nat.ne_of_gt h)

theorem addUser_of_zero (h : u.users = 0) : u.addUser = ⟨1, 0, false, false⟩ := if_pos h

end FileUse

theorem UseOk.addUser {fl : Bool} {u : FileUse} (h : UseOk fl u) : UseOk fl u.addUser := by
  rcases Nat.eq_zero_or_pos u.users with hu | hu
  · rw [FileUse.addUser_of_zero hu]
    exact ⟨Nat.zero_le _, fun h => absurd h (lt_irrefl _), fun _ h => (nomatch h), fun _ => rfl⟩
  · rw [FileUse.addUser_of_pos hu]
    exact ⟨Nat.le_succ_of_le h.marked_le, h.marked_ready, fun _ => h.dirty_ready hu, h.idle⟩

theorem UseOk.removeUser {fl modified : Bool} {u : FileUse} (h : UseOk fl u) (hfl : fl = false)
    (hm : if modified then 0 < u.marked else u.marked < u.users) :
    UseOk fl (u.removeUser modified) := by
  have hle := h.marked_le
  refine ⟨?_, fun hpos => h.marked_ready ?_, fun hpos hd => ?_, fun h => by rw [hfl] at h; cases h⟩
  · cases modified <;> simp_all [FileUse.removeUser] <;> omega
  · simp only [FileUse.removeUser] at hpos
    omega
  · simp only [FileUse.removeUser, Bool.or_eq_true] at hpos hd ⊢
    rcases hd with hd | rfl
    · exact h.dirty_ready (by omega) hd
    · exact h.marked_ready hm

/-- The phase of a file after one more user came. -/
theorem Phase.addUser {file : NodeFile} (h : Phase E fl d u v) (hu : UseOk fl u)
    (hf : v.file = some file) :
    Phase E fl d u.addUser { v with file := some { file with
      nodeState := if file.nodeState = .evicting then .loading else file.nodeState
      useCount := file.useCount + 1 } } := by
  have hready : (0 < u.users → u.ready = false) → 0 < u.addUser.users →
    u.addUser.ready = false := by
    intro hr _
    rcases Nat.eq_zero_or_pos u.users with h0 | h0
    · rw [FileUse.addUser_of_zero h0]
    · rw [FileUse.addUser_of_pos h0]; exact hr h0
  cases h with
  | absent hf' => rw [hf'] at hf; cases hf
  | reading data d' modified buffer hE hf' hr hu' hd hb hs =>
    obtain rfl := Option.some.inj (hf'.symm.trans hf)
    exact .reading data d' modified buffer hE (by simp) hr (hready hu') hd hb hs
  | loaded d' modified hE hf' hr hs hm =>
    obtain rfl := Option.some.inj (hf'.symm.trans hf)
    refine .loaded d' modified hE (by simp) hr (fun hm' h0 => hs hm' ?_) fun _ hd => ?_
    · rwa [FileUse.addUser_marked hu.marked_le] at h0
    · rcases Nat.eq_zero_or_pos u.users with h0 | h0
      · rw [FileUse.addUser_of_zero h0] at hd; cases hd
      · rw [FileUse.addUser_of_pos h0] at hd; exact hm h0 hd
  | evicting d' d'' state modified written rest hE hE' hf' hr hrest hu' hs =>
    obtain rfl := Option.some.inj (hf'.symm.trans hf)
    refine .evicting d' d'' .loading modified written rest hE hE' ?_ hr hrest
      (.inr ⟨rfl, hready ?_⟩) hs
    · rcases hu' with ⟨rfl, -⟩ | ⟨rfl, -⟩ <;> simp
    · rcases hu' with ⟨-, h0⟩ | ⟨-, h0⟩
      · intro hpos
        omega
      · exact h0

/-- The phase of a file after a user has gone. -/
theorem Phase.removeUser {modified : Bool} {file : NodeFile} (h : Phase E fl d u v)
    (hu : UseOk fl u) (hf : v.file = some file) (hpos : 0 < u.users)
    (hm : modified = true → 0 < u.marked) :
    Phase E fl d (u.removeUser modified) { v with
      file := some { file with
        isModified := file.isModified || modified
        useCount := file.useCount - 1 }
      marked := v.marked - modified.toNat } := by
  have hnot : u.ready = false → modified = false := by
    intro hr
    by_contra hne
    rw [hu.marked_ready (hm (by simpa using hne))] at hr
    cases hr
  cases h with
  | absent hf' => rw [hf'] at hf; cases hf
  | reading data d' b buffer hE hf' hr hu' hd hb hs =>
    obtain rfl := Option.some.inj (hf'.symm.trans hf)
    have := hnot (hu' hpos)
    subst this
    exact .reading data d' b buffer hE (by simp [FileUse.removeUser]) hr
      (fun _ => hu' hpos) hd hb hs
  | loaded d' b hE hf' hr hs hm' =>
    obtain rfl := Option.some.inj (hf'.symm.trans hf)
    refine .loaded d' (b || modified) hE rfl hr (fun hb h0 => ?_) fun _ hd => ?_
    · obtain ⟨rfl, rfl⟩ := Bool.or_eq_false_iff.1 hb
      exact hs rfl (by simpa [FileUse.removeUser] using h0)
    · simp only [FileUse.removeUser, Bool.or_eq_true] at hd ⊢
      exact hd.imp_left (hm' hpos)
  | evicting d' d'' state b written rest hE hE' hf' hr hrest hu' hs =>
    obtain rfl := Option.some.inj (hf'.symm.trans hf)
    rcases hu' with ⟨-, h0⟩ | ⟨rfl, h0⟩
    · omega
    · have := hnot (h0 hpos)
      subst this
      exact .evicting d' d'' .loading b written rest hE hE' (by simp [FileUse.removeUser]) hr hrest
        (.inr ⟨rfl, fun _ => h0 hpos⟩) hs

/-- What is known of a loaded file. -/
theorem Phase.of_loaded_file {file : NodeFile} (h : Phase E fl d u v) (hf : v.file = some file)
    (hl : file.nodeState = .loaded) : E d file.data ∧ file.useCount = u.users ∧
      (∀ r ∈ v.requests, IsFlush E fl v.stored d r) ∧
      (file.isModified = false → u.marked = 0 → Kept E d v.stored) ∧
      (0 < u.users → u.dirty = true → file.isModified = true) := by
  cases h with
  | absent hf' => rw [hf] at hf'; cases hf'
  | reading data d' b buffer hE hf' =>
    obtain rfl := Option.some.inj (hf.symm.trans hf')
    cases hl
  | loaded d' b hE hf' hr hs hm =>
    obtain rfl := Option.some.inj (hf.symm.trans hf')
    exact ⟨hE, rfl, hr, hs, hm⟩
  | evicting d' d'' st b w rest hE hE' hf' hr hrest hu' =>
    obtain rfl := Option.some.inj (hf.symm.trans hf')
    rcases hu' with ⟨rfl, -⟩ | ⟨rfl, -⟩ <;> cases hl

/-- A file with a read in flight is being read. -/
theorem Phase.of_read {buffer : Option ByteVec} (h : Phase E fl d u v)
    (hr : Request.read buffer ∈ v.requests) : ∃ data d' modified, E d d' ∧
      v.file = some ⟨.loading, data, u.users, modified⟩ ∧ v.requests = {.read buffer} ∧
      (0 < u.users → u.ready = false) ∧
      (∀ s : ShortId, d.nodeCache[s]? = none → data.nodeCache[s]? = none) ∧
      (∀ b, buffer = some b → b = serialize d') ∧ v.stored = some (serialize d') := by
  cases h with
  | absent hf hreq => rw [hreq] at hr; exact absurd hr (Multiset.notMem_zero _)
  | reading data d' modified buffer' he hf hreq hu hd hb hs =>
    rw [hreq, Multiset.mem_singleton] at hr
    cases hr
    exact ⟨data, d', modified, he, hf, hreq, hu, hd, hb, hs⟩
  | loaded d' modified he hf hreq hs hm =>
    exact nomatch (hreq _ hr).isFlush
  | evicting d' d'' st b w rest he he' hf hreq hrest hu hs =>
    rw [hreq] at hr
    rcases Multiset.mem_cons.1 hr with hr | hr
    · cases hr
    · exact nomatch (hrest _ hr).isFlush

/-- A file with an eviction in flight is being evicted. -/
theorem Phase.of_evict {data : ByteVec} {w : Bool} (h : Phase E fl d u v)
    (hr : Request.evict data w ∈ v.requests) : ∃ d' d'' state modified rest, E d d' ∧ E d d'' ∧
      data = serialize d'' ∧ v.file = some ⟨state, d', u.users, modified⟩ ∧
      v.requests = .evict data w ::ₘ rest ∧ (∀ r ∈ rest, IsFlush E fl v.stored d r) ∧
      (state = .evicting ∧ u.users = 0 ∨ state = .loading ∧ (0 < u.users → u.ready = false)) ∧
      (w = true → Kept E d v.stored) := by
  cases h with
  | absent hf hreq => rw [hreq] at hr; exact absurd hr (Multiset.notMem_zero _)
  | reading data d' modified buffer he hf hreq =>
    rw [hreq, Multiset.mem_singleton] at hr
    cases hr
  | loaded d' modified he hf hreq hs hm =>
    exact nomatch (hreq _ hr).isFlush
  | evicting d' d'' st b w' rest he he' hf hreq hrest hu hs =>
    rw [hreq] at hr
    rcases Multiset.mem_cons.1 hr with hr | hr
    · cases hr
      exact ⟨d', d'', st, b, rest, he, he', rfl, hf, hreq, hrest, hu, hs⟩
    · exact nomatch (hrest _ hr).isFlush

/-- A file with a write of `flushCache` in flight is in the cache. -/
theorem Phase.of_flush {data : ByteVec} {w : Bool} (h : Phase E fl d u v)
    (hr : Request.flush data w ∈ v.requests) : IsFlush E fl v.stored d (.flush data w) := by
  cases h with
  | absent hf hreq => rw [hreq] at hr; exact absurd hr (Multiset.notMem_zero _)
  | reading data d' modified buffer he hf hreq =>
    rw [hreq, Multiset.mem_singleton] at hr
    cases hr
  | loaded d' modified he hf hreq => exact hreq _ hr
  | evicting d' d'' st b w' rest he he' hf hreq hrest =>
    rw [hreq] at hr
    rcases Multiset.mem_cons.1 hr with hr | hr
    · cases hr
    · exact hrest _ hr

theorem Phase.exists_file (h : Phase E fl d u v) (hr : ∃ r, r ∈ v.requests) :
    ∃ file, v.file = some file := by
  obtain ⟨r, hr⟩ := hr
  cases h with
  | absent hf hreq => rw [hreq] at hr; exact absurd hr (Multiset.notMem_zero _)
  | reading _ _ _ _ _ hf => exact ⟨_, hf⟩
  | loaded _ _ _ hf => exact ⟨_, hf⟩
  | evicting _ _ _ _ _ _ _ _ hf => exact ⟨_, hf⟩

/-- The phase goes on when a write of `flushCache` is taken out, a finished one possibly put in its
place, and the file possibly marked as clean. -/
theorem Phase.replace {data : ByteVec} {w : Bool} {stored : Option ByteVec} {file : NodeFile}
    {requests : Multiset Request} {b : Bool} {k : ℕ} (h : Phase E true d u v)
    (hr : Request.flush data w ∈ v.requests) (hf : v.file = some file) (hk : Kept E d stored)
    (hreq : requests = v.requests.erase (.flush data w) ∨
      requests = .flush data true ::ₘ v.requests.erase (.flush data w))
    (hb : b = file.isModified ∨ u.dirty = false) :
    Phase E true d u ⟨some { file with isModified := b }, stored, requests, k⟩ := by
  obtain ⟨d₁, w', he₁, hdata, -⟩ := h.of_flush hr
  have hnew : IsFlush E true stored d (.flush data true) := by
    cases hdata
    exact ⟨d₁, true, he₁, rfl, rfl, fun _ => hk⟩
  cases h with
  | absent hf' => rw [hf] at hf'; cases hf'
  | reading _ d' modified buffer he hf' hreq' =>
    rw [hreq', Multiset.mem_singleton] at hr
    cases hr
  | loaded d' modified he hf' hreq' hs hm =>
    obtain rfl := Option.some.inj (hf.symm.trans hf')
    have hold : ∀ r ∈ v.requests.erase (.flush data w), IsFlush E true stored d r :=
      fun r hr => (hreq' r (Multiset.mem_of_mem_erase hr)).stored hk
    refine .loaded d' b he rfl (fun r hr' => ?_) (fun _ _ => hk) fun hpos hd => ?_
    · rcases hreq with rfl | rfl
      · exact hold r hr'
      · rcases Multiset.mem_cons.1 hr' with rfl | hr'
        · exact hnew
        · exact hold r hr'
    · rcases hb with rfl | hb
      · exact hm hpos hd
      · rw [hb] at hd; cases hd
  | evicting d' d'' st modified w' rest he he' hf' hreq' hrest hu hs =>
    obtain rfl := Option.some.inj (hf.symm.trans hf')
    have hne : Request.evict (serialize d'') w' ≠ .flush data w := fun e => nomatch e
    rw [hreq', Multiset.erase_cons_tail_of_mem (by
      rw [hreq'] at hr
      exact (Multiset.mem_cons.1 hr).resolve_left hne.symm)] at hreq
    have hold : ∀ r ∈ rest.erase (.flush data w), IsFlush E true stored d r :=
      fun r hr => (hrest r (Multiset.mem_of_mem_erase hr)).stored hk
    rcases hreq with rfl | rfl
    · exact .evicting d' d'' st b w' _ he he' rfl rfl hold hu fun _ => hk
    · refine .evicting d' d'' st b w' (.flush data true ::ₘ rest.erase (.flush data w)) he he' rfl
        (Multiset.cons_swap ..) (fun r hr' => ?_) hu fun _ => hk
      rcases Multiset.mem_cons.1 hr' with rfl | hr'
      · exact hnew
      · exact hold r hr'

/-- A file whose user has seen it loaded is loaded. -/
theorem Phase.of_ready (h : Phase E fl d u v) (hu : 0 < u.users) (hr : u.ready = true) :
    ∃ d' modified, E d d' ∧ v.file = some ⟨.loaded, d', u.users, modified⟩ ∧
      (∀ r ∈ v.requests, IsFlush E fl v.stored d r) ∧
      (modified = false → u.marked = 0 → Kept E d v.stored) ∧
    (u.dirty = true → modified = true) := by
  cases h with
  | absent hf hr hu' => omega
  | reading data d' b buffer hE hf hr' hu' => rw [hu' hu] at hr; cases hr
  | loaded d' b hE hf hr hs hm => exact ⟨d', b, hE, hf, hr, hs, hm hu⟩
  | evicting d' d'' state b written rest hE hE' hf hr' hrest hu' =>
    rcases hu' with ⟨-, h0⟩ | ⟨-, h0⟩
    · omega
    · rw [h0 hu] at hr; cases hr

end MegaTree
