import MegaTree.Cache.Steps
import MegaTree.Tree.Session

/-!
# Pinned files stay

A coarse reference for the file cache: `PinState` only counts the users of each file, knows which
files were seen loaded while they had users, and which nodes were handed out.  Its replies are
arbitrary, so what is proved against it holds whatever the files contain.

* `PinSim m σ` : the use counts of the cache are those of `σ`; a file with users is in the cache, is
  not `EVICTING`, and has the nodes that were handed out.
* `pin_simulates` : every step of the cache keeps `PinSim`.
* `Pinned σ L` : the client holds exactly the pins in the list `L`.  The `pin_` lemmas are the rules
  for the functions of the client in these terms.
-/

namespace MegaTree

open Effect

/-! ### The reference -/

/-- What the client has pinned. -/
structure PinState where
  /-- The number of users of each file. -/
  users : LongId → ℕ
  /-- The file was seen loaded since it has users. -/
  ready : LongId → Bool
  /-- The nodes that were handed out since the file has users. -/
  nodes : LongId → ShortId → Bool

/-- The reply of a step. -/
structure PinChoice where
  /-- What the step finds out. -/
  flag : Bool
  /-- The fields of a node. -/
  node : Node
  /-- The files in the cache. -/
  listing : List LongId

/-- The reply of a step that finds out nothing. -/
def PinChoice.plain : PinChoice := ⟨false, .new, []⟩

namespace PinState

variable (σ : PinState)

/-- Nothing is pinned. -/
def init : PinState := ⟨fun _ => 0, fun _ => false, fun _ _ => false⟩

/-- One more user of a file. -/
def add (f : LongId) : PinState :=
  { σ with
    users := Function.update σ.users f (σ.users f + 1)
    ready := Function.update σ.ready f (σ.ready f && decide (0 < σ.users f)) }

/-- One user less. -/
def drop (f : LongId) : PinState :=
  { σ with
    users := Function.update σ.users f (σ.users f - 1)
    nodes := Function.update σ.nodes f fun s => σ.nodes f s && decide (1 < σ.users f) }

/-- The file was seen loaded. -/
def see (f : LongId) : PinState := { σ with ready := Function.update σ.ready f true }

/-- A node is handed out. -/
def hand (f : LongId) (s : ShortId) : PinState :=
  { σ with nodes := Function.update σ.nodes f (Function.update (σ.nodes f) s true) }

/-- The reply `x`, if the file has a user. -/
def pinned {α : Type} (f : LongId) (x : α) : Option α := if 0 < σ.users f then some x else none

/-- The meaning of the operations.  A handle without a node does not pin its file, so its `isValid`
may be called without a pin. -/
def step (c : PinChoice) (o : CacheOp) (σ : PinState) : Option (o.Res × PinState) :=
  match o with
  | .getNodeFile f => some ((), σ.add f)
  | .createNodeFile f => some ((), (σ.add f).see f)
  | .cacheMaintenance => some ((), σ)
  | .waitUntilLoaded f => some ((), if 0 < σ.users f then σ.see f else σ)
  | .isLoaded f =>
    if 0 < σ.users f then
      some (σ.ready f || c.flag, if σ.ready f || c.flag then σ.see f else σ)
    else some (c.flag, σ)
  | .hasChildFile f _ => σ.pinned f (c.flag, σ)
  | .setChildFile f _ => σ.pinned f ((), σ)
  | .readNode f s => σ.pinned f (c.flag, if c.flag then (σ.add f).hand f s else σ)
  | .createNode f s => σ.pinned f ((), (σ.add f).hand f s)
  | .countNode => some ((), σ)
  | .removeUser f => σ.pinned f ((), σ.drop f)
  | .getNode f s => if σ.nodes f s then some (c.node, σ) else none
  | .setNode f s _ _ => if σ.nodes f s then some ((), σ) else none
  | .releaseNode f _ => σ.pinned f ((), σ.drop f)
  | .flushBegin => some (c.listing, σ)
  | .flushFile _ => some ((), σ)
  | .flushWait => some ((), σ)

end PinState

/-! ### The simulation -/

/-- A file of the cache with `k` users; `r` says whether it was seen loaded, and `N` which of its
nodes were handed out. -/
structure PinFile (file : Option NodeFile) (k : ℕ) (r : Bool) (N : ShortId → Bool) : Prop where
  gone : file = none → k = 0
  users : ∀ x, file = some x → x.useCount = k
  evicting : ∀ x, file = some x → x.nodeState = .evicting → k = 0
  loaded : ∀ x, file = some x → 0 < k → r = true → x.nodeState = .loaded
  nodes : ∀ s, N s = true → 0 < k ∧ ∀ x, file = some x → (x.data.nodeCache[s]?).isSome

/-- The cache agrees with the pins of the client. -/
def PinSim (m : CacheState) (σ : PinState) : Prop :=
  ∀ f, PinFile (m.files f) (σ.users f) (σ.ready f) (σ.nodes f)

namespace PinSim

variable {m m' : CacheState} {σ σ' : PinState} {f : LongId} {file : NodeFile}

theorem opened (storage : LongId → Option ByteVec) : PinSim (.opened storage) .init := fun _ =>
  ⟨fun _ => rfl, fun _ h => (nomatch h), fun _ h => (nomatch h), fun _ h => (nomatch h),
    fun _ h => (nomatch h)⟩

/-- A step that changes one file. -/
theorem update (h : PinSim m σ) (f : LongId) (hm : ∀ g, g ≠ f → m'.files g = m.files g)
    (hu : ∀ g, g ≠ f → σ'.users g = σ.users g) (hr : ∀ g, g ≠ f → σ'.ready g = σ.ready g)
    (hn : ∀ g, g ≠ f → σ'.nodes g = σ.nodes g)
    (hf : PinFile (m'.files f) (σ'.users f) (σ'.ready f) (σ'.nodes f)) : PinSim m' σ' := by
  intro g
  by_cases hg : g = f
  · rw [hg]; exact hf
  · rw [hm g hg, hu g hg, hr g hg, hn g hg]; exact h g

/-- A step that only changes the contents of one file. -/
theorem setFile (h : PinSim m σ) (hf : m.files f = some file) {file' : NodeFile}
    (hm : m'.files = Function.update m.files f (some file'))
    (hu : file'.useCount = file.useCount)
    (hs : file'.nodeState = .evicting → file.nodeState = .evicting)
    (hl : file.nodeState = .loaded → file'.nodeState = .loaded)
    (hn : ∀ s : ShortId, (file.data.nodeCache[s]?).isSome → (file'.data.nodeCache[s]?).isSome) :
    PinSim m' σ := by
  refine h.update f (fun g hg => by rw [hm, Function.update_of_ne hg]) (fun _ _ => rfl)
    (fun _ _ => rfl) (fun _ _ => rfl) ?_
  have hp := h f
  rw [hm, Function.update_self]
  refine ⟨fun h => (nomatch h), ?_, ?_, ?_, ?_⟩
  · rintro _ ⟨⟩
    rw [hu]; exact hp.users file hf
  · rintro _ ⟨⟩ he
    exact hp.evicting file hf (hs he)
  · rintro _ ⟨⟩ hk hr
    exact hl (hp.loaded file hf hk hr)
  · intro s hN
    refine ⟨(hp.nodes s hN).1, ?_⟩
    rintro _ ⟨⟩
    exact hn s ((hp.nodes s hN).2 file hf)

/-- A file without users may change in any way that leaves it without users. -/
theorem idle (h : PinSim m σ) (hf : m.files f = some file) (hk : file.useCount = 0)
    (hm : ∀ g, g ≠ f → m'.files g = m.files g)
    (hu : ∀ x, m'.files f = some x → x.useCount = 0) : PinSim m' σ := by
  have hp := h f
  have h0 : σ.users f = 0 := by rw [← hp.users file hf, hk]
  refine h.update f hm (fun _ _ => rfl) (fun _ _ => rfl) (fun _ _ => rfl) ⟨fun _ =>
    h0, ?_, ?_, ?_, ?_⟩
  · intro x hx
    rw [hu x hx, h0]
  · exact fun _ _ _ => h0
  · intro x hx hpos
    omega
  · intro s hN
    have := (hp.nodes s hN).1
    omega

/-- One more user of a file. -/
theorem add (h : PinSim m σ) {file : NodeFile} (hm : ∀ g, g ≠ f → m'.files g = m.files g)
    (hf : m'.files f = some file) (hk : file.useCount = σ.users f + 1)
    (hs : file.nodeState ≠ .evicting)
    (hold : ∀ x, m.files f = some x → (x.nodeState = .loaded → file.nodeState = .loaded) ∧
      ∀ s : ShortId, (x.data.nodeCache[s]?).isSome → (file.data.nodeCache[s]?).isSome) :
    PinSim m' (σ.add f) := by
  have hp := h f
  have hlive : 0 < σ.users f → ∃ x, m.files f = some x := fun hpos =>
    Option.isSome_iff_exists.1 (by
      cases hx : m.files f with
      | none => have := hp.gone hx; omega
      | some x => rfl)
  refine h.update f hm (fun g hg => Function.update_of_ne hg _ _)
    (fun g hg => Function.update_of_ne hg _ _) (fun _ _ => rfl) ?_
  simp only [PinState.add, Function.update_self, hf]
  refine ⟨fun h => (nomatch h), ?_, ?_, ?_, ?_⟩
  · rintro _ ⟨⟩
    exact hk
  · rintro _ ⟨⟩ he
    exact absurd he hs
  · rintro _ ⟨⟩ - hr
    simp only [Bool.and_eq_true, decide_eq_true_eq] at hr
    obtain ⟨x, hx⟩ := hlive hr.2
    exact (hold x hx).1 (hp.loaded x hx hr.2 hr.1)
  · intro s hN
    refine ⟨Nat.succ_pos _, ?_⟩
    rintro _ ⟨⟩
    obtain ⟨x, hx⟩ := hlive (hp.nodes s hN).1
    exact (hold x hx).2 s ((hp.nodes s hN).2 x hx)

/-- One user less. -/
theorem drop (h : PinSim m σ) (hf : m.files f = some file) {file' : NodeFile}
    (hm : m'.files = Function.update m.files f (some file'))
    (hu : file'.useCount = file.useCount - 1) (hs : file'.nodeState = file.nodeState)
    (hd : file'.data = file.data) : PinSim m' (σ.drop f) := by
  have hp := h f
  refine h.update f (fun g hg => by rw [hm, Function.update_of_ne hg])
    (fun g hg => Function.update_of_ne hg _ _) (fun _ _ => rfl)
    (fun g hg => Function.update_of_ne hg _ _) ?_
  simp only [PinState.drop, Function.update_self, hm]
  refine ⟨fun h => (nomatch h), ?_, ?_, ?_, ?_⟩
  · rintro _ ⟨⟩
    rw [hu, hp.users file hf]
  · rintro _ ⟨⟩ he
    rw [hp.evicting file hf (hs ▸ he)]
  · rintro _ ⟨⟩ hk hr
    rw [hs]
    exact hp.loaded file hf (by omega) hr
  · intro s hN
    simp only [Bool.and_eq_true, decide_eq_true_eq] at hN
    refine ⟨by omega, ?_⟩
    rintro _ ⟨⟩
    rw [hd]
    exact (hp.nodes s hN.1).2 file hf

/-- A file was seen loaded. -/
theorem see (h : PinSim m σ) (hf : m.files f = some file) (hs : file.nodeState = .loaded) :
    PinSim m (σ.see f) := by
  have hp := h f
  refine h.update f (fun _ _ => rfl) (fun _ _ => rfl) (fun g hg => Function.update_of_ne hg _ _)
    (fun _ _ => rfl) ⟨hp.gone, hp.users, hp.evicting, ?_, hp.nodes⟩
  intro x hx _ _
  obtain rfl := Option.some.inj (hf.symm.trans hx)
  exact hs

/-- A node is handed out. -/
theorem hand (h : PinSim m σ) {s : ShortId} (hpos : 0 < σ.users f)
    (hf : ∀ x, m.files f = some x → (x.data.nodeCache[s]?).isSome) : PinSim m (σ.hand f s) := by
  have hp := h f
  refine h.update f (fun _ _ => rfl) (fun _ _ => rfl) (fun _ _ => rfl)
    (fun g hg => Function.update_of_ne hg _ _) ⟨hp.gone, hp.users, hp.evicting, hp.loaded, ?_⟩
  intro s' hN
  simp only [PinState.hand, Function.update_self] at hN
  by_cases he : s' = s
  · subst he
    exact ⟨hpos, hf⟩
  · rw [Function.update_of_ne he] at hN
    exact hp.nodes s' hN

/-- A node of a pinned file gets a user. -/
theorem addNode (h : PinSim m σ) {s : ShortId} (hpos : 0 < σ.users f) (hf : m.files f = some file)
    {file' : NodeFile} (hm : m'.files = Function.update m.files f (some file'))
    (hu : file'.useCount = file.useCount + 1) (hs : file'.nodeState = file.nodeState)
    (hn : ∀ s : ShortId, (file.data.nodeCache[s]?).isSome → (file'.data.nodeCache[s]?).isSome)
    (hnew : (file'.data.nodeCache[s]?).isSome) : PinSim m' ((σ.add f).hand f s) := by
  have hself : m'.files f = some file' := by rw [hm, Function.update_self]
  refine PinSim.hand (h.add (fun g hg => by rw [hm, Function.update_of_ne hg]) hself ?_ ?_
    fun x hx => ?_) ?_ fun x hx => ?_
  · rw [hu, (h f).users file hf]
  · intro he
    have := (h f).evicting file hf (hs ▸ he)
    omega
  · obtain rfl := Option.some.inj (hf.symm.trans hx)
    exact ⟨fun hl => hs.trans hl, hn⟩
  · simp [PinState.add]
  · obtain rfl := Option.some.inj (hself.symm.trans hx)
    exact hnew

/-- A file with a user is in the cache. -/
theorem file_of_pos (h : PinSim m σ) (hpos : 0 < σ.users f) : ∃ file, m.files f = some file ∧
    file.useCount = σ.users f ∧ file.nodeState ≠ .evicting := by
  cases hf : m.files f with
  | none =>
    have := (h f).gone hf
    omega
  | some file =>
    refine ⟨file, rfl, (h f).users file hf, fun he => ?_⟩
    have := (h f).evicting file hf he
    omega

/-- The eviction loop leaves the files with users alone. -/
theorem maintenance {cfg : Config} {busy : LongId → Bool} (h : PinSim m σ)
    (hm : m.cacheMaintenance cfg busy = some m') : PinSim m' σ := by
  refine CacheState.cacheMaintenance_induct (P := fun m => PinSim m σ) ?_ ?_ hm h
  · intro m f file hm hf _ hk _
    refine hm.idle hf hk (fun g hg => Function.update_of_ne hg _ _) fun x hx => ?_
    simp only [CacheState.dropFile, Function.update_self] at hx
    cases hx
  · intro m f file hm hf _ hk _
    refine hm.idle hf hk (fun g hg => Function.update_of_ne hg _ _) fun x hx => ?_
    simp only [CacheState.startEvict, Function.update_self] at hx
    obtain rfl := Option.some.inj hx
    exact hk

/-- The environment neither touches the use counts nor takes away a file that has users. -/
theorem env {cfg : Config} (h : PinSim m σ) (he : EnvStep cfg m m') : PinSim m' σ := by
  cases he with
  | completeRead => exact h
  | completeEvict => exact h
  | completeFlush => exact h
  | readCb f buffer file data hp hf hd =>
    exact h.setFile hf rfl rfl (fun h => (nomatch h)) (fun _ => rfl) fun s => deserialize_isSome hd
  | evicted f data file hp ho hf hm hs =>
    have hk := (h f).users file hf
    rw [(h f).evicting file hf hs] at hk
    refine h.idle hf hk (fun g hg => Function.update_of_ne hg _ _) fun x hx => ?_
    simp only [Function.update_self] at hx
    cases hx
  | reloaded f data file owner hp ho ho' hf hm hs =>
    exact h.setFile hf rfl rfl (fun h => (nomatch h)) (fun _ => rfl) fun s => id
  | stuck => exact h
  | flushCb f data file hp hf => exact h.setFile hf rfl rfl id id fun s => id
  | maintenance busy m' hl h' => exact maintenance (m := { m with loaders := m.loaders - 1 }) h h'

/-! The operations of a client that take a user, look at a file or replace a node. -/

section Operations

variable {cfg : Config} {c : CacheChoice} {s : ShortId}

theorem getNodeFile (h : PinSim m σ) {r : CacheOp.Res (.getNodeFile f)}
    (hc : CacheState.client cfg c (.getNodeFile f) m = some (r, m')) : PinSim m' (σ.add f) := by
  obtain ⟨-, ⟨file, hf, rfl⟩ | ⟨hf, rfl⟩⟩ := CacheState.getNodeFile_cases hc
  · refine h.add (fun g hg => Function.update_of_ne hg _ _) (Function.update_self ..) ?_ ?_
      fun x hx => ?_
    · simp only [(h f).users file hf]
    · -- a file whose eviction is written is taken back
      simp only
      split_ifs with he
      · exact fun h => (nomatch h)
      · exact he
    · obtain rfl := Option.some.inj (hf.symm.trans hx)
      exact ⟨fun hl => by simp [hl], fun _ => id⟩
  · refine h.add (fun g hg => Function.update_of_ne hg _ _) (Function.update_self ..) ?_
      (fun h => (nomatch h)) fun x hx => ?_
    · rw [(h f).gone hf]
    · rw [hf] at hx; cases hx

theorem createNodeFile (h : PinSim m σ) {r : CacheOp.Res (.createNodeFile f)}
    (hc : CacheState.client cfg c (.createNodeFile f) m = some (r, m')) :
    PinSim m' ((σ.add f).see f) := by
  obtain ⟨-, hf, rfl⟩ := CacheState.createNodeFile_cases hc
  have hself : (m.setFile f ⟨.loaded, .empty, 1, true⟩).files f =
      some ⟨.loaded, .empty, 1, true⟩ := Function.update_self ..
  refine PinSim.see (h.add (fun g hg => Function.update_of_ne hg _ _) hself ?_
    (fun h => (nomatch h)) fun x hx => ?_) hself rfl
  · rw [(h f).gone hf]
  · rw [hf] at hx; cases hx

/-- Whether a file with users is loaded: the pins know it once it was seen, and choose it before. -/
theorem isLoaded (h : PinSim m σ) {r : CacheOp.Res (.isLoaded f)}
    (hc : CacheState.client cfg c (.isLoaded f) m = some (r, m')) :
    ∃ c' σ', PinState.step c' (.isLoaded f) σ = some (r, σ') ∧ PinSim m' σ' := by
  obtain ⟨file, hf, hc⟩ := Option.map_eq_some_iff.1 hc
  obtain ⟨rfl, rfl⟩ := Prod.mk.inj hc
  have hready : 0 < σ.users f → (σ.ready f || decide (file.nodeState = .loaded)) =
      decide (file.nodeState = .loaded) := by
    intro hpos
    cases hr : σ.ready f with
    | false => rfl
    | true => rw [decide_eq_true ((h f).loaded file hf hpos hr)]; rfl
  by_cases hpos : 0 < σ.users f
  · refine ⟨⟨decide (file.nodeState = .loaded), .new, []⟩,
      if file.nodeState = .loaded then σ.see f else σ, ?_, ?_⟩
    · simp only [PinState.step, if_pos hpos, hready hpos, decide_eq_true_eq]
    · split_ifs with hl
      · exact h.see hf hl
      · exact h
  · refine ⟨⟨decide (file.nodeState = .loaded), .new, []⟩, σ, ?_, h⟩
    simp only [PinState.step, if_neg hpos]

/-- Putting a node into a file keeps the nodes that are there. -/
theorem isSome_setNode {d : FileData} {n : Node} {s' : ShortId}
    (hs : (d.nodeCache[s']?).isSome) : (((d.setNode s n).nodeCache[s']?)).isSome := by
  simp only [FileData.getElem?_setNode]
  split_ifs
  · rfl
  · exact hs

theorem readNode (h : PinSim m σ) (hpos : 0 < σ.users f) {r : CacheOp.Res (.readNode f s)}
    (hc : CacheState.client cfg c (.readNode f s) m = some (r, m')) :
    ∃ c' σ', PinState.step c' (.readNode f s) σ = some (r, σ') ∧ PinSim m' σ' := by
  obtain ⟨file, hf, ⟨hn, rfl, rfl⟩ | ⟨-, -, rfl, rfl⟩ | ⟨-, rfl, rfl⟩⟩ :=
    CacheState.readNode_cases hc
  · exact ⟨⟨true, .new, []⟩, (σ.add f).hand f s, if_pos hpos,
      h.addNode hpos hf rfl rfl rfl (fun _ => id) hn⟩
  · -- the node is created in the file that is being read
    exact ⟨⟨true, .new, []⟩, (σ.add f).hand f s, if_pos hpos,
      h.addNode hpos hf rfl rfl rfl (fun s' hs' => isSome_setNode hs') (by simp)⟩
  · exact ⟨.plain, σ, if_pos hpos, h⟩

theorem createNode (h : PinSim m σ) (hpos : 0 < σ.users f) {r : CacheOp.Res (.createNode f s)}
    (hc : CacheState.client cfg c (.createNode f s) m = some (r, m')) :
    PinSim m' ((σ.add f).hand f s) := by
  obtain ⟨file, hf, hc⟩ := Option.map_eq_some_iff.1 hc
  obtain ⟨rfl, rfl⟩ := Prod.mk.inj hc
  refine h.addNode hpos hf rfl rfl rfl (fun s' hs' => ?_) ?_
  · split_ifs
    · exact hs'
    · exact isSome_setNode hs'
  · split_ifs with hold
    · exact hold
    · simp

theorem setNode (h : PinSim m σ) {n : Node} {w : Write}
    {r : CacheOp.Res (.setNode f s n w)}
    (hc : CacheState.client cfg c (.setNode f s n w) m = some (r, m')) : PinSim m' σ := by
  obtain ⟨file, hf, -, rfl⟩ := CacheState.setNode_cases hc
  exact h.setFile hf rfl rfl id id fun s' hs' => isSome_setNode hs'

/-- A user of a file goes, with or without a node of it. -/
theorem removeUser (h : PinSim m σ) {r : CacheOp.Res (.removeUser f)}
    (hc : CacheState.client cfg c (.removeUser f) m = some (r, m')) : PinSim m' (σ.drop f) := by
  obtain ⟨file, hf, -, rfl⟩ := CacheState.removeUser_cases hc
  exact h.drop hf rfl rfl rfl rfl

theorem releaseNode (h : PinSim m σ) {modified : Bool} {r : CacheOp.Res (.releaseNode f modified)}
    (hc : CacheState.client cfg c (.releaseNode f modified) m = some (r, m')) :
    PinSim m' (σ.drop f) := by
  obtain ⟨-, file, hf, -, rfl⟩ := CacheState.releaseNode_cases hc
  exact h.drop hf rfl rfl rfl rfl

end Operations

end PinSim

/-- Every step of the cache is a step of the pins with the same reply. -/
theorem PinSim.client {cfg : Config} {c : CacheChoice} {o : CacheOp} {r : o.Res} {m m' : CacheState}
    {σ : PinState} (h : PinSim m σ) (hc : CacheState.client cfg c o m = some (r, m'))
    (ho : ∀ c', (PinState.step c' o σ).isSome) :
    ∃ c' σ', PinState.step c' o σ = some (r, σ') ∧ PinSim m' σ' := by
  -- the pins answer for a file with users, and for a node that was handed out
  have pinned : ∀ {f : LongId} {α : Type} {x : α}, (σ.pinned f x).isSome → 0 < σ.users f := by
    intro f α x hx
    by_contra hn
    rw [PinState.pinned, if_neg hn] at hx
    cases hx
  have handed : ∀ {f : LongId} {s : ShortId} {α : Type} {x : α},
      (if σ.nodes f s = true then some x else none).isSome → σ.nodes f s = true := by
    intro f s α x hx
    by_contra hn
    rw [if_neg hn] at hx
    cases hx
  cases o with
  | getNodeFile f => exact ⟨.plain, _, rfl, h.getNodeFile hc⟩
  | createNodeFile f => exact ⟨.plain, _, rfl, h.createNodeFile hc⟩
  | cacheMaintenance =>
    obtain ⟨m₁, hm, he⟩ := Option.map_eq_some_iff.1 hc
    obtain ⟨rfl, rfl⟩ := Prod.mk.inj he
    exact ⟨.plain, σ, rfl, h.maintenance hm⟩
  | waitUntilLoaded f =>
    obtain ⟨file, hf, hc⟩ := Option.bind_eq_some_iff.1 hc
    split_ifs at hc with hl
    obtain ⟨rfl, rfl⟩ := Prod.mk.inj (Option.some.inj hc)
    refine ⟨.plain, _, rfl, ?_⟩
    split_ifs
    · exact h.see hf hl
    · exact h
  | isLoaded f => exact h.isLoaded hc
  | hasChildFile f child =>
    obtain ⟨file, hf, hc⟩ := Option.map_eq_some_iff.1 hc
    obtain ⟨rfl, rfl⟩ := Prod.mk.inj hc
    exact ⟨⟨file.data.hasChildFile child, .new, []⟩, σ, if_pos (pinned (ho PinChoice.plain)), h⟩
  | setChildFile f child =>
    obtain ⟨file, hf, hc⟩ := Option.map_eq_some_iff.1 hc
    obtain ⟨rfl, rfl⟩ := Prod.mk.inj hc
    exact ⟨.plain, σ, if_pos (pinned (ho PinChoice.plain)), h.setFile hf rfl rfl id id fun _ => id⟩
  | readNode f s => exact h.readNode (pinned (ho PinChoice.plain)) hc
  | createNode f s =>
    have hpos := pinned (ho PinChoice.plain)
    exact ⟨.plain, _, if_pos hpos, h.createNode hpos hc⟩
  | countNode =>
    obtain ⟨rfl, rfl⟩ := Prod.mk.inj (Option.some.inj hc)
    exact ⟨.plain, σ, rfl, h⟩
  | removeUser f => exact ⟨.plain, _, if_pos (pinned (ho PinChoice.plain)), h.removeUser hc⟩
  | getNode f s =>
    obtain ⟨file, hf, hc⟩ := Option.bind_eq_some_iff.1 hc
    obtain ⟨n, hn, hc⟩ := Option.map_eq_some_iff.1 hc
    obtain ⟨rfl, rfl⟩ := Prod.mk.inj hc
    exact ⟨⟨false, n, []⟩, σ, if_pos (handed (ho PinChoice.plain)), h⟩
  | setNode f s n w => exact ⟨.plain, σ, if_pos (handed (ho PinChoice.plain)), h.setNode hc⟩
  | releaseNode f modified =>
    exact ⟨.plain, _, if_pos (pinned (ho PinChoice.plain)), h.releaseNode hc⟩
  | flushBegin =>
    obtain ⟨-, rfl, rfl⟩ := CacheState.flushBegin_cases hc
    exact ⟨⟨false, .new, m.order⟩, σ, rfl, h⟩
  | flushFile f =>
    obtain ⟨-, file, -, ⟨-, -, rfl⟩ | ⟨-, rfl⟩⟩ := CacheState.flushFile_cases hc
    · exact ⟨.plain, σ, rfl, h⟩
    · exact ⟨.plain, σ, rfl, h⟩
  | flushWait =>
    obtain ⟨-, -, rfl⟩ := CacheState.flushWait_cases hc
    exact ⟨.plain, σ, rfl, h⟩

theorem pin_simulates (cfg : Config) :
    (cacheMachine cfg).Simulates (fun _ _ => True) PinState.step PinSim where
  client _ h _ hc ho := h.client hc ho
  env _ h he := h.env (.of_env he)

end MegaTree
