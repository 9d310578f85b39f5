import MegaTree.Web.FrustumQuerier

/-!
# The objects of a page

What holds of the cell objects, the cache and the requests at any time, whatever became of the
queries.

`Sound.step` : a cell object is the cell of its id, the cache has it under its id, and the roots of
trees have no parent.
-/

namespace MegaTree.Web

open Effect

/-- The geometry of the cell with an id. -/
def Server.cellGeom (server : Server) (id : CellId) : NodeGeometry :=
  geomOf (server.geom id.tree) id.path

namespace State

/-- The callback of a request for this cell. -/
def Fits (s : State) (id : CellId) : Callback → Prop
  | .root _ => id.path = []
  | .child r scope => r < s.newCell ∧ scope < s.newScope ∧ ∃ c, id = (s.cells r).id.child c

/-- The requests have different numbers, which were used before. -/
structure Numbered (newXhr : ℕ) (requests : List Request) : Prop where
  nodup : (requests.map Request.xhr).Nodup
  lt : ∀ q ∈ requests, q.xhr < newXhr

namespace Numbered

variable {newXhr : ℕ} {requests : List Request}

theorem succ (h : Numbered newXhr requests) : Numbered (newXhr + 1) requests :=
  ⟨h.nodup, fun q hq => (h.lt q hq).trans (Nat.lt_succ_self _)⟩

theorem filter (h : Numbered newXhr requests) (f : Request → Bool) :
    Numbered newXhr (requests.filter f) :=
  ⟨h.nodup.sublist (List.filter_sublist.map _), fun q hq => h.lt q (List.mem_filter.mp hq).1⟩

theorem append (h : Numbered newXhr requests) {q : Request} (hq : q.xhr = newXhr) :
    Numbered (newXhr + 1) (requests ++ [q]) where
  nodup := by
    rw [List.map_append, List.map_singleton]
    refine h.nodup.append (List.nodup_singleton _) (List.disjoint_singleton.mpr fun hmem => ?_)
    obtain ⟨q', hq', heq⟩ := List.mem_map.mp hmem
    have hlt := h.lt q' hq'
    omega
  lt q' hq' := by
    rcases List.mem_append.mp hq' with hq' | hq'
    · exact (h.lt q' hq').trans (Nat.lt_succ_self _)
    · rw [List.mem_singleton.mp hq', hq]
      exact Nat.lt_succ_self _

end Numbered

/-- The objects of the page are what they are meant to be. -/
structure Sound (server : Server) (s : State) : Prop where
  located : ∀ r < s.newCell, (s.cells r).geometry = server.cellGeom (s.cells r).id ∧
    (s.cells r).children = (server.files (s.cells r).id).headD 0
  roots : ∀ r < s.newCell, (s.cells r).id.path = [] →
    (s.cells r).parentCell = none ∧ (s.cells r).insideFrustum = -1
  cached : ∀ x ∈ s.cellCache, x.2 < s.newCell ∧ (s.cells x.2).id = x.1
  queued : ∀ r ∈ s.queue, r < s.newCell
  requested : ∀ q ∈ s.requests, q.geometry = server.cellGeom q.id ∧ s.Fits q.id q.callback
  running : ∀ r c scope, .children r c scope ∈ s.stack → r < s.newCell ∧ scope < s.newScope
  numbered : Numbered s.newXhr s.requests

variable {server : Server} {s : State}

/-- A change of an object that keeps what it is. -/
structure Keeps (f : CellObject → CellObject) (cell : CellObject) : Prop where
  id : (f cell).id = cell.id
  geometry : (f cell).geometry = cell.geometry
  children : (f cell).children = cell.children
  root : cell.id.path = [] →
    (f cell).parentCell = cell.parentCell ∧ (f cell).insideFrustum = cell.insideFrustum

theorem keeps_showAll (cell : CellObject) : Keeps .showAll cell :=
    ⟨rfl, rfl, rfl, fun _ => ⟨rfl, rfl⟩⟩

theorem keeps_hide (cell : CellObject) (c : ChildNr) : Keeps (·.hide c) cell :=
  ⟨rfl, rfl, rfl, fun _ => ⟨rfl, rfl⟩⟩

theorem keeps_received {callback : Callback} {cell : CellObject} (h : s.Fits cell.id callback) :
    Keeps (s.received callback) cell := by
  cases callback with
  | root scope => exact ⟨rfl, rfl, rfl, fun _ => ⟨rfl, rfl⟩⟩
  | child r scope =>
    obtain ⟨-, -, c, hc⟩ := h
    exact ⟨rfl, rfl, rfl, fun hroot => absurd (hc ▸ hroot) (by simp [CellId.child])⟩

theorem id_modify {r : Ref} {f : CellObject → CellObject} (hf : Keeps f (s.cells r)) (r' : Ref) :
    ((s.modify r f).cells r').id = (s.cells r').id := by
  simp only [modify, Function.update_apply]
  split_ifs with h
  · rw [h, hf.id]
  · rfl

/-- The ids decide whether a callback fits. -/
theorem Fits.mono {s' : State} {id : CellId} {callback : Callback} (h : s.Fits id callback)
    (hnew : s.newCell ≤ s'.newCell) (hscope : s.newScope ≤ s'.newScope)
    (hid : ∀ r < s.newCell, (s'.cells r).id = (s.cells r).id) :
    s'.Fits id callback := by
  cases callback with
  | root scope => exact h
  | child r scope =>
    obtain ⟨hr, hlt, c, hc⟩ := h
    exact ⟨hr.trans_le hnew, hlt.trans_le hscope, c, by rw [hid r hr, hc]⟩

namespace Sound

theorem modify (h : s.Sound server) {r : Ref} {f : CellObject → CellObject}
    (hf : Keeps f (s.cells r)) : (s.modify r f).Sound server where
  located r' hr' := by
    have hkeep := h.located r' hr'
    simp only [State.modify, Function.update_apply]
    split_ifs with heq
    · subst heq
      rw [hf.geometry, hf.children, hf.id]
      exact hkeep
    · exact hkeep
  roots r' hr' := by
    have hkeep := h.roots r' hr'
    simp only [State.modify, Function.update_apply]
    split_ifs with heq
    · subst heq
      rw [hf.id]
      intro hroot
      rw [(hf.root hroot).1, (hf.root hroot).2]
      exact hkeep hroot
    · exact hkeep
  cached x hx := ⟨(h.cached x hx).1, by rw [id_modify hf]; exact (h.cached x hx).2⟩
  queued := h.queued
  requested q hq := ⟨(h.requested q hq).1,
    (h.requested q hq).2.mono le_rfl le_rfl fun r _ => id_modify hf r⟩
  running := h.running
  numbered := h.numbered

theorem modifyOption (h : s.Sound server) {r : Option Ref} {f : CellObject → CellObject}
    (hf : ∀ cell, Keeps f cell) : (s.modifyOption r f).Sound server := by
  cases r with
  | none => exact h
  | some r => exact h.modify (hf _)

theorem processQueue (h : s.Sound server) : s.processQueue.Sound server :=
  ⟨h.located, h.roots, h.cached, h.queued, h.requested, fun r c scope hmem =>
    h.running r c scope (by simpa [State.processQueue] using hmem), h.numbered⟩

theorem loaded (h : s.Sound server) {callback : Callback} (hb : callback.Bound s) {r : Ref}
    (hr : r < s.newCell) (hfits : s.Fits (s.cells r).id callback) :
    (s.loaded callback r).Sound server := by
  obtain ⟨calls, heq⟩ := loaded_eq hb r
  have hpush : ((s.modify r (s.received callback)).push r).Sound server := by
    have hmod := h.modify (keeps_received hfits)
    refine ⟨hmod.located, hmod.roots, hmod.cached, fun r' hr' => ?_, hmod.requested, hmod.running,
      hmod.numbered⟩
    rcases List.mem_append.mp hr' with hr' | hr'
    · exact h.queued r' hr'
    · rw [List.mem_singleton.mp hr']
      exact hr
  rw [heq]
  split_ifs
  · exact ⟨hpush.located, hpush.roots, hpush.cached, hpush.queued, hpush.requested,
      hpush.running, h.numbered⟩
  · exact hpush.processQueue

theorem getCell (h : s.Sound server) {id : CellId} {geometry : NodeGeometry} {callback : Callback}
    (hb : callback.Bound s) (hgeometry : geometry = server.cellGeom id)
    (hfits : s.Fits id callback) : (s.getCell id geometry callback).Sound server := by
  rcases getCell_cases s id geometry callback with ⟨r, hr, heq⟩ | ⟨-, heq⟩ | ⟨-, -, heq⟩
  · rw [heq]
    have hhit : (s.hit id).Sound server :=
      ⟨h.located, h.roots, fun x hx => h.cached x (mem_of_mem_touch hx), h.queued, h.requested,
        h.running, h.numbered.succ⟩
    obtain ⟨hnew, hid⟩ := h.cached _ (mem_of_lookup hr)
    have hid' : ((s.hit id).cells r).id = id := hid
    exact hhit.loaded (bound_hit hb id) hnew (hid' ▸ hfits.mono le_rfl le_rfl fun _ _ => rfl)
  · rw [heq]
    refine ⟨h.located, h.roots, h.cached, h.queued, fun q hq => ?_, h.running,
      h.numbered.append rfl⟩
    rcases List.mem_append.mp hq with hq | hq
    · exact ⟨(h.requested q hq).1, (h.requested q hq).2.mono le_rfl le_rfl fun _ _ => rfl⟩
    · obtain rfl := List.mem_singleton.mp hq
      exact ⟨hgeometry, hfits.mono le_rfl le_rfl fun _ _ => rfl⟩
  · rw [heq]
    exact ⟨h.located, h.roots, h.cached, h.queued, fun q hq => ⟨(h.requested q hq).1,
      (h.requested q hq).2.mono le_rfl le_rfl fun _ _ => rfl⟩, h.running, h.numbered.succ⟩

theorem processCell (h : s.Sound server) {r : Ref} (hr : r < s.newCell) :
    (s.processCell r).Sound server := by
  have hshow : (s.showCell r).Sound server := by
    have hmod := h.modify (keeps_showAll (s.cells r))
    exact ⟨hmod.located, hmod.roots, hmod.cached, hmod.queued, hmod.requested,
      hmod.running, hmod.numbered⟩
  have henter : (s.enter r).Sound server := hshow.modifyOption fun cell => keeps_hide cell _
  rcases processCell_cases s r with heq | ⟨heq, -⟩ | ⟨heq, -⟩
  · rw [heq]
    exact ⟨h.located, h.roots, h.cached, h.queued,
      fun q hq => h.requested q (List.mem_filter.mp hq).1, h.running, h.numbered.filter _⟩
  · rw [heq]
    exact henter
  · rw [heq]
    refine ⟨henter.located, henter.roots, henter.cached, henter.queued, fun q hq =>
      ⟨(henter.requested q hq).1, (henter.requested q hq).2.mono le_rfl (Nat.le_succ _)
        fun _ _ => rfl⟩, fun r' c scope hmem => ?_, henter.numbered⟩
    rcases List.mem_cons.mp hmem with hframe | hmem
    · obtain ⟨rfl, -, rfl⟩ := Frame.children.inj hframe
      exact ⟨hr, Nat.lt_succ_self _⟩
    · obtain ⟨hr', hscope⟩ := henter.running r' c scope hmem
      exact ⟨hr', hscope.trans (Nat.lt_succ_self _)⟩

theorem processChild (h : s.Sound server) {r : Ref} (hr : r < s.newCell) {scope : ℕ}
    (hscope : scope < s.newScope) (child : ChildNr) :
    (s.processChild r scope child).Sound server := by
  have hset : ∀ inside, (s.setChildInFrustum scope inside).Sound server := fun _ =>
    ⟨h.located, h.roots, h.cached, h.queued, h.requested, h.running, h.numbered⟩
  unfold State.processChild
  split_ifs
  · refine (hset _).getCell trivial ?_ ⟨hr, hscope, child, rfl⟩
    rw [(h.located r hr).1]
    rfl
  · exact (hset _).modify (keeps_hide _ _)
  · exact h.modify (keeps_hide _ _)

theorem giveResults (h : s.Sound server) : s.giveResults.Sound server := by
  unfold State.giveResults
  by_cases hpos : s.inFlight > 0
  · rw [if_pos hpos]
    exact ⟨h.located, h.roots, h.cached, h.queued, h.requested, h.running, h.numbered⟩
  · rw [if_neg hpos]
    exact ⟨h.located, h.roots, h.cached, h.queued, h.requested, h.running, h.numbered⟩

theorem getRoot (h : s.Sound server) (scope : ℕ) (treeInfo : Option TreeInfo) :
    (s.getRoot server scope treeInfo).Sound server := by
  have hset : (s.setTreeInfo scope treeInfo).Sound server :=
    ⟨h.located, h.roots, h.cached, h.queued, h.requested, h.running, h.numbered⟩
  unfold State.getRoot
  split
  · split_ifs
    · exact hset.getCell (by simp [Callback.Bound, State.setTreeInfo]) rfl rfl
    · exact hset
  · exact hset

theorem triggerFrustum (h : s.Sound server) (id : ℤ) : (s.triggerFrustum id).Sound server := by
  have hpending : s.cancelPending.Sound server := by
    unfold State.cancelPending
    split_ifs
    · exact ⟨h.located, h.roots, h.cached, h.queued,
        fun q hq => h.requested q (List.mem_filter.mp hq).1, h.running, h.numbered.filter _⟩
    · exact h
  unfold State.triggerFrustum
  split_ifs
  · exact h
  · refine ⟨hpending.located, hpending.roots, hpending.cached,
      fun r hr => absurd hr List.not_mem_nil, fun q hq => ⟨(hpending.requested q hq).1,
        (hpending.requested q hq).2.mono le_rfl (Nat.le_succ _) fun _ _ => rfl⟩,
      fun r c scope hmem => ?_, hpending.numbered⟩
    obtain ⟨hr, hscope⟩ := hpending.running r c scope (by simpa [State.startQuery] using hmem)
    exact ⟨hr, hscope.trans (Nat.lt_succ_self _)⟩

theorem cells_answered_of_lt (q : Request) {r : Ref} (hr : r < s.newCell) :
    (s.answered server q).cells r = s.cells r := Function.update_of_ne hr.ne _ _

theorem cells_answered_newCell (q : Request) :
    (s.answered server q).cells s.newCell = .new q.id q.geometry (server.files q.id) :=
  Function.update_self _ _ _

/-- The answer of the server is a new object. -/
theorem answered (h : s.Sound server) {q : Request} (hq : q ∈ s.requests) :
    (s.answered server q).Sound server := by
  have hold : ∀ r < s.newCell, (s.answered server q).cells r = s.cells r := fun r hr =>
    cells_answered_of_lt q hr
  have hnew : (s.answered server q).cells s.newCell = .new q.id q.geometry (server.files q.id) :=
    cells_answered_newCell q
  have hcases : ∀ r < s.newCell + 1, r < s.newCell ∨ r = s.newCell := fun r hr =>
    Nat.lt_succ_iff_lt_or_eq.mp hr
  refine ⟨fun r hr => ?_, fun r hr => ?_, fun x hx => ?_, fun r hr => ?_, fun q' hq' => ?_,
    fun r c scope hmem => ?_, h.numbered.filter _⟩
  · rcases hcases r hr with hr | rfl
    · rw [hold r hr]
      exact h.located r hr
    · rw [hnew]
      exact ⟨(h.requested q hq).1, rfl⟩
  · rcases hcases r hr with hr | rfl
    · rw [hold r hr]
      exact h.roots r hr
    · rw [hnew]
      exact fun _ => ⟨rfl, rfl⟩
  · rcases mem_of_mem_put hx with rfl | hx
    · exact ⟨Nat.lt_succ_self _, by rw [hnew]; rfl⟩
    · obtain ⟨hlt, hid⟩ := h.cached x hx
      exact ⟨hlt.trans (Nat.lt_succ_self _), by rw [hold _ hlt, hid]⟩
  · exact (h.queued r hr).trans (Nat.lt_succ_self _)
  · obtain ⟨hgeometry, hfits⟩ := h.requested q' (List.mem_filter.mp hq').1
    exact ⟨hgeometry, hfits.mono (Nat.le_succ _) le_rfl fun r hr => by rw [hold r hr]⟩
  · exact ⟨(h.running r c scope hmem).1.trans (Nat.lt_succ_self _), (h.running r c scope hmem).2⟩

theorem onload (h : s.Sound server) {q : Request} (hq : q ∈ s.requests) :
    (s.onload server q).Sound server := by
  have hanswered : (s.answered server q).Sound server := h.answered hq
  by_cases hb : q.callback.Bound (s.answered server q)
  · refine hanswered.loaded hb (Nat.lt_succ_self _) ?_
    rw [cells_answered_newCell]
    exact (h.requested q hq).2.mono (Nat.le_succ _) le_rfl
      fun r hr => by rw [cells_answered_of_lt q hr]
  · rw [State.onload, loaded_of_not_bound hb]
    exact hanswered

theorem run (h : s.Sound server) {s' : State} (hs : s.run server = some s') : s'.Sound server := by
  -- the functions that go on were running before
  have frame : ∀ {stack : List Frame}, (∀ r c scope, .children r c scope ∈ stack →
      r < s.newCell ∧ scope < s.newScope) → ({ s with stack := stack } : State).Sound server :=
        fun hrunning =>
    ⟨h.located, h.roots, h.cached, h.queued, h.requested, hrunning, h.numbered⟩
  have hrest : ∀ {f : Frame} {rest : List Frame}, s.stack = f :: rest →
      ∀ r c scope, .children r c scope ∈ rest → r < s.newCell ∧ scope < s.newScope :=
    fun hstack r c scope hmem => h.running r c scope (hstack ▸ List.mem_cons_of_mem _ hmem)
  refine run_cases hs ?root ?start ?wait ?cell ?results ?chunk ?next ?child ?childrenEnd
  case root =>
    intro i scope rest treeInfo hstack _
    exact (frame (by simpa using hrest hstack)).getRoot scope treeInfo
  case start =>
    intro i scope rest hstack _ _
    exact (frame (hrest hstack)).processQueue
  case wait =>
    intro i scope rest hstack _ _
    exact ⟨h.located, h.roots, h.cached, h.queued, h.requested, hrest hstack, h.numbered⟩
  case cell =>
    intro rest r hstack hr _
    exact (frame (by simpa using hrest hstack)).processCell
      (h.queued r (List.mem_of_getElem? hr))
  case results =>
    intro rest hstack _
    exact (frame (hrest hstack)).giveResults
  case chunk =>
    intro rest hstack _
    exact ⟨h.located, h.roots, h.cached, h.queued, h.requested, hrest hstack, h.numbered⟩
  case next =>
    intro rest hstack
    exact ⟨h.located, h.roots, h.cached, h.queued, h.requested, by simpa using hrest hstack,
      h.numbered⟩
  case child =>
    intro r c scope rest hstack
    have hr := h.running r c scope (hstack ▸ List.mem_cons_self)
    have hnext : ({ s with stack := .children r (c + 1) scope :: rest } : State).Sound server :=
      frame fun r' c' scope' hmem => by
        rcases List.mem_cons.mp hmem with hframe | hmem
        · obtain ⟨rfl, -, rfl⟩ := Frame.children.inj hframe
          exact hr
        · exact hrest hstack r' c' scope' hmem
    exact hnext.processChild hr.1 hr.2 c
  case childrenEnd =>
    intro r c scope rest hstack _
    exact frame (hrest hstack)

theorem start (server : Server) (page : Page) : (State.start page).Sound server where
  located _ h := absurd h (Nat.not_lt_zero _)
  roots _ h := absurd h (Nat.not_lt_zero _)
  cached _ h := absurd h List.not_mem_nil
  queued _ h := absurd h List.not_mem_nil
  requested _ h := absurd h List.not_mem_nil
  running _ _ _ h := absurd h List.not_mem_nil
  numbered := ⟨List.nodup_nil, fun _ h => absurd h List.not_mem_nil⟩

theorem step (h : s.Sound server) {s' : State} {e : Event} (hs : Web.step server e s = some s') :
    s'.Sound server := by
  refine step_cases hs ?run ?getFrustum ?processQueue ?triggerFrustum ?success ?failure
  case run => exact fun _ hrun => h.run hrun
  case getFrustum =>
    rintro page - - rfl
    have hpage : ({ s with page := page, lastFrustumTriggerId := 0 } : State).Sound server :=
      ⟨h.located, h.roots, h.cached, h.queued, h.requested, h.running, h.numbered⟩
    exact hpage.triggerFrustum 0
  case processQueue =>
    rintro i - - - rfl
    have htimers : ({ s with timers := s.timers.eraseIdx i } : State).Sound server :=
      ⟨h.located, h.roots, h.cached, h.queued, h.requested, h.running, h.numbered⟩
    exact htimers.processQueue
  case triggerFrustum =>
    rintro i id - - - rfl
    have htimers : ({ s with timers := s.timers.eraseIdx i } : State).Sound server :=
      ⟨h.located, h.roots, h.cached, h.queued, h.requested, h.running, h.numbered⟩
    exact htimers.triggerFrustum id
  case success =>
    rintro q hq - - rfl
    exact h.onload hq
  case failure =>
    rintro q hq - - rfl
    exact ⟨h.located, h.roots, h.cached, h.queued,
      fun q' hq' => h.requested q' (List.mem_filter.mp hq').1, h.running, h.numbered.filter _⟩

end Sound

end State

end MegaTree.Web
