import MegaTree.Web.FrustumQuerier

/-!
# The requests of a query

`inFlight` counts the requests that were issued since the last `cancel` and are not answered.
-/

namespace MegaTree.Web

open Effect

/-- The requests that were issued since the last `cancel` and have neither succeeded nor failed. -/
def openRequests : List LogEntry → List ℕ
  | [] => []
  | .cancel :: _ => []
  | .issued xhr :: log => xhr :: openRequests log
  | .succeeded xhr :: log => (openRequests log).erase xhr
  | .failed xhr :: log => (openRequests log).erase xhr
  | .query :: log => openRequests log
  | .progress _ :: log => openRequests log
  | .finished _ :: log => openRequests log

namespace State

/-- `inFlight` counts the open requests, up to `d`, and the requests that were lost, of which there
are none in an exact account; and the requests in flight are open. -/
structure Accounted (exact : Prop) (d : ℤ) (s : State) : Prop where
  inFlight_eq : ∃ lost : ℕ, s.inFlight = (openRequests s.log).length + d + lost ∧
    (exact → lost = 0)
  isOpen : ∀ q ∈ s.requests, q.xhr ∈ openRequests s.log
  stored : ∀ q ∈ s.requests, q.xhr ∈ s.storageRequests

namespace Accounted

variable {server : Server} {s : State} {d : ℤ} {exact : Prop}

theorem issue (h : s.Accounted exact 0) : s.issue.Accounted exact 0 where
  inFlight_eq := by
    obtain ⟨lost, heq, hexact⟩ := h.inFlight_eq
    refine ⟨lost, ?_, hexact⟩
    simp only [State.issue, openRequests, List.length_cons, heq]
    push_cast
    ring
  isOpen q hq := List.mem_cons_of_mem _ (h.isOpen q hq)
  stored := h.stored

theorem hit (h : s.Accounted exact 0) (id : CellId) : (s.hit id).Accounted exact 1 where
  inFlight_eq := by
    obtain ⟨lost, heq, hexact⟩ := h.inFlight_eq
    refine ⟨lost, ?_, hexact⟩
    simp only [State.hit, State.issue, openRequests, List.erase_cons_head, heq]
    ring
  isOpen q hq := by
    simp only [State.hit, openRequests, List.erase_cons_head]
    exact h.isOpen q hq
  stored := h.stored

theorem send (h : s.Accounted exact 0) (id : CellId) (geometry : NodeGeometry)
    (callback : Callback) :
    (s.send id geometry callback).Accounted exact 0 where
  inFlight_eq := h.issue.inFlight_eq
  isOpen q hq := by
    rcases List.mem_append.mp hq with hq | hq
    · exact List.mem_cons_of_mem _ (h.isOpen q hq)
    · obtain rfl := List.mem_singleton.mp hq
      exact List.mem_cons_self
  stored q hq := by
    rcases List.mem_append.mp hq with hq | hq
    · exact List.mem_append_left _ (h.stored q hq)
    · obtain rfl := List.mem_singleton.mp hq
      exact List.mem_append_right _ List.mem_cons_self

theorem loaded (h : s.Accounted exact 1) {callback : Callback} (hb : callback.Bound s) (r : Ref) :
    (s.loaded callback r).Accounted exact 0 := by
  obtain ⟨calls, heq⟩ := loaded_eq hb r
  have hcount : ∃ lost : ℕ, s.inFlight - 1 = (openRequests s.log).length + 0 + lost ∧
      (exact → lost = 0) := by
    obtain ⟨lost, hlost, hexact⟩ := h.inFlight_eq
    exact ⟨lost, by rw [hlost]; ring, hexact⟩
  rw [heq]
  split_ifs
  · exact ⟨hcount, h.isOpen, h.stored⟩
  · exact ⟨hcount, h.isOpen, h.stored⟩

theorem getCell (h : s.Accounted exact 0) (id : CellId) (geometry : NodeGeometry)
    {callback : Callback}
    (hb : callback.Bound s) : (s.getCell id geometry callback).Accounted exact 0 := by
  rcases getCell_cases s id geometry callback with ⟨r, -, heq⟩ | ⟨-, heq⟩ | ⟨-, -, heq⟩
  · rw [heq]
    exact (h.hit id).loaded (bound_hit hb id) r
  · rw [heq]
    exact h.send id geometry callback
  · rw [heq]
    exact h.issue

/-- `cancel` answers no request, and leaves none in flight. -/
theorem cancel (h : s.Accounted exact d) : s.cancel.Accounted exact 0 where
  inFlight_eq := ⟨0, rfl, fun _ => rfl⟩
  isOpen q hq := by
    obtain ⟨hmem, hnot⟩ := List.mem_filter.mp hq
    exact absurd (h.stored q hmem) (of_decide_eq_true hnot)
  stored q hq := h.stored q (List.mem_filter.mp hq).1

theorem processCell (h : s.Accounted exact 0) (r : Ref) : (s.processCell r).Accounted exact 0 := by
  rcases processCell_cases s r with heq | ⟨heq, -⟩ | ⟨heq, -⟩
  · rw [heq]
    exact ⟨h.cancel.inFlight_eq, h.cancel.isOpen, h.cancel.stored⟩
  · rw [heq]
    exact ⟨h.inFlight_eq, h.isOpen, h.stored⟩
  · rw [heq]
    exact ⟨h.inFlight_eq, h.isOpen, h.stored⟩

theorem processChild (h : s.Accounted exact 0) (r : Ref) (scope : ℕ) (child : ChildNr) :
    (s.processChild r scope child).Accounted exact 0 := by
  have hset : ∀ inside, (s.setChildInFrustum scope inside).Accounted exact 0 := fun _ =>
    ⟨h.inFlight_eq, h.isOpen, h.stored⟩
  unfold State.processChild
  split_ifs
  · exact (hset _).getCell _ _ trivial
  · exact ⟨h.inFlight_eq, h.isOpen, h.stored⟩
  · exact ⟨h.inFlight_eq, h.isOpen, h.stored⟩

theorem giveResults (h : s.Accounted exact 0) : s.giveResults.Accounted exact 0 := by
  unfold State.giveResults
  by_cases hpos : s.inFlight > 0
  · rw [if_pos hpos]
    exact ⟨h.inFlight_eq, h.isOpen, h.stored⟩
  · rw [if_neg hpos]
    exact ⟨h.inFlight_eq, h.isOpen, h.stored⟩

theorem getRoot (h : s.Accounted exact 0) (scope : ℕ) (treeInfo : Option TreeInfo) :
    (s.getRoot server scope treeInfo).Accounted exact 0 := by
  have hset : (s.setTreeInfo scope treeInfo).Accounted exact 0 :=
    ⟨h.inFlight_eq, h.isOpen, h.stored⟩
  unfold State.getRoot
  split
  · split_ifs
    · exact hset.getCell _ _ (by simp [Callback.Bound, State.setTreeInfo])
    · exact hset
  · exact hset

theorem requests_cancelPending (h : s.Accounted exact 0) : s.cancelPending.requests = [] := by
  unfold State.cancelPending
  split_ifs with hpos
  · exact List.filter_eq_nil_iff.mpr fun q hq => by simp [h.stored q hq]
  · obtain ⟨lost, heq, -⟩ := h.inFlight_eq
    have hopen : openRequests s.log = [] := List.length_eq_zero_iff.mp (by omega)
    exact List.eq_nil_iff_forall_not_mem.mpr fun q hq => by simpa [hopen] using h.isOpen q hq

theorem triggerFrustum (h : s.Accounted exact 0) (id : ℤ) :
    (s.triggerFrustum id).Accounted exact 0 := by
  unfold State.triggerFrustum
  split_ifs
  · exact h
  · have hpending : s.cancelPending.Accounted exact 0 := by
      unfold State.cancelPending
      split_ifs
      · exact h.cancel
      · exact h
    refine ⟨hpending.inFlight_eq, hpending.isOpen, fun q hq => ?_⟩
    have hnil := h.requests_cancelPending
    exact absurd hq (by simp [State.startQuery, hnil])

/-- A request that is answered is not open any more. -/
theorem removed (h : s.Accounted exact 0) {q : Request} (hq : q ∈ s.requests) :
    (∃ lost : ℕ, s.inFlight = ((openRequests s.log).erase q.xhr).length + 1 + lost ∧
        (exact → lost = 0)) ∧
      ∀ q' ∈ s.requests.filter (·.xhr ≠ q.xhr),
        q'.xhr ∈ (openRequests s.log).erase q.xhr ∧ q'.xhr ∈ s.storageRequests := by
  constructor
  · have hmem := h.isOpen q hq
    have hlen := List.length_erase_of_mem hmem
    have hpos := List.length_pos_of_mem hmem
    obtain ⟨lost, heq, hexact⟩ := h.inFlight_eq
    exact ⟨lost, by omega, hexact⟩
  · intro q' hq'
    obtain ⟨hmem, hne⟩ := List.mem_filter.mp hq'
    exact ⟨(List.mem_erase_of_ne (of_decide_eq_true hne)).mpr (h.isOpen q' hmem), h.stored q' hmem⟩

theorem answered (h : s.Accounted exact 0) {q : Request} (hq : q ∈ s.requests) :
    (s.answered server q).Accounted exact 1 :=
  ⟨(h.removed hq).1, fun q' hq' => ((h.removed hq).2 q' hq').1,
    fun q' hq' => ((h.removed hq).2 q' hq').2⟩

theorem onload (h : s.Accounted exact 0) {q : Request} (hq : q ∈ s.requests)
    (hexact : exact → q.callback.Bound s) : (s.onload server q).Accounted exact 0 := by
  have hbound : q.callback.Bound (s.answered server q) ↔ q.callback.Bound s := by
    cases q.callback <;> rfl
  have hanswered : (s.answered server q).Accounted exact 1 := h.answered hq
  by_cases hb : q.callback.Bound (s.answered server q)
  · exact hanswered.loaded hb _
  · -- the request is lost: it is answered, and still counted
    rw [State.onload, loaded_of_not_bound hb]
    obtain ⟨lost, heq, -⟩ := hanswered.inFlight_eq
    refine ⟨⟨lost + 1, ?_, fun he => absurd (hbound.mpr (hexact he)) hb⟩, hanswered.isOpen,
      hanswered.stored⟩
    rw [heq]
    push_cast
    ring

/-- A failed request is lost. -/
theorem onfailure (h : s.Accounted exact 0) {q : Request} (hq : q ∈ s.requests)
    (hexact : ¬ exact) : (s.onfailure q).Accounted exact 0 where
  inFlight_eq := by
    obtain ⟨lost, heq, -⟩ := (h.removed hq).1
    refine ⟨lost + 1, ?_, fun he => absurd he hexact⟩
    change s.inFlight = ((openRequests s.log).erase q.xhr).length + 0 + (lost + 1 : ℕ)
    rw [heq]
    push_cast
    ring
  isOpen q' hq' := ((h.removed hq).2 q' hq').1
  stored q' hq' := ((h.removed hq).2 q' hq').2

theorem run (h : s.Accounted exact 0) {s' : State} (hs : s.run server = some s') :
    s'.Accounted exact 0 := by
  have frame : ∀ stack, ({ s with stack := stack } : State).Accounted exact 0 := fun _ =>
    ⟨h.inFlight_eq, h.isOpen, h.stored⟩
  refine run_cases hs ?root ?start ?wait ?cell ?results ?chunk ?next ?child ?childrenEnd
  case root => exact fun _ _ _ _ _ _ => (frame _).getRoot _ _
  case start => exact fun _ _ _ _ _ _ => ⟨h.inFlight_eq, h.isOpen, h.stored⟩
  case wait => exact fun _ _ _ _ _ _ => ⟨h.inFlight_eq, h.isOpen, h.stored⟩
  case cell => exact fun _ _ _ _ _ => (frame _).processCell _
  case results => exact fun _ _ _ => (frame _).giveResults
  case chunk => exact fun _ _ _ => ⟨h.inFlight_eq, h.isOpen, h.stored⟩
  case next => exact fun _ _ => ⟨h.inFlight_eq, h.isOpen, h.stored⟩
  case child => exact fun _ _ _ _ _ => (frame _).processChild _ _ _
  case childrenEnd => exact fun _ _ _ _ _ _ => frame _

end Accounted

end State

/-! ### The end of a query -/

/-- `finishedCallback` was called since the last query began. -/
def Finished : List LogEntry → Prop
  | [] => False
  | .query :: _ => False
  | .finished _ :: _ => True
  | _ :: log => Finished log

/-- What may wait below a call of `processQueue`: calls of `processCell`, each in its own call of
`processQueue`. -/
inductive Nested : List Frame → Prop
  | nil : Nested []
  | cons {rest : List Frame} (r : Ref) (c scope : ℕ) :
      Nested rest → Nested (.children r c scope :: .after :: rest)

/-- How the functions call each other. -/
def WellStacked : List Frame → Prop
  | [] => True
  | .roots _ _ :: rest => rest = []
  | .loop :: rest => Nested rest
  | .after :: rest => Nested rest
  | .children r c scope :: rest => Nested (.children r c scope :: rest)

theorem Nested.wellStacked {rest : List Frame} (h : Nested rest) : WellStacked rest := by
  cases h with
  | nil => trivial
  | cons r c scope hrest => exact .cons r c scope hrest

theorem Nested.ne_roots {rest : List Frame} (h : Nested rest) (i scope : ℕ) :
    rest ≠ [.roots i scope] := by
  rintro rfl
  cases h

/-- The trees that are asked for. -/
def enabledTrees (treesInfo : List (Option TreeInfo)) : List (Option TreeInfo) :=
  treesInfo.filter fun treeInfo => treeInfo.any (·.enabled)

namespace State

/-- When no function runs, the query is finished, or something is left that goes on with it. -/
structure Finishing (s : State) : Prop where
  stack : WellStacked s.stack
  roots : ∀ i scope, s.stack = [.roots i scope] → s.isProcessingQueue = true ∧
    s.inFlight + s.queue.length = (enabledTrees (s.page.treesInfo.take i)).length
  chunk : s.stack = [] → s.isProcessingQueue = true → .processQueue ∈ s.timers
  finished : s.stack = [] → .query ∈ s.log →
    Finished s.log ∨ .processQueue ∈ s.timers ∨ 0 < s.inFlight
  enabled : s.timers ≠ [] ∨ s.stack ≠ [] ∨ s.requests ≠ [] → enabledTrees s.page.treesInfo ≠ []

/-- While a function runs, only the stack matters. -/
theorem finishing_of_stack {s : State} {frame : Frame} {rest : List Frame}
    (hstack : s.stack = frame :: rest) (hwell : WellStacked (frame :: rest))
    (hroots : ∀ i scope, frame ≠ .roots i scope)
    (henabled : enabledTrees s.page.treesInfo ≠ []) : s.Finishing where
  stack := hstack ▸ hwell
  roots i scope h := absurd (List.cons.inj (hstack.symm.trans h)).1 (hroots i scope)
  chunk h := absurd (hstack.symm.trans h) (List.cons_ne_nil _ _)
  finished h := absurd (hstack.symm.trans h) (List.cons_ne_nil _ _)
  enabled _ := henabled

theorem finishing_of_roots {s : State} (i scope : ℕ) (hstack : s.stack = [.roots i scope])
    (hproc : s.isProcessingQueue = true)
    (hcount : s.inFlight + s.queue.length = (enabledTrees (s.page.treesInfo.take i)).length)
    (henabled : enabledTrees s.page.treesInfo ≠ []) : s.Finishing where
  stack := by rw [hstack]; rfl
  roots j scope' h := by
    obtain ⟨rfl, rfl⟩ := Frame.roots.inj (List.cons.inj (hstack.symm.trans h)).1
    exact ⟨hproc, hcount⟩
  chunk h := absurd (hstack.symm.trans h) (List.cons_ne_nil _ _)
  finished h := absurd (hstack.symm.trans h) (List.cons_ne_nil _ _)
  enabled _ := henabled

namespace Finishing

variable {server : Server} {s : State}

theorem enabledTrees_ne_nil (h : s.Finishing) {frame : Frame} {rest : List Frame}
    (hstack : s.stack = frame :: rest) : enabledTrees s.page.treesInfo ≠ [] :=
  h.enabled (.inr (.inl (by rw [hstack]; exact List.cons_ne_nil _ _)))

theorem getRoot {i scope : ℕ} {rest : List Frame} {treeInfo : Option TreeInfo} (h : s.Finishing)
    (hstack : s.stack = .roots i scope :: rest) (ht : s.page.treesInfo[i]? = some treeInfo) :
    (State.getRoot server { s with stack := .roots (i + 1) scope :: rest } scope
      treeInfo).Finishing := by
  have henabled := h.enabledTrees_ne_nil hstack
  have hwell := h.stack
  rw [hstack] at hwell
  obtain rfl : rest = [] := hwell
  obtain ⟨hproc, hcount⟩ := h.roots i scope hstack
  have htake : enabledTrees (s.page.treesInfo.take (i + 1)) =
      enabledTrees (s.page.treesInfo.take i) ++ enabledTrees [treeInfo] := by
    rw [List.take_add_one, ht, enabledTrees, List.filter_append]
    rfl
  unfold State.getRoot
  split
  · next t =>
    split_ifs with hon
    · set s₁ := setTreeInfo { s with stack := [.roots (i + 1) scope] } scope (some t)
      have hb : Callback.Bound s₁ (.root scope) := by simp [s₁, Callback.Bound, setTreeInfo]
      obtain ⟨hpage, hproc₁, -⟩ := getCell_frame hb (.root t.name) (server.geom t.name)
      refine finishing_of_roots (i + 1) scope ?_ ?_ ?_ ?_
      · rcases getCell_stack hb (.root t.name) (server.geom t.name) with heq | ⟨hno, -⟩
        · exact heq
        · exact absurd (hproc.symm.trans hno) (by decide)
      · exact hproc₁.trans hproc
      · rw [getCell_count hb, hpage]
        change s.inFlight + s.queue.length + 1 =
          (enabledTrees (s.page.treesInfo.take (i + 1))).length
        have hone : (enabledTrees [some t]).length = 1 := by simp [enabledTrees, hon]
        rw [hcount, htake, List.length_append, hone, Nat.cast_add, Nat.cast_one]
      · rw [hpage]
        exact henabled
    · refine finishing_of_roots (i + 1) scope rfl hproc ?_ henabled
      change _ = ((enabledTrees (s.page.treesInfo.take (i + 1))).length : ℤ)
      have hzero : enabledTrees [some t] = [] := by simp [enabledTrees, hon]
      rw [htake, hzero, List.append_nil]
      exact hcount
  · refine finishing_of_roots (i + 1) scope rfl hproc ?_ henabled
    change _ = ((enabledTrees (s.page.treesInfo.take (i + 1))).length : ℤ)
    have hzero : enabledTrees [none] = [] := rfl
    rw [htake, hzero, List.append_nil]
    exact hcount

theorem processCell (h : s.Finishing) {rest : List Frame} (hstack : s.stack = .loop :: rest)
    (r : Ref) : (State.processCell { s with stack := .after :: rest } r).Finishing := by
  have henabled := h.enabledTrees_ne_nil hstack
  have hwell := h.stack
  rw [hstack] at hwell
  rcases processCell_cases { s with stack := .after :: rest } r with heq | ⟨heq, -⟩ | ⟨heq, -⟩
  · rw [heq]
    exact finishing_of_stack rfl hwell (by simp) henabled
  · rw [heq]
    exact finishing_of_stack rfl hwell (by simp) henabled
  · rw [heq]
    exact finishing_of_stack rfl (.cons _ _ _ hwell) (by simp) henabled

theorem processChild (h : s.Finishing) {r : Ref} {c : ChildNr} {scope : ℕ} {rest : List Frame}
    (hstack : s.stack = .children r c scope :: rest) :
    (State.processChild { s with stack := .children r (c + 1) scope :: rest } r scope c).Finishing := by
  have henabled := h.enabledTrees_ne_nil hstack
  have hwell := h.stack
  rw [hstack] at hwell
  have hwell' : WellStacked (.children r (c + 1) scope :: rest) := by
    cases hwell with
    | cons _ _ _ hrest => exact .cons r _ scope hrest
  unfold State.processChild
  split_ifs
  · set s₁ := setChildInFrustum { s with stack := .children r (c + 1) scope :: rest } scope
      (s.view.testChild (s.cells r) c)
    have hb : Callback.Bound s₁ (.child r scope) := trivial
    obtain ⟨hpage, -⟩ := getCell_frame hb ((s.cells r).id.child c)
      ((s.cells r).geometry.getChild c)
    have henabled' : enabledTrees (s₁.getCell ((s.cells r).id.child c)
        ((s.cells r).geometry.getChild c) (.child r scope)).page.treesInfo ≠ [] := by
      rw [hpage]
      exact henabled
    rcases getCell_stack hb ((s.cells r).id.child c) ((s.cells r).geometry.getChild c) with
      heq | ⟨-, -, heq⟩
    · exact finishing_of_stack heq hwell' (by simp) henabled'
    · exact finishing_of_stack heq hwell' (by simp) henabled'
  · exact finishing_of_stack rfl hwell' (by simp) henabled
  · exact finishing_of_stack rfl hwell' (by simp) henabled

/-- The end of a call of `processQueue`. -/
theorem giveResults (h : s.Finishing) {rest : List Frame} (hstack : s.stack = .loop :: rest) :
    (State.giveResults { s with stack := rest }).Finishing := by
  have henabled := h.enabledTrees_ne_nil hstack
  have hwell := h.stack
  rw [hstack] at hwell
  have hnested : Nested rest := hwell
  unfold State.giveResults
  by_cases hpos : s.inFlight > 0
  · rw [if_pos hpos]
    exact ⟨hnested.wellStacked, fun i scope hr => absurd hr (hnested.ne_roots i scope),
      fun _ hp => Bool.noConfusion hp, fun _ _ => .inr (.inr hpos), fun _ => henabled⟩
  · rw [if_neg hpos]
    exact ⟨hnested.wellStacked, fun i scope hr => absurd hr (hnested.ne_roots i scope),
      fun _ hp => Bool.noConfusion hp, fun _ _ => .inl trivial, fun _ => henabled⟩

theorem run (h : s.Finishing) {s' : State} (hs : s.run server = some s') : s'.Finishing := by
  have hwell := h.stack
  refine run_cases hs ?root ?start ?wait ?cell ?results ?chunk ?next ?child ?childrenEnd
  case root => exact fun i scope rest treeInfo hstack ht => h.getRoot hstack ht
  case start =>
    intro i scope rest hstack _ _
    have henabled := h.enabledTrees_ne_nil hstack
    rw [hstack] at hwell
    obtain rfl : rest = [] := hwell
    exact finishing_of_stack rfl Nested.nil (by simp) henabled
  case wait =>
    intro i scope rest hstack ht hqueue
    have henabled := h.enabledTrees_ne_nil hstack
    rw [hstack] at hwell
    obtain rfl : rest = [] := hwell
    -- no root is there yet, so that the enabled ones are in flight
    obtain ⟨-, hcount⟩ := h.roots i scope hstack
    rw [List.take_of_length_le (List.getElem?_eq_none_iff.mp ht), hqueue, List.length_nil,
      Nat.cast_zero, add_zero] at hcount
    have hpos := List.length_pos_of_ne_nil henabled
    exact ⟨trivial, fun _ _ h => absurd h (by simp), fun _ h => Bool.noConfusion h,
      fun _ _ => .inr (.inr (by change 0 < s.inFlight; omega)), fun _ => henabled⟩
  case cell => exact fun rest r hstack _ _ => h.processCell hstack r
  case results => exact fun rest hstack _ => h.giveResults hstack
  case chunk =>
    intro rest hstack _
    have henabled := h.enabledTrees_ne_nil hstack
    rw [hstack] at hwell
    have hnested : Nested rest := hwell
    exact ⟨hnested.wellStacked, fun i scope hr => absurd hr (hnested.ne_roots i scope),
      fun _ _ => by simp, fun _ _ => .inr (.inl (by simp)), fun _ => henabled⟩
  case next =>
    intro rest hstack
    have henabled := h.enabledTrees_ne_nil hstack
    rw [hstack] at hwell
    exact finishing_of_stack rfl hwell (by simp) henabled
  case child => exact fun r c scope rest hstack => h.processChild hstack
  case childrenEnd =>
    intro r c scope rest hstack _
    have henabled := h.enabledTrees_ne_nil hstack
    rw [hstack] at hwell
    cases hwell with
    | cons _ _ _ hrest => exact finishing_of_stack rfl hrest (by simp) henabled

theorem startQuery (haccounted : s.Accounted True 0) (hstack : s.stack = []) (id : ℤ)
    (henabled : enabledTrees s.page.treesInfo ≠ []) :
    (s.cancelPending.startQuery id).Finishing := by
  have hpending : s.cancelPending.inFlight = 0 ∧ s.cancelPending.page = s.page ∧
      s.cancelPending.stack = s.stack := by
    unfold State.cancelPending
    split_ifs with hpos
    · exact ⟨rfl, rfl, rfl⟩
    · obtain ⟨lost, heq, hexact⟩ := haccounted.inFlight_eq
      have hlost := hexact trivial
      exact ⟨by omega, rfl, rfl⟩
  obtain ⟨hzero, hpage, hstack'⟩ := hpending
  refine finishing_of_roots 0 s.cancelPending.newScope ?_ rfl ?_ ?_
  · rw [State.startQuery, hstack', hstack]
  · rw [State.startQuery, hzero]
    rfl
  · rw [State.startQuery, hpage]
    exact henabled

theorem onload (h : s.Finishing) (hstack : s.stack = []) {q : Request} (hq : q ∈ s.requests)
    (hb : q.callback.Bound s) : (s.onload server q).Finishing := by
  have henabled := h.enabled (.inr (.inr (List.ne_nil_of_mem hq)))
  have hb' : q.callback.Bound (s.answered server q) := by
    cases hc : q.callback <;> rw [hc] at hb <;> exact hb
  obtain ⟨calls, heq⟩ := loaded_eq hb' s.newCell
  rw [State.onload, heq]
  split_ifs with hproc
  · have hchunk := h.chunk hstack hproc
    refine ⟨?_, fun i scope hr => ?_, fun _ _ => hchunk, fun _ _ => .inr (.inl hchunk),
      fun _ => henabled⟩
    · change WellStacked s.stack
      rw [hstack]
      trivial
    · exact absurd (hstack.symm.trans hr) (by simp)
  · exact finishing_of_stack (congrArg (List.cons Frame.loop) hstack) Nested.nil (by simp) henabled

end Finishing

/-! ### Runs in which every request is answered with its cell -/

instance (s : State) : ∀ callback : Callback, Decidable (callback.Bound s)
  | .root scope => inferInstanceAs (Decidable ((s.treeInfo scope).isSome = true))
  | .child _ _ => inferInstanceAs (Decidable True)

/-- A query has a tree to ask for, and requests succeed and find the variables of their callbacks. -/
def Answers (s : State) : Event → Prop
  | .run => True
  | .getFrustum page => enabledTrees page.treesInfo ≠ []
  | .timer _ => True
  | .success xhr => ∀ q ∈ s.requests, q.xhr = xhr → q.callback.Bound s
  | .failure _ => False

instance (s : State) : ∀ e : Event, Decidable (s.Answers e)
  | .run => inferInstanceAs (Decidable True)
  | .getFrustum page => inferInstanceAs (Decidable (enabledTrees page.treesInfo ≠ []))
  | .timer _ => inferInstanceAs (Decidable True)
  | .success xhr => inferInstanceAs (Decidable (∀ q ∈ s.requests, q.xhr = xhr → q.callback.Bound s))
  | .failure _ => inferInstanceAs (Decidable False)

/-- The step does not lose a request. -/
def Fulfils (s : State) (e : Event) : Prop :=
  ∀ q ∈ s.requests, (e = .success q.xhr → q.callback.Bound s) ∧ e ≠ .failure q.xhr

theorem Answers.fulfils {s : State} {e : Event} (h : s.Answers e) : s.Fulfils e := by
  refine fun q hq => ⟨?_, ?_⟩
  · rintro rfl
    exact h q hq rfl
  · rintro rfl
    exact h

theorem Accounted.step {exact : Prop} {server : Server} {s s' : State} {e : Event}
    (h : s.Accounted exact 0) (hok : exact → s.Fulfils e) (hs : Web.step server e s = some s') :
    s'.Accounted exact 0 := by
  refine step_cases hs ?run ?getFrustum ?processQueue ?triggerFrustum ?success ?failure
  case run => exact fun _ hrun => h.run hrun
  case getFrustum =>
    rintro page - - rfl
    have hpage : ({ s with page := page, lastFrustumTriggerId := 0 } : State).Accounted exact 0 :=
      ⟨h.inFlight_eq, h.isOpen, h.stored⟩
    exact hpage.triggerFrustum 0
  case processQueue =>
    rintro i - - - rfl
    exact ⟨h.inFlight_eq, h.isOpen, h.stored⟩
  case triggerFrustum =>
    rintro i id - - - rfl
    have htimers : ({ s with timers := s.timers.eraseIdx i } : State).Accounted exact 0 :=
      ⟨h.inFlight_eq, h.isOpen, h.stored⟩
    exact htimers.triggerFrustum id
  case success =>
    rintro q hq rfl - rfl
    exact h.onload hq fun he => (hok he q hq).1 rfl
  case failure =>
    rintro q hq rfl - rfl
    exact h.onfailure hq fun he => (hok he q hq).2 rfl

theorem Finishing.step {server : Server} {s s' : State} {e : Event} (h : s.Finishing)
    (haccounted : s.Accounted True 0) (hok : s.Answers e) (hs : Web.step server e s = some s') :
    s'.Finishing := by
  refine step_cases hs ?run ?getFrustum ?processQueue ?triggerFrustum ?success ?failure
  case run => exact fun _ hrun => h.run hrun
  case getFrustum =>
    rintro page rfl hstack rfl
    have hpage : ({ s with page := page, lastFrustumTriggerId := 0 } : State).Accounted True 0 :=
      ⟨haccounted.inFlight_eq, haccounted.isOpen, haccounted.stored⟩
    rw [State.getFrustum, State.triggerFrustum, if_neg (by simp)]
    exact startQuery hpage hstack 0 hok
  case processQueue =>
    rintro i - hstack ht rfl
    have henabled := h.enabled (.inl (by rintro hnil; simp [hnil] at ht))
    exact finishing_of_stack (congrArg (List.cons Frame.loop) hstack) Nested.nil (by simp) henabled
  case triggerFrustum =>
    rintro i id - hstack ht rfl
    have henabled := h.enabled (.inl (by rintro hnil; simp [hnil] at ht))
    -- another timer stays
    have hkeep : Timer.processQueue ∈ s.timers → Timer.processQueue ∈ s.timers.eraseIdx i := by
      intro hmem
      obtain ⟨j, hj⟩ := List.mem_iff_getElem?.mp hmem
      refine List.mem_eraseIdx_iff_getElem?.mpr ⟨j, ?_, hj⟩
      rintro rfl
      exact absurd (hj.symm.trans ht) (by simp)
    rw [State.triggerFrustum]
    split_ifs
    · refine ⟨h.stack, h.roots, fun hrest hp => hkeep (h.chunk hrest hp), fun hrest hq => ?_,
        fun _ => henabled⟩
      rcases h.finished hrest hq with hfin | hmem | hpos
      · exact .inl hfin
      · exact .inr (.inl (hkeep hmem))
      · exact .inr (.inr hpos)
    · have htimers : ({ s with timers := s.timers.eraseIdx i } : State).Accounted True 0 :=
        ⟨haccounted.inFlight_eq, haccounted.isOpen, haccounted.stored⟩
      exact startQuery htimers hstack id henabled
  case success =>
    rintro q hq rfl hstack rfl
    exact h.onload hstack hq (hok q hq rfl)
  case failure =>
    rintro q - rfl - -
    exact hok.elim

theorem accounted_start (exact : Prop) (page : Page) : (State.start page).Accounted exact 0 :=
  ⟨⟨0, rfl, fun _ => rfl⟩, fun _ h => absurd h List.not_mem_nil, fun _ h =>
    absurd h List.not_mem_nil⟩

theorem finishing_start (page : Page) : (State.start page).Finishing :=
  ⟨trivial, fun _ _ h => absurd h (by simp [start]), fun _ h => Bool.noConfusion h,
    fun _ h => absurd h List.not_mem_nil, fun h => absurd h (by simp [start])⟩

/-- A page with these trees. -/
def samplePage (treesInfo : List (Option TreeInfo)) : Page where
  treesInfo := treesInfo
  desiredCellCount := 100
  minBoxSizeMeters := 1
  runOnCacheOnly := false
  frustumPlanes _ := 1
  cameraMatrix _ := 1
  gM := 1

/-- A query for the tree `a`, up to the request for its root. -/
def sampleQuery : List Event :=
  [.getFrustum (samplePage [some ⟨true, ['a'], false, fun _ => 0⟩]), .run, .run]

/-- A server with a single leaf in every tree. -/
def sampleServer : Server where
  maxSize := 10000
  files _ := [0]
  metadata _ := (fun _ => 0, 64)

end State

end MegaTree.Web
