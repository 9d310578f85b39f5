import MegaTree.Effect.Transition
import MegaTree.Web.CellObject

/-!
# The frustum querier

`FrustumQuerier` collects the cells that a view needs: it asks for the roots of the trees and then,
for every cell in its queue, for the children that are inside the frustum.  A cell from the cache is
there at once, in the middle of the loop that asks for it, and any other cell when its answer
arrives.

The state has the fields of the querier, the cell objects, the cache, the variables that callbacks
share with the function that made them, the requests that are in flight and the timers.  The
functions that are running are a stack of frames, so that a callback may call `processQueue` while
another call of it waits; the steps of `Event` are the steps of the function on top of the stack
and, while no function is running, calls of `getFrustum`, timers and answers of the server.
-/

namespace MegaTree.Web

open Effect

/-! ### The page -/

/-- `TreeInfo` -/
structure TreeInfo where
  enabled : Bool
  name : List Char
  overrideColor : Bool
  color : Vec

/-- What the page gets from elsewhere. -/
structure Server where
  /-- The number of cells in the cache. -/
  maxSize : ℕ
  /-- The files of the cells. -/
  files : CellId → ByteVec
  /-- `root_center` and `root_size` in the metadata of a tree. -/
  metadata : List Char → Vec × ℚ

/-- `tree_info.geom` -/
def Server.geom (server : Server) (name : List Char) : NodeGeometry :=
  getRootGeom (server.metadata name).1 (server.metadata name).2

/-- The variables of the page and the arguments of `getFrustum`. -/
structure Page where
  /-- `trees_info`; a tree that was removed is `null`. -/
  treesInfo : List (Option TreeInfo)
  desiredCellCount : ℚ
  minBoxSizeMeters : ℚ
  runOnCacheOnly : Bool
  frustumPlanes : ℕ → ℚ
  cameraMatrix : Fin 16 → ℚ
  gM : ℚ

/-! ### The state -/

/-- The success callback of a request.  It knows the variables of the call that made it. -/
inductive Callback
  /-- Of `triggerFrustum`: `tree_info` of the call with this number. -/
  | root (scope : ℕ)
  /-- Of `processCell(cell)`: `child_in_frustum` of the call with this number. -/
  | child (cell : Ref) (scope : ℕ)
deriving DecidableEq

/-- A request in flight. -/
structure Request where
  xhr : ℕ
  id : CellId
  geometry : NodeGeometry
  callback : Callback

inductive Timer
  | processQueue
  | triggerFrustum (id : ℤ)
deriving DecidableEq

/-- A function that is running. -/
inductive Frame
  /-- The loop of `triggerFrustum`, in front of tree `i`. -/
  | roots (i scope : ℕ)
  /-- `processQueue`, in front of its loop. -/
  | loop
  /-- `processQueue`, after its call of `processCell`. -/
  | after
  /-- The loop of `processCell(cell)`, in front of a child. -/
  | children (cell : Ref) (child scope : ℕ)

/-- What has happened. -/
inductive LogEntry
  | query
  | issued (xhr : ℕ)
  | succeeded (xhr : ℕ)
  | failed (xhr : ℕ)
  | cancel
  | progress (result : List CellObject)
  | finished (result : List CellObject)

/-- `FrustumQuerier`, and what is around it. -/
structure State where
  page : Page
  lastFrustumTriggerId : ℤ
  inFlight : ℤ
  resolutionCorrection : ℚ
  correctedGM : ℚ
  cellCount : ℚ
  completedFullFrustumQuery : Bool
  queue : List Ref
  queueIndex : ℕ
  storageRequests : List ℕ
  isProcessingQueue : Bool
  interruptFrustumQuery : Bool
  processCallsInARow : ℕ
  cells : Ref → CellObject
  newCell : Ref
  cellCache : List (CellId × Ref)
  /-- `tree_info` of each call of `triggerFrustum`. -/
  treeInfo : ℕ → Option TreeInfo
  /-- `child_in_frustum` of each call of `processCell`. -/
  childInFrustum : ℕ → ℤ
  newScope : ℕ
  requests : List Request
  newXhr : ℕ
  timers : List Timer
  stack : List Frame
  /-- The last event first. -/
  log : List LogEntry

/-- `resolution_step` -/
def resolutionStep : ℚ := 6 / 5

/-- A new page, without trees: a new querier and an empty cache. -/
def State.start (page : Page) : State where
  page := { page with treesInfo := [] }
  lastFrustumTriggerId := 0
  inFlight := 0
  resolutionCorrection := 1
  correctedGM := 0
  cellCount := page.desiredCellCount
  completedFullFrustumQuery := false
  queue := []
  queueIndex := 0
  storageRequests := []
  isProcessingQueue := false
  interruptFrustumQuery := false
  processCallsInARow := 0
  cells _ := .new (.root []) (.ofCenter 0 0) []
  newCell := 0
  cellCache := []
  treeInfo _ := none
  childInFrustum _ := 0
  newScope := 0
  requests := []
  newXhr := 0
  timers := []
  stack := []
  log := []

namespace State

variable (server : Server) (s : State)

/-- Change the object of a cell. -/
def modify (r : Ref) (f : CellObject → CellObject) : State :=
  { s with cells := Function.update s.cells r (f (s.cells r)) }

/-- Change an object, if there is one. -/
def modifyOption (r : Option Ref) (f : CellObject → CellObject) : State :=
  { s with
    cells := match r with
      | some r => Function.update s.cells r (f (s.cells r))
      | none => s.cells }

/-- What the running query looks at. -/
def view : View := ⟨s.page.cameraMatrix, s.page.frustumPlanes, s.correctedGM⟩

/-- `cancel()`: an aborted request is not answered. -/
def cancel : State :=
  { s with
    requests := s.requests.filter fun q => decide (q.xhr ∉ s.storageRequests)
    inFlight := 0
    log := .cancel :: s.log }

/-- Call `processQueue()`. -/
def processQueue : State := { s with processCallsInARow := 0, stack := .loop :: s.stack }

/-! ### Answers -/

/-- Put a cell into the queue. -/
def push (r : Ref) : State := { s with queue := s.queue ++ [r], inFlight := s.inFlight - 1 }

/-- The callback of `triggerFrustum`; without a `tree_info` it throws at its first line. -/
def rootLoaded (scope : ℕ) (childCell : Ref) : State :=
  match s.treeInfo scope with
  | none => s
  | some treeInfo =>
    let s := s.modify childCell fun c =>
      { c with overrideColor := if treeInfo.overrideColor then treeInfo.color else ![-1, -1, -1] }
    let s := s.push childCell
    if s.isProcessingQueue then s else s.processQueue

/-- The callback of `processCell(cell)`. -/
def childLoaded (cell : Ref) (scope : ℕ) (childCell : Ref) : State :=
  let s := s.modify childCell fun c =>
    { c with
      overrideColor := (s.cells cell).overrideColor
      parentCell := some cell
      insideFrustum := s.childInFrustum scope }
  let s := s.push childCell
  if s.isProcessingQueue then { s with processCallsInARow := s.processCallsInARow + 1 }
  else s.processQueue

/-- `successCallback(child_cell)` -/
def loaded (callback : Callback) (childCell : Ref) : State :=
  match callback with
  | .root scope => s.rootLoaded scope childCell
  | .child cell scope => s.childLoaded cell scope childCell

/-- `inFlight++`, and a request with a new number. -/
def issue : State :=
  { s with inFlight := s.inFlight + 1, newXhr := s.newXhr + 1, log := .issued s.newXhr :: s.log }

/-- A request that finds its cell in the cache. -/
def hit (id : CellId) : State :=
  { s.issue with
    cellCache := touch s.cellCache id
    log := .succeeded s.newXhr :: .issued s.newXhr :: s.log }

/-- A request to the server: `xhr.send()` and `storageRequests.push(xhr)`. -/
def send (id : CellId) (geometry : NodeGeometry) (callback : Callback) : State :=
  { s.issue with
    requests := s.requests ++ [⟨s.newXhr, id, geometry, callback⟩]
    storageRequests := s.storageRequests ++ [s.newXhr] }

/-- `inFlight++` and `getCell(..)`. -/
def getCell (id : CellId) (geometry : NodeGeometry) (callback : Callback) : State :=
  match s.cellCache.lookup id with
  | some fromCache => (s.hit id).loaded callback fromCache
  | none => if s.page.runOnCacheOnly then s.issue else s.send id geometry callback

/-! ### The loops -/

/-- There are too many cells: the query is interrupted, and a coarser one follows. -/
def interrupt : State :=
  { s.cancel with
    interruptFrustumQuery := true
    cellCount := s.cellCount + s.inFlight
    timers := s.timers ++ [.triggerFrustum (-1)] }

/-- Show all octants of a cell. -/
def showCell (r : Ref) : State := { s.modify r .showAll with cellCount := s.cellCount + 1 }

/-- Show all octants of a cell, and hide the octant of its parent that it fills. -/
def enter (r : Ref) : State :=
  (s.showCell r).modifyOption ((s.showCell r).cells r).parentCell fun parent =>
    parent.hide ((s.showCell r).cells r).id.whichChild

/-- Start the loop over the children of a cell. -/
def expand (r : Ref) : State :=
  { s with newScope := s.newScope + 1, stack := .children r 0 s.newScope :: s.stack }

/-- `processCell(cell)`, up to its loop over the children. -/
def processCell (r : Ref) : State :=
  if s.cellCount + s.inFlight > s.page.desiredCellCount * (3 / 2) then s.interrupt
  else if ((s.enter r).cells r).isLeaf then s.enter r
  else if s.view.smallEnough ((s.enter r).cells r) then s.enter r
  else (s.enter r).expand r

/-- Set `child_in_frustum`. -/
def setChildInFrustum (scope : ℕ) (inside : ℤ) : State :=
  { s with childInFrustum := Function.update s.childInFrustum scope inside }

/-- The loop of `processCell(cell)` for one child. -/
def processChild (r : Ref) (scope : ℕ) (child : ChildNr) : State :=
  if (s.cells r).hasChild child then
    if s.view.wants (s.cells r) child then
      (s.setChildInFrustum scope (s.view.testChild (s.cells r) child)).getCell
        ((s.cells r).id.child child) ((s.cells r).geometry.getChild child) (.child r scope)
    else
      (s.setChildInFrustum scope (s.view.testChild (s.cells r) child)).modify r (·.hide child)
  else s.modify r (·.hide child)

/-- The copies of the cells that the callbacks of a query get. -/
def result : List CellObject := s.queue.map s.cells

/-- A query with few cells is followed by a finer one. -/
def wantsMoreCells : Bool :=
  decide (s.cellCount < s.page.desiredCellCount / (3 / 2) ∧
    s.page.minBoxSizeMeters < s.correctedGM / resolutionStep)

/-- The end of `processQueue`: `progressCallback` or `finishedCallback`. -/
def giveResults : State :=
  if s.inFlight > 0 then { s with isProcessingQueue := false, log := .progress s.result :: s.log }
  else
    { s with
      isProcessingQueue := false
      timers := if s.wantsMoreCells then s.timers ++ [.triggerFrustum 1] else s.timers
      completedFullFrustumQuery := true
      log := .finished s.result :: s.log }

/-- `resolution_correction` for the next query. -/
def adaptResolution : ℚ :=
  let finer := s.resolutionCorrection / resolutionStep
  if s.cellCount > s.page.desiredCellCount * resolutionStep * (11 / 10) then
    s.resolutionCorrection * resolutionStep
  else if s.cellCount < s.page.desiredCellCount / resolutionStep / (11 / 10) ∧
      s.completedFullFrustumQuery then
    if s.page.minBoxSizeMeters > s.page.gM * finer then finer * resolutionStep else finer
  else s.resolutionCorrection

/-- Cancel all pending requests. -/
def cancelPending : State := if s.inFlight > 0 then s.cancel else s

/-- The state for the next query. -/
def startQuery (id : ℤ) : State :=
  { s with
    lastFrustumTriggerId := id
    resolutionCorrection := s.adaptResolution
    correctedGM := s.page.gM * s.adaptResolution
    completedFullFrustumQuery := false
    cellCount := 0
    queue := []
    queueIndex := 0
    storageRequests := []
    isProcessingQueue := true
    interruptFrustumQuery := false
    treeInfo := Function.update s.treeInfo s.newScope none
    newScope := s.newScope + 1
    stack := .roots 0 s.newScope :: s.stack
    log := .query :: s.log }

/-- `triggerFrustum(id)`, up to its loop over the trees. -/
def triggerFrustum (id : ℤ) : State :=
  if s.lastFrustumTriggerId ≠ 0 ∧ id ≠ s.lastFrustumTriggerId then s
  else s.cancelPending.startQuery id

/-- Set `tree_info`. -/
def setTreeInfo (scope : ℕ) (treeInfo : Option TreeInfo) : State :=
  { s with treeInfo := Function.update s.treeInfo scope treeInfo }

/-- The loop of `triggerFrustum` for one tree. -/
def getRoot (scope : ℕ) (treeInfo : Option TreeInfo) : State :=
  match treeInfo with
  | some t =>
    if t.enabled then
      (s.setTreeInfo scope treeInfo).getCell (.root t.name) (server.geom t.name) (.root scope)
    else s.setTreeInfo scope treeInfo
  | none => s.setTreeInfo scope treeInfo

/-- `getFrustum(..)`, when the variables of the page have these values. -/
def getFrustum (page : Page) : State :=
  triggerFrustum { s with page := page, lastFrustumTriggerId := 0 } 0

/-- A cell object for an answer, in the cache. -/
def answered (q : Request) : State :=
  { s with
    requests := s.requests.filter (·.xhr ≠ q.xhr)
    cells := Function.update s.cells s.newCell (.new q.id q.geometry (server.files q.id))
    newCell := s.newCell + 1
    cellCache := put server.maxSize s.cellCache q.id s.newCell
    log := .succeeded q.xhr :: s.log }

/-- `onload` with status 200. -/
def onload (q : Request) : State := (s.answered server q).loaded q.callback s.newCell

/-- `onload` with any other status. -/
def onfailure (q : Request) : State :=
  { s with requests := s.requests.filter (·.xhr ≠ q.xhr), log := .failed q.xhr :: s.log }

/-- One step of the function on top of the stack. -/
def run : Option State :=
  match s.stack with
  | [] => none
  | .roots i scope :: rest =>
    match s.page.treesInfo[i]? with
    | some treeInfo =>
      some (getRoot server { s with stack := .roots (i + 1) scope :: rest } scope treeInfo)
    | none =>
      if s.queue.length > 0 then some (processQueue { s with stack := rest })
      else some { s with isProcessingQueue := false, stack := rest }
  | .loop :: rest =>
    match s.queue[s.queueIndex]? with
    | some cell =>
      if s.interruptFrustumQuery then some (giveResults { s with stack := rest })
      else some (processCell { s with stack := .after :: rest } cell)
    | none => some (giveResults { s with stack := rest })
  | .after :: rest =>
    if s.processCallsInARow > 50 then
      some
        { s with
          queueIndex := s.queueIndex + 1
          timers := s.timers ++ [.processQueue]
          stack := rest }
    else some { s with queueIndex := s.queueIndex + 1, stack := .loop :: rest }
  | .children cell child scope :: rest =>
    if h : child < 8 then
      some (processChild { s with stack := .children cell (child + 1) scope :: rest } cell scope
        ⟨child, h⟩)
    else some { s with stack := rest }

end State

/-! ### What a callback does -/

/-- The callback has its variables. -/
def Callback.Bound (s : State) : Callback → Prop
  | .root scope => (s.treeInfo scope).isSome = true
  | .child _ _ => True

/-- A cell after the callback has set its fields. -/
def State.received (s : State) : Callback → CellObject → CellObject
  | .root scope, c =>
    { c with
      overrideColor := match s.treeInfo scope with
        | some treeInfo => if treeInfo.overrideColor then treeInfo.color else ![-1, -1, -1]
        | none => c.overrideColor }
  | .child cell scope, c =>
    { c with
      overrideColor := (s.cells cell).overrideColor
      parentCell := some cell
      insideFrustum := s.childInFrustum scope }

namespace State

variable {s : State}

/-- The callback puts the cell into the queue, and calls `processQueue` if no call of it waits. -/
theorem loaded_eq {callback : Callback} (h : callback.Bound s) (r : Ref) :
    ∃ calls, s.loaded callback r =
      if s.isProcessingQueue then
        { (s.modify r (s.received callback)).push r with processCallsInARow := calls }
      else ((s.modify r (s.received callback)).push r).processQueue := by
  cases callback with
  | root scope =>
    obtain ⟨t, ht⟩ := Option.isSome_iff_exists.mp h
    have hreceived : s.received (.root scope) = fun c =>
        { c with overrideColor := if t.overrideColor then t.color else ![-1, -1, -1] } := by
      funext c
      simp only [received, ht]
    refine ⟨s.processCallsInARow, ?_⟩
    rw [hreceived]
    simp only [loaded, rootLoaded, ht]
    rfl
  | child cell scope => exact ⟨s.processCallsInARow + 1, rfl⟩

/-- A callback that throws leaves everything as it is. -/
theorem loaded_of_not_bound {callback : Callback} (h : ¬ callback.Bound s) (r : Ref) :
    s.loaded callback r = s := by
  cases callback with
  | root scope =>
    have hnone : s.treeInfo scope = none := Option.not_isSome_iff_eq_none.mp h
    simp only [loaded, rootLoaded, hnone]
  | child cell scope => exact absurd trivial h

theorem bound_hit {callback : Callback} (h : callback.Bound s) (id : CellId) :
    callback.Bound (s.hit id) := by
  cases callback <;> exact h

/-- A request is answered by the cache, is sent, or is forgotten. -/
theorem getCell_cases (s : State) (id : CellId) (geometry : NodeGeometry) (callback : Callback) :
    (∃ r, s.cellCache.lookup id = some r ∧
      s.getCell id geometry callback = (s.hit id).loaded callback r) ∨
    (s.cellCache.lookup id = none ∧ s.getCell id geometry callback = s.send id geometry callback) ∨
    (s.cellCache.lookup id = none ∧ s.page.runOnCacheOnly = true ∧
      s.getCell id geometry callback = s.issue) := by
  unfold getCell
  split
  · next r hr => exact .inl ⟨r, hr, rfl⟩
  · next hr =>
    split_ifs with honly
    · exact .inr (.inr ⟨hr, honly, rfl⟩)
    · exact .inr (.inl ⟨hr, rfl⟩)

/-- A request adds a call of `processQueue` to the functions that are running, or none. -/
theorem getCell_stack {callback : Callback} (hb : callback.Bound s) (id : CellId)
    (geometry : NodeGeometry) :
    (s.getCell id geometry callback).stack = s.stack ∨
      s.isProcessingQueue = false ∧ (s.cellCache.lookup id).isSome = true ∧
        (s.getCell id geometry callback).stack = .loop :: s.stack := by
  rcases getCell_cases s id geometry callback with ⟨r, hr, h⟩ | ⟨-, h⟩ | ⟨-, -, h⟩
  · obtain ⟨calls, heq⟩ := loaded_eq (bound_hit hb id) r
    rw [h, heq]
    split_ifs with hproc
    · exact .inl rfl
    · exact .inr ⟨Bool.eq_false_iff.mpr hproc, by rw [hr]; rfl, rfl⟩
  · exact .inl (by rw [h]; rfl)
  · exact .inl (by rw [h]; rfl)

/-- A request changes only the object of its cell. -/
theorem cells_getCell {callback : Callback} (hb : callback.Bound s) (id : CellId)
    (geometry : NodeGeometry) {r : Ref} (hr : s.cellCache.lookup id ≠ some r) :
    (s.getCell id geometry callback).cells r = s.cells r := by
  rcases getCell_cases s id geometry callback with ⟨r', hr', h⟩ | ⟨-, h⟩ | ⟨-, -, h⟩
  · obtain ⟨calls, heq⟩ := loaded_eq (bound_hit hb id) r'
    have hne : r ≠ r' := by
      rintro rfl
      exact hr hr'
    rw [h, heq]
    split_ifs
    · exact Function.update_of_ne hne _ _
    · exact Function.update_of_ne hne _ _
  · rw [h]
    rfl
  · rw [h]
    rfl

/-- Every cell that was asked for is on its way or in the queue. -/
theorem getCell_count {callback : Callback} (hb : callback.Bound s) (id : CellId)
    (geometry : NodeGeometry) :
    (s.getCell id geometry callback).inFlight + (s.getCell id geometry callback).queue.length =
      s.inFlight + s.queue.length + 1 := by
  rcases getCell_cases s id geometry callback with ⟨r, -, h⟩ | ⟨-, h⟩ | ⟨-, -, h⟩
  · obtain ⟨calls, heq⟩ := loaded_eq (bound_hit hb id) r
    rw [h, heq]
    split_ifs <;>
    · simp only [push, processQueue, modify, hit, issue, List.length_append, List.length_singleton]
      push_cast
      ring
  · rw [h]
    simp only [send, issue]
    ring
  · rw [h]
    simp only [issue]
    ring

/-- What a callback does not change. -/
theorem loaded_frame {callback : Callback} (hb : callback.Bound s) (r : Ref) :
    (s.loaded callback r).page = s.page ∧
      (s.loaded callback r).isProcessingQueue = s.isProcessingQueue ∧
      (s.loaded callback r).queueIndex = s.queueIndex ∧
      (s.loaded callback r).interruptFrustumQuery = s.interruptFrustumQuery ∧
      (s.loaded callback r).cellCache = s.cellCache := by
  obtain ⟨calls, heq⟩ := loaded_eq hb r
  rw [heq]
  split_ifs
  · exact ⟨rfl, rfl, rfl, rfl, rfl⟩
  · exact ⟨rfl, rfl, rfl, rfl, rfl⟩

/-- What a request does not change. -/
theorem getCell_frame {callback : Callback} (hb : callback.Bound s) (id : CellId)
    (geometry : NodeGeometry) :
    (s.getCell id geometry callback).page = s.page ∧
      (s.getCell id geometry callback).isProcessingQueue = s.isProcessingQueue ∧
      (s.getCell id geometry callback).queueIndex = s.queueIndex ∧
      (s.getCell id geometry callback).interruptFrustumQuery = s.interruptFrustumQuery ∧
      ∀ id', (s.getCell id geometry callback).cellCache.lookup id' = s.cellCache.lookup id' := by
  rcases getCell_cases s id geometry callback with ⟨r, -, h⟩ | ⟨-, h⟩ | ⟨-, -, h⟩
  · obtain ⟨hpage, hproc, hindex, hint, hcache⟩ := loaded_frame (bound_hit hb id) r
    rw [h]
    exact ⟨hpage, hproc, hindex, hint, fun id' => by rw [hcache]; exact lookup_touch id'⟩
  · rw [h]
    exact ⟨rfl, rfl, rfl, rfl, fun _ => rfl⟩
  · rw [h]
    exact ⟨rfl, rfl, rfl, rfl, fun _ => rfl⟩

/-- A cell interrupts the query, is shown, or is shown and its children are looked at. -/
theorem processCell_cases (s : State) (r : Ref) :
    s.processCell r = s.interrupt ∨
    (s.processCell r = s.enter r ∧ (((s.enter r).cells r).isLeaf = true ∨
      s.view.smallEnough ((s.enter r).cells r) = true)) ∨
    (s.processCell r = (s.enter r).expand r ∧ ((s.enter r).cells r).isLeaf = false ∧
      s.view.smallEnough ((s.enter r).cells r) = false) := by
  unfold processCell
  split_ifs with _ hleaf hsmall
  · exact .inl rfl
  · exact .inr (.inl ⟨rfl, .inl hleaf⟩)
  · exact .inr (.inl ⟨rfl, .inr hsmall⟩)
  · exact .inr (.inr ⟨rfl, Bool.eq_false_iff.mpr hleaf, Bool.eq_false_iff.mpr hsmall⟩)

/-- What the function on top of the stack does next. -/
theorem run_cases {server : Server} {s' : State} (h : s.run server = some s') {P : State → Prop}
    (root : ∀ i scope rest treeInfo, s.stack = .roots i scope :: rest →
      s.page.treesInfo[i]? = some treeInfo →
      P (getRoot server { s with stack := .roots (i + 1) scope :: rest } scope treeInfo))
    (start : ∀ i scope rest, s.stack = .roots i scope :: rest → s.page.treesInfo[i]? = none →
      s.queue ≠ [] → P (processQueue { s with stack := rest }))
    (wait : ∀ i scope rest, s.stack = .roots i scope :: rest → s.page.treesInfo[i]? = none →
      s.queue = [] → P { s with isProcessingQueue := false, stack := rest })
    (cell : ∀ rest r, s.stack = .loop :: rest → s.queue[s.queueIndex]? = some r →
      s.interruptFrustumQuery = false → P (processCell { s with stack := .after :: rest } r))
    (results : ∀ rest, s.stack = .loop :: rest →
      s.interruptFrustumQuery = true ∨ s.queue[s.queueIndex]? = none →
      P (giveResults { s with stack := rest }))
    (chunk : ∀ rest, s.stack = .after :: rest → s.processCallsInARow > 50 →
      P
        { s with
          queueIndex := s.queueIndex + 1
          timers := s.timers ++ [.processQueue]
          stack := rest })
    (next : ∀ rest, s.stack = .after :: rest →
      P { s with queueIndex := s.queueIndex + 1, stack := .loop :: rest })
    (child : ∀ r (c : ChildNr) scope rest, s.stack = .children r c scope :: rest →
      P (processChild { s with stack := .children r (c + 1) scope :: rest } r scope c))
    (childrenEnd : ∀ r c scope rest, s.stack = .children r c scope :: rest → 8 ≤ c →
      P { s with stack := rest }) : P s' := by
  unfold run at h
  split at h
  · cases h
  · next i scope rest hstack =>
    split at h
    · next t ht =>
      obtain rfl := Option.some.inj h
      exact root i scope rest t hstack ht
    · next ht =>
      split_ifs at h with hqueue
      · obtain rfl := Option.some.inj h
        exact start i scope rest hstack ht (List.ne_nil_of_length_pos hqueue)
      · obtain rfl := Option.some.inj h
        exact wait i scope rest hstack ht (List.length_eq_zero_iff.mp (by omega))
  · next rest hstack =>
    split at h
    · next r hr =>
      split_ifs at h with hint
      · obtain rfl := Option.some.inj h
        exact results rest hstack (.inl hint)
      · obtain rfl := Option.some.inj h
        exact cell rest r hstack hr (Bool.eq_false_iff.mpr hint)
    · next hr =>
      obtain rfl := Option.some.inj h
      exact results rest hstack (.inr hr)
  · next rest hstack =>
    split_ifs at h with hcalls
    · obtain rfl := Option.some.inj h
      exact chunk rest hstack hcalls
    · obtain rfl := Option.some.inj h
      exact next rest hstack
  · next r c scope rest hstack =>
    split_ifs at h with hc
    · obtain rfl := Option.some.inj h
      exact child r ⟨c, hc⟩ scope rest hstack
    · obtain rfl := Option.some.inj h
      exact childrenEnd r c scope rest hstack (by omega)

end State

/-! ### Runs -/

inductive Event
  /-- The function on top of the stack goes on. -/
  | run
  | getFrustum (page : Page)
  /-- The timer with this number fires. -/
  | timer (i : ℕ)
  /-- The server answers the request with this number. -/
  | success (xhr : ℕ)
  /-- The server answers it with an error. -/
  | failure (xhr : ℕ)

/-- One step.  A function that runs is not interrupted. -/
def step (server : Server) (e : Event) (s : State) : Option State :=
  match e with
  | .run => s.run server
  | .getFrustum page => if s.stack.isEmpty then some (s.getFrustum page) else none
  | .timer i =>
    if s.stack.isEmpty then
      match s.timers[i]? with
      | some .processQueue => some (State.processQueue { s with timers := s.timers.eraseIdx i })
      | some (.triggerFrustum id) =>
        some (State.triggerFrustum { s with timers := s.timers.eraseIdx i } id)
      | none => none
    else none
  | .success xhr =>
    if s.stack.isEmpty then (s.requests.find? (·.xhr = xhr)).map (s.onload server) else none
  | .failure xhr =>
    if s.stack.isEmpty then (s.requests.find? (·.xhr = xhr)).map s.onfailure else none

/-- What a step is: one of a running function, or, while no function runs, one of the others. -/
theorem step_cases {server : Server} {e : Event} {s s' : State} (h : step server e s = some s')
    {P : Prop} (run : e = .run → s.run server = some s' → P)
    (getFrustum : ∀ page, e = .getFrustum page → s.stack = [] → s' = s.getFrustum page → P)
    (processQueue : ∀ i, e = .timer i → s.stack = [] → s.timers[i]? = some .processQueue →
      s' = State.processQueue { s with timers := s.timers.eraseIdx i } → P)
    (triggerFrustum : ∀ i id, e = .timer i → s.stack = [] →
      s.timers[i]? = some (.triggerFrustum id) →
      s' = State.triggerFrustum { s with timers := s.timers.eraseIdx i } id → P)
    (success : ∀ q ∈ s.requests, e = .success q.xhr → s.stack = [] → s' = s.onload server q → P)
    (failure : ∀ q ∈ s.requests, e = .failure q.xhr → s.stack = [] → s' = s.onfailure q → P) :
    P := by
  unfold step at h
  have found : ∀ {xhr q}, s.requests.find? (·.xhr = xhr) = some q → q ∈ s.requests ∧ q.xhr = xhr :=
    fun hq => ⟨List.mem_of_find?_eq_some hq, by simpa using List.find?_some hq⟩
  split at h
  · exact run rfl h
  · next page =>
    split_ifs at h with hstack
    exact getFrustum page rfl (List.isEmpty_iff.mp hstack) (Option.some.inj h).symm
  · next i =>
    split_ifs at h with hstack
    split at h
    · next ht =>
      exact processQueue i rfl (List.isEmpty_iff.mp hstack) ht (Option.some.inj h).symm
    · next id ht =>
      exact triggerFrustum i id rfl (List.isEmpty_iff.mp hstack) ht (Option.some.inj h).symm
    · cases h
  · next xhr =>
    split_ifs at h with hstack
    obtain ⟨q, hq, hs⟩ := Option.map_eq_some_iff.mp h
    obtain ⟨hmem, rfl⟩ := found hq
    exact success q hmem rfl (List.isEmpty_iff.mp hstack) hs.symm
  · next xhr =>
    split_ifs at h with hstack
    obtain ⟨q, hq, hs⟩ := Option.map_eq_some_iff.mp h
    obtain ⟨hmem, rfl⟩ := found hq
    exact failure q hmem rfl (List.isEmpty_iff.mp hstack) hs.symm

end MegaTree.Web
