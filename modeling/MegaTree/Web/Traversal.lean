import MegaTree.Web.Accounting
import MegaTree.Web.Objects

/-!
# The traversal of a query

How an uninterrupted query goes through the trees.  `Core` is the part of the state that says which
cells a query has and what it has set in them, `Progress` how far it is, and `Advance` lists what a
step does to both.

A callback that comes while the querier waits for the server calls `processQueue`.  If that finds a
child of its first cell in the cache, the callback of the child calls `processQueue` again, which
starts with the same cell: `Reentered`.  It ends only when the query is interrupted.

* `Reentered.run` : that is where it stays.
* `Flat.run`, `Flat.step` : a step interrupts the query, enters such a loop, or is an `Advance`.
-/

namespace MegaTree.Web

open Effect

/-- What a query has done so far. -/
structure Progress where
  /-- The number of trees that were asked for. -/
  trees : ℕ
  /-- The cells of the queue that are processed. -/
  done : List Ref
  /-- The cell that is being processed, and the number of its children that were looked at. -/
  current : Option (Ref × ℕ)
  /-- The rest of the queue. -/
  todo : List Ref
  /-- The number of the last call of `processCell`. -/
  scope : ℕ

namespace Progress

variable (p : Progress)

/-- The progress of a query that begins. -/
def start (scope : ℕ) : Progress := ⟨0, [], none, [], scope⟩

/-- The cells that are processed or being processed. -/
def begun : List Ref := p.done ++ (p.current.map Prod.fst).toList

/-- A child of a cell was looked at. -/
def Dealt (r : Ref) (k : ChildNr) : Prop := r ∈ p.done ∨ ∃ n, p.current = some (r, n) ∧ k.val < n

end Progress

/-- The part of the state that the steps of a query change. -/
structure Core where
  view : View
  treesInfo : List (Option TreeInfo)
  cells : Ref → CellObject
  queue : List Ref
  requests : List Request
  childInFrustum : ℕ → ℤ

namespace Core

variable (c : Core)

/-- The cells that were asked for and did not fail. -/
def asked : List CellId := c.queue.map (fun r => (c.cells r).id) ++ c.requests.map Request.id

/-- Hide an octant of an object, if there is one. -/
def hideIn (cells : Ref → CellObject) (r : Option Ref) (k : ChildNr) : Ref → CellObject :=
  match r with
  | some r => Function.update cells r ((cells r).hide k)
  | none => cells

/-- Show all octants of an object. -/
def shown (r : Ref) : Ref → CellObject := Function.update c.cells r (c.cells r).showAll

/-- The cells after `r` is shown, and hides an octant of its parent. -/
def entered (r : Ref) : Ref → CellObject :=
  hideIn (c.shown r) (c.shown r r).parentCell (c.shown r r).id.whichChild

/-- A cell after a callback has set its fields. -/
def receive (color : Vec) : Callback → CellObject → CellObject
  | .root _, cell => { cell with overrideColor := color }
  | .child r scope, cell =>
    { cell with
      overrideColor := color
      parentCell := some r
      insideFrustum := c.childInFrustum scope }

end Core

/-- A cell that the query asks for next, the callback for it, `child_in_frustum` and the progress
afterwards. -/
inductive Wish (c : Core) (p : Progress) : CellId → Callback → (ℕ → ℤ) → Progress → Prop
  | root (t : TreeInfo) (scope : ℕ) : c.treesInfo[p.trees]? = some (some t) → t.enabled = true →
      p.done = [] → p.current = none →
      Wish c p (.root t.name) (.root scope) c.childInFrustum { p with trees := p.trees + 1 }
  | child (r : Ref) (k : ChildNr) : p.current = some (r, k.val) → c.view.Expands (c.cells r) →
      (c.cells r).hasChild k = true → c.view.wants (c.cells r) k = true →
      Wish c p ((c.cells r).id.child k) (.child r p.scope)
        (Function.update c.childInFrustum p.scope (c.view.testChild (c.cells r) k))
        { p with current := some (r, k.val + 1) }

/-- The last child of a cell among the first ones. -/
def lastChild (cell : CellObject) : ℕ → Option ChildNr
  | 0 => none
  | n + 1 =>
    if h : n < 8 then if cell.hasChild ⟨n, h⟩ then some ⟨n, h⟩ else lastChild cell n
    else lastChild cell n

/-- The callback of a child would find the right value in `child_in_frustum` also later, when the
loop has gone on to the last child. -/
def Core.Steady (c : Core) (id : CellId) : Callback → Prop
  | .root _ => True
  | .child r _ => ∀ k last, id = (c.cells r).id.child k → lastChild (c.cells r) 8 = some last →
      c.view.testChild (c.cells r) last = c.view.testChild (c.cells r) k

/-- What a step of an uninterrupted query does.  In an `exact` run every request succeeds, and
callbacks that come later find the right values. -/
inductive Advance (exact : Prop) (server : Server) (c : Core) (p : Progress) :
    Core → Progress → Prop
  | same : Advance exact server c p c p
  | next (r : Ref) : p.current = some (r, 8) →
      Advance exact server c p c { p with done := p.done ++ [r], current := none }
  | enter (r : Ref) (todo : List Ref) (n scope : ℕ) : p.current = none → p.todo = r :: todo →
      (n = 0 ∧ c.view.Expands (c.cells r) ∨ n = 8 ∧ ¬ c.view.Expands (c.cells r)) →
      (∀ q ∈ c.requests, ∀ r' scope', q.callback = .child r' scope' → scope' ≠ scope) →
      Advance exact server c p { c with cells := c.entered r }
        { p with current := some (r, n), todo := todo, scope := scope }
  | skip (r : Ref) (k : ChildNr) (childInFrustum : ℕ → ℤ) : p.current = some (r, k.val) →
      c.view.Expands (c.cells r) →
      ((c.cells r).hasChild k = true → c.view.wants (c.cells r) k = false ∧ childInFrustum =
        Function.update c.childInFrustum p.scope (c.view.testChild (c.cells r) k)) →
      ((c.cells r).hasChild k = false → childInFrustum = c.childInFrustum) →
      Advance exact server c p
        { c with
          cells := Function.update c.cells r ((c.cells r).hide k)
          childInFrustum := childInFrustum }
        { p with current := some (r, k.val + 1) }
  | skipRoot (treeInfo : Option TreeInfo) : c.treesInfo[p.trees]? = some treeInfo →
      treeInfo.any (·.enabled) = false →
      Advance exact server c p c { p with trees := p.trees + 1 }
  | sent {id : CellId} {callback : Callback} {childInFrustum : ℕ → ℤ} {p' : Progress} (xhr : ℕ) :
      Wish c p id callback childInFrustum p' → (exact → c.Steady id callback) →
      Advance exact server c p
        { c with
          requests := c.requests ++ [⟨xhr, id, server.cellGeom id, callback⟩]
          childInFrustum := childInFrustum } p'
  | hit {id : CellId} {callback : Callback} {childInFrustum : ℕ → ℤ} {p' : Progress} (r : Ref)
      (color : Vec) : Wish c p id callback childInFrustum p' → (c.cells r).id = id →
      (id.path = [] → (c.cells r).parentCell = none ∧ (c.cells r).insideFrustum = -1) →
      Advance exact server c p
        { c with
          cells := Function.update c.cells r
            ({ c with childInFrustum := childInFrustum }.receive color callback (c.cells r))
          queue := c.queue ++ [r]
          childInFrustum := childInFrustum }
        { p' with todo := p'.todo ++ [r] }
  | lost {id : CellId} {callback : Callback} {childInFrustum : ℕ → ℤ} {p' : Progress} : ¬ exact →
      Wish c p id callback childInFrustum p' →
      Advance exact server c p { c with childInFrustum := childInFrustum } p'
  | arrive (q : Request) (r : Ref) (color : Vec) : q ∈ c.requests →
      (∀ q' ∈ c.requests, q'.xhr = q.xhr → q' = q) → r ∉ c.queue → p.current = none →
      Advance exact server c p
        { c with
          cells := Function.update c.cells r
            (c.receive color q.callback (.new q.id q.geometry (server.files q.id)))
          queue := c.queue ++ [r]
          requests := c.requests.filter (·.xhr ≠ q.xhr) }
        { p with todo := p.todo ++ [r] }
  | drop (q : Request) (cells : Ref → CellObject) : ¬ exact → p.current = none →
      (∀ r ∈ c.queue, cells r = c.cells r) →
      Advance exact server c p
        { c with cells := cells, requests := c.requests.filter (·.xhr ≠ q.xhr) } p

/-- A query keeps its trees. -/
theorem Advance.treesInfo {exact : Prop} {server : Server} {c c' : Core} {p p' : Progress}
    (h : Advance exact server c p c' p') : c'.treesInfo = c.treesInfo := by
  cases h <;> rfl

namespace State

/-- The part of the state that a query changes. -/
def core (s : State) : Core where
  view := s.view
  treesInfo := s.page.treesInfo
  cells := s.cells
  queue := s.queue
  requests := s.requests
  childInFrustum := s.childInFrustum

variable {server : Server} {s : State}

theorem alike_hideIn (cells : Ref → CellObject) (r : Option Ref) (k : ChildNr) (r' : Ref) :
    Alike (Core.hideIn cells r k r') (cells r') := by
  cases r with
  | none => exact .refl _
  | some r => exact (Alike.hide _ _).update r'

theorem alike_entered (c : Core) (r r' : Ref) : Alike (c.entered r r') (c.cells r') :=
  (alike_hideIn _ _ _ r').trans ((Alike.showAll _).update r')

theorem core_enter (s : State) (r : Ref) :
    (s.enter r).core = { s.core with cells := s.core.entered r } := by
  have hcells : (s.enter r).cells = s.core.entered r := by
    rw [Core.entered, Core.hideIn.eq_def]
    rfl
  rw [core, hcells]
  rfl

/-- The core after a callback. -/
theorem core_loaded {callback : Callback} (hb : callback.Bound s) (r : Ref) :
    ∃ color, (s.loaded callback r).core =
      { s.core with
        cells := Function.update s.cells r (s.core.receive color callback (s.cells r))
        queue := s.queue ++ [r] } := by
  obtain ⟨calls, heq⟩ := loaded_eq hb r
  have hcolor : ∃ color, s.received callback (s.cells r) =
      s.core.receive color callback (s.cells r) := by
    cases callback with
    | root scope => exact ⟨_, rfl⟩
    | child cell scope => exact ⟨_, rfl⟩
  obtain ⟨color, hcolor⟩ := hcolor
  refine ⟨color, ?_⟩
  rw [heq, ← hcolor]
  split_ifs
  · rfl
  · rfl

/-- `processQueue` waits in a callback for another call of it, which processes the same cell. -/
structure Reentered (s : State) (r : Ref) (k : ChildNr) : Prop where
  waits : s.isProcessingQueue = false
  cell : s.queue[s.queueIndex]? = some r
  expands : s.view.Expands (s.cells r)
  hasChild : (s.cells r).hasChild k = true
  wants : s.view.wants (s.cells r) k = true
  cached : (s.cellCache.lookup ((s.cells r).id.child k)).isSome = true
  stack : (∃ rest, s.stack = .loop :: rest) ∨
    ∃ n scope rest, n ≤ k.val ∧ s.stack = .children r n scope :: .after :: rest

/-- Which functions run while a query is not interrupted. -/
inductive Phase (s : State) (p : Progress) : Prop
  | rest : s.stack = [] → p.current = none → s.page.treesInfo.length ≤ p.trees → Phase s p
  | loop : s.stack = [.loop] → p.current = none → s.page.treesInfo.length ≤ p.trees → Phase s p
  | roots (scope : ℕ) : s.stack = [.roots p.trees scope] → p.current = none → p.done = [] →
      s.isProcessingQueue = true → Phase s p
  | after (r : Ref) : s.stack = [.after] → p.current = some (r, 8) →
      s.page.treesInfo.length ≤ p.trees → Phase s p
  | children (r : Ref) (n : ℕ) : s.stack = [.children r n p.scope, .after] →
      p.current = some (r, n) → n ≤ 8 → s.view.Expands (s.cells r) →
      s.page.treesInfo.length ≤ p.trees → Phase s p

/-- The queue and the functions that run fit the progress of the query. -/
structure Flat (s : State) (p : Progress) : Prop where
  queue : s.queue = p.begun ++ p.todo
  index : s.queueIndex = p.done.length
  phase : Phase s p

/-- What the function on top of the stack says about the progress. -/
def Top (s : State) (p : Progress) (rest : List Frame) : Frame → Prop
  | .roots i _ => i = p.trees ∧ rest = [] ∧ p.current = none ∧ p.done = [] ∧
      s.isProcessingQueue = true
  | .loop => rest = [] ∧ p.current = none ∧ s.page.treesInfo.length ≤ p.trees
  | .after => rest = [] ∧ (∃ r, p.current = some (r, 8)) ∧ s.page.treesInfo.length ≤ p.trees
  | .children r n scope => scope = p.scope ∧ rest = [.after] ∧ p.current = some (r, n) ∧ n ≤ 8 ∧
      s.view.Expands (s.cells r) ∧ s.page.treesInfo.length ≤ p.trees

theorem Flat.top {p : Progress} (h : s.Flat p) {f : Frame} {rest : List Frame}
    (hstack : s.stack = f :: rest) : s.Top p rest f := by
  cases h.phase with
  | rest hst => exact absurd (hst.symm.trans hstack) (List.cons_ne_nil _ _).symm
  | loop hst hcur hall =>
    obtain ⟨rfl, rfl⟩ := List.cons.inj (hst.symm.trans hstack)
    exact ⟨rfl, hcur, hall⟩
  | roots scope hst hcur hdone hproc =>
    obtain ⟨rfl, rfl⟩ := List.cons.inj (hst.symm.trans hstack)
    exact ⟨rfl, rfl, hcur, hdone, hproc⟩
  | after r hst hcur hall =>
    obtain ⟨rfl, rfl⟩ := List.cons.inj (hst.symm.trans hstack)
    exact ⟨rfl, ⟨r, hcur⟩, hall⟩
  | children r n hst hcur hn hexpands hall =>
    obtain ⟨rfl, rfl⟩ := List.cons.inj (hst.symm.trans hstack)
    exact ⟨rfl, rfl, hcur, hn, hexpands, hall⟩

/-- Nothing runs. -/
theorem Flat.idle {p : Progress} (h : s.Flat p) (hstack : s.stack = []) :
    p.current = none ∧ s.page.treesInfo.length ≤ p.trees := by
  cases h.phase with
  | rest _ hcur hall => exact ⟨hcur, hall⟩
  | loop hst => exact absurd (hst.symm.trans hstack) (List.cons_ne_nil _ _)
  | roots scope hst => exact absurd (hst.symm.trans hstack) (List.cons_ne_nil _ _)
  | after r hst => exact absurd (hst.symm.trans hstack) (List.cons_ne_nil _ _)
  | children r n hst => exact absurd (hst.symm.trans hstack) (List.cons_ne_nil _ _)

theorem Reentered.of_alike {t : State} {r : Ref} {k : ChildNr} (h : s.Reentered r k)
    (hproc : t.isProcessingQueue = s.isProcessingQueue) (hcell : t.queue[t.queueIndex]? = some r)
    (hview : t.view = s.view) (halike : Alike (t.cells r) (s.cells r))
    (hcache : ∀ id, t.cellCache.lookup id = s.cellCache.lookup id)
    (hstack : (∃ rest, t.stack = .loop :: rest) ∨
      ∃ n scope rest, n ≤ k.val ∧ t.stack = .children r n scope :: .after :: rest) :
    t.Reentered r k where
  waits := hproc.trans h.waits
  cell := hcell
  expands := by
    rw [hview, halike.expands]
    exact h.expands
  hasChild := (halike.hasChild k).trans h.hasChild
  wants := by
    rw [hview, halike.wants]
    exact h.wants
  cached := by
    rw [hcache, halike.id]
    exact h.cached
  stack := hstack

/-- A child that is in the cache is put into the queue in the middle of the loop. -/
theorem Reentered.processChild {r : Ref} {k c : ChildNr} {scope : ℕ} {rest : List Frame}
    (h : s.Reentered r k) (hsound : s.Sound server) (hcn : c.val ≤ k.val) :
    (State.processChild { s with stack := .children r (c + 1) scope :: .after :: rest } r scope
      c).Reentered r k := by
  set t : State := { s with stack := .children r (c + 1) scope :: .after :: rest }
  -- a child in front of `k` is not `k`
  have hnext : c ≠ k → ∃ n scope' rest', n ≤ k.val ∧
      t.stack = .children r n scope' :: .after :: rest' := fun hne => by
    have := Fin.val_ne_of_ne hne
    exact ⟨c + 1, scope, rest, by omega, rfl⟩
  have hhide : Alike (Function.update s.cells r ((s.cells r).hide c) r) (s.cells r) :=
    (Alike.hide _ c).update r
  unfold State.processChild
  split_ifs with hhas hwants
  · set t' := t.setChildInFrustum scope (t.view.testChild (t.cells r) c)
    have hmiss : t'.cellCache.lookup ((s.cells r).id.child c) = none → c ≠ k := by
      rintro hnone rfl
      have hcached := h.cached
      rw [show s.cellCache.lookup _ = none from hnone] at hcached
      cases hcached
    rcases getCell_cases t' ((s.cells r).id.child c) ((s.cells r).geometry.getChild c)
      (.child r scope) with ⟨r₂, hr₂, heq⟩ | ⟨hnone, heq⟩ | ⟨hnone, -, heq⟩
    · obtain ⟨calls, hloaded⟩ := loaded_eq (s := t'.hit ((s.cells r).id.child c))
        (show Callback.Bound _ (.child r scope) from trivial) r₂
      have hwait : (t'.hit ((s.cells r).id.child c)).isProcessingQueue = false := h.waits
      rw [hwait, if_neg (by decide)] at hloaded
      have hne : r ≠ r₂ := by
        rintro rfl
        exact CellId.child_ne _ c (hsound.cached _ (mem_of_lookup hr₂)).2.symm
      change (t'.getCell _ _ _).Reentered r k
      rw [heq, hloaded]
      refine h.of_alike rfl ?_ rfl ?_ lookup_touch (.inl ⟨_, rfl⟩)
      · obtain ⟨hlt, -⟩ := List.getElem?_eq_some_iff.mp h.cell
        exact (List.getElem?_append_left hlt).trans h.cell
      · change Alike (Function.update s.cells r₂ _ r) (s.cells r)
        rw [Function.update_of_ne hne]
        exact .refl _
    · change (t'.getCell _ _ _).Reentered r k
      rw [heq]
      exact h.of_alike rfl h.cell rfl (.refl _) (fun _ => rfl) (.inr (hnext (hmiss hnone)))
    · change (t'.getCell _ _ _).Reentered r k
      rw [heq]
      exact h.of_alike rfl h.cell rfl (.refl _) (fun _ => rfl) (.inr (hnext (hmiss hnone)))
  · refine h.of_alike rfl h.cell rfl hhide (fun _ => rfl) (.inr (hnext ?_))
    rintro rfl
    exact hwants h.wants
  · refine h.of_alike rfl h.cell rfl hhide (fun _ => rfl) (.inr (hnext ?_))
    rintro rfl
    exact hhas h.hasChild

theorem Reentered.run {r : Ref} {k : ChildNr} (h : s.Reentered r k) (hsound : s.Sound server)
    (hint : s.interruptFrustumQuery = false) {s' : State} (hs : s.run server = some s') :
    s'.interruptFrustumQuery = true ∨ s'.Reentered r k := by
  -- the top frame is a loop, or that of the children of the cell that is entered again
  have hframe : ∀ {f : Frame} {rest : List Frame}, s.stack = f :: rest →
      f = .loop ∨
        ∃ n scope rest', n ≤ k.val ∧ f = .children r n scope ∧ rest = .after :: rest' := by
    intro f rest hstack
    rcases h.stack with ⟨rest', hloop⟩ | ⟨n, scope, rest', hn, hchildren⟩
    · exact .inl (List.cons.inj (hstack.symm.trans hloop)).1
    · obtain ⟨rfl, rfl⟩ := List.cons.inj (hstack.symm.trans hchildren)
      exact .inr ⟨n, scope, rest', hn, rfl, rfl⟩
  refine run_cases (P := fun s' => s'.interruptFrustumQuery = true ∨ s'.Reentered r k) hs
    ?root ?start ?wait ?cell ?results ?chunk ?next ?child ?childrenEnd
  case root =>
    intro i scope rest t hstack
    simpa using hframe hstack
  case start =>
    intro i scope rest hstack
    simpa using hframe hstack
  case wait =>
    intro i scope rest hstack
    simpa using hframe hstack
  case cell =>
    intro rest r' hstack hr' _
    obtain rfl : r = r' := Option.some.inj (h.cell.symm.trans hr')
    -- the next cell of the loop is the one whose child is missing: it is processed again
    set t : State := { s with stack := .after :: rest }
    have halike : Alike ((t.enter r).cells r) (s.cells r) := by
      rw [show (t.enter r).cells = t.core.entered r from congrArg Core.cells (core_enter t r)]
      exact alike_entered t.core r r
    have hexpands : s.view.Expands ((t.enter r).cells r) := halike.expands.mpr h.expands
    rcases processCell_cases t r with heq | ⟨heq, hleaf | hsmall⟩ | ⟨heq, -⟩
    · rw [heq]
      exact .inl rfl
    · rw [hexpands.1] at hleaf
      cases hleaf
    · rw [show t.view.smallEnough _ = false from hexpands.2] at hsmall
      cases hsmall
    · rw [heq]
      refine .inr ⟨h.waits, h.cell, hexpands, ?_, ?_, ?_, .inr ⟨0, _, rest, Nat.zero_le _, rfl⟩⟩
      · rw [show ((t.enter r).expand r).cells r = (t.enter r).cells r from rfl, halike.hasChild]
        exact h.hasChild
      · exact (halike.wants k).trans h.wants
      · change (s.cellCache.lookup (((t.enter r).cells r).id.child k)).isSome = true
        rw [halike.id]
        exact h.cached
  -- the loop cannot end before that cell
  case results =>
    rintro rest hstack (hyes | hnone)
    · rw [hint] at hyes
      cases hyes
    · rw [h.cell] at hnone
      cases hnone
  case chunk =>
    intro rest hstack
    simpa using hframe hstack
  case next =>
    intro rest hstack
    simpa using hframe hstack
  case child =>
    intro r' c scope rest hstack
    rcases hframe hstack with hloop | ⟨n, scope', rest', hn, hchildren, rfl⟩
    · cases hloop
    -- the children before the missing one are dealt with
    · obtain ⟨rfl, rfl, rfl⟩ := Frame.children.inj hchildren
      exact .inr (h.processChild hsound hn)
  case childrenEnd =>
    intro r' n scope rest hstack hn
    rcases hframe hstack with hloop | ⟨n', scope', rest', hn', hchildren, rfl⟩
    · cases hloop
    · obtain ⟨rfl, rfl, rfl⟩ := Frame.children.inj hchildren
      omega

/-! ### The steps of an uninterrupted query -/

/-- The cell that the next step asks for, and its callback. -/
def asks (s : State) : Option (CellId × Callback) :=
  match s.stack with
  | .roots i scope :: _ =>
    match s.page.treesInfo[i]? with
    | some (some t) => if t.enabled then some (.root t.name, .root scope) else none
    | _ => none
  | .children r child scope :: _ =>
    if h : child < 8 then
      if (s.cells r).hasChild ⟨child, h⟩ ∧ s.view.wants (s.cells r) ⟨child, h⟩ then
        some ((s.cells r).id.child ⟨child, h⟩, .child r scope)
      else none
    else none
  | _ => none

/-- The server answers the requests, and the callbacks find their variables. -/
def Succeeds (s : State) : Event → Prop
  | .run => ∀ x ∈ s.asks, s.cellCache.lookup x.1 = none → s.page.runOnCacheOnly = false
  | .getFrustum _ => True
  | .timer _ => True
  | .success xhr => ∀ q ∈ s.requests, q.xhr = xhr → q.callback.Bound s
  | .failure _ => False

/-- The callback of a request to the server finds the right value in `child_in_frustum`. -/
def KeepsValue (s : State) : Event → Prop
  | .run => ∀ x ∈ s.asks, s.cellCache.lookup x.1 = none → s.core.Steady x.1 x.2
  | .getFrustum _ => True
  | .timer _ => True
  | .success _ => True
  | .failure _ => True

/-- A request is answered, and its callback finds the right values. -/
def Delivers (s : State) (e : Event) : Prop := s.Succeeds e ∧ s.KeepsValue e

instance (c : Core) (id : CellId) : ∀ callback : Callback, Decidable (c.Steady id callback)
  | .root _ => inferInstanceAs (Decidable True)
  | .child r _ => inferInstanceAs (Decidable (∀ k last, id = (c.cells r).id.child k →
      lastChild (c.cells r) 8 = some last →
      c.view.testChild (c.cells r) last = c.view.testChild (c.cells r) k))

instance (s : State) : ∀ e : Event, Decidable (s.Succeeds e)
  | .run => inferInstanceAs (Decidable (∀ x ∈ s.asks, s.cellCache.lookup x.1 = none →
      s.page.runOnCacheOnly = false))
  | .getFrustum _ => inferInstanceAs (Decidable True)
  | .timer _ => inferInstanceAs (Decidable True)
  | .success xhr => inferInstanceAs (Decidable (∀ q ∈ s.requests, q.xhr = xhr → q.callback.Bound s))
  | .failure _ => inferInstanceAs (Decidable False)

instance (s : State) : ∀ e : Event, Decidable (s.KeepsValue e)
  | .run => inferInstanceAs (Decidable (∀ x ∈ s.asks, s.cellCache.lookup x.1 = none →
      s.core.Steady x.1 x.2))
  | .getFrustum _ => inferInstanceAs (Decidable True)
  | .timer _ => inferInstanceAs (Decidable True)
  | .success _ => inferInstanceAs (Decidable True)
  | .failure _ => inferInstanceAs (Decidable True)

instance (s : State) (e : Event) : Decidable (s.Delivers e) :=
  inferInstanceAs (Decidable (s.Succeeds e ∧ s.KeepsValue e))

theorem Succeeds.fulfils {e : Event} (h : s.Succeeds e) : s.Fulfils e := by
  refine fun q hq => ⟨?_, ?_⟩
  · rintro rfl
    exact h q hq rfl
  · rintro rfl
    exact h

theorem core_getCell {callback : Callback} (hb : callback.Bound s) (id : CellId)
    (geometry : NodeGeometry) :
    (∃ r color, s.cellCache.lookup id = some r ∧ (s.getCell id geometry callback).core =
      { s.core with
        cells := Function.update s.cells r (s.core.receive color callback (s.cells r))
        queue := s.queue ++ [r] }) ∨
    (s.cellCache.lookup id = none ∧ (s.getCell id geometry callback).core =
      { s.core with requests := s.requests ++ [⟨s.newXhr, id, geometry, callback⟩] }) ∨
    (s.cellCache.lookup id = none ∧ s.page.runOnCacheOnly = true ∧
      (s.getCell id geometry callback).core = s.core) := by
  rcases getCell_cases s id geometry callback with ⟨r, hr, heq⟩ | ⟨hr, heq⟩ | ⟨hr, honly, heq⟩
  · obtain ⟨color, hcore⟩ := core_loaded (bound_hit hb id) r
    exact .inl ⟨r, color, hr, by rw [heq, hcore]; rfl⟩
  · exact .inr (.inl ⟨hr, by rw [heq]; rfl⟩)
  · exact .inr (.inr ⟨hr, honly, by rw [heq]; rfl⟩)

theorem view_getCell {callback : Callback} (hb : callback.Bound s) (id : CellId)
    (geometry : NodeGeometry) : (s.getCell id geometry callback).view = s.view := by
  rcases core_getCell hb id geometry with ⟨r, color, -, heq⟩ | ⟨-, heq⟩ | ⟨-, -, heq⟩
  · exact congrArg Core.view heq
  · exact congrArg Core.view heq
  · exact congrArg Core.view heq

/-- A request for a cell that the query asks for next. -/
theorem advance_getCell {exact : Prop} {p p' : Progress} {t : State} {id : CellId}
    {callback : Callback} {childInFrustum : ℕ → ℤ} (hsound : t.Sound server)
    (hcore : t.core = { s.core with childInFrustum := childInFrustum })
    (hwish : Wish s.core p id callback childInFrustum p') (hb : callback.Bound t)
    (hok : exact → t.cellCache.lookup id = none →
      t.page.runOnCacheOnly = false ∧ s.core.Steady id callback)
    (hqueue : s.queue = p.begun ++ p.todo) :
    ∃ todo, Advance exact server s.core p (t.getCell id (server.cellGeom id) callback).core
        { p' with todo := todo } ∧
      (t.getCell id (server.cellGeom id) callback).queue = p.begun ++ todo := by
  have hcells : t.cells = s.cells := congrArg Core.cells hcore
  have htqueue : t.queue = s.queue := congrArg Core.queue hcore
  have htrequests : t.requests = s.requests := congrArg Core.requests hcore
  have htodo : { p' with todo := p.todo } = p' := by cases hwish <;> rfl
  rcases core_getCell hb id (server.cellGeom id) with
    ⟨r, color, hr, heq⟩ | ⟨hr, heq⟩ | ⟨hr, hyes, heq⟩
  -- in the cache: the cell comes into the queue at once
  · obtain ⟨hnew, hid⟩ := hsound.cached _ (mem_of_lookup hr)
    refine ⟨p'.todo ++ [r], ?_, ?_⟩
    · rw [heq, hcore]
      have hroot := hsound.roots r hnew
      rw [hcells] at hid hroot ⊢
      rw [htqueue]
      exact .hit r color hwish hid fun hpath => hroot (by rw [hid]; exact hpath)
    · rw [show (t.getCell id _ callback).queue = t.queue ++ [r] from congrArg Core.queue heq,
        htqueue, hqueue, ← htodo, List.append_assoc]
  · refine ⟨p.todo, ?_, ?_⟩
    · rw [htodo, heq, hcore, htrequests]
      exact .sent _ hwish fun he => (hok he hr).2
    · rw [show (t.getCell id _ callback).queue = t.queue from congrArg Core.queue heq, htqueue,
        hqueue]
  -- neither in the cache nor asked for
  · have hlost : ¬ exact := fun he => by
      rw [(hok he hr).1] at hyes
      cases hyes
    refine ⟨p.todo, ?_, ?_⟩
    · rw [htodo, heq, hcore]
      exact .lost hlost hwish
    · rw [show (t.getCell id _ callback).queue = t.queue from congrArg Core.queue heq, htqueue,
        hqueue]

/-- The callbacks of a query get copies. -/
theorem giveResults_frame (s : State) :
    s.giveResults.page = s.page ∧ s.giveResults.core = s.core ∧ s.giveResults.stack = s.stack ∧
      s.giveResults.queueIndex = s.queueIndex ∧
      s.giveResults.interruptFrustumQuery = s.interruptFrustumQuery := by
  unfold State.giveResults
  by_cases hpos : s.inFlight > 0
  · rw [if_pos hpos]
    exact ⟨rfl, rfl, rfl, rfl, rfl⟩
  · rw [if_neg hpos]
    exact ⟨rfl, rfl, rfl, rfl, rfl⟩

/-- What becomes of an uninterrupted query in a step. -/
def Goes (exact : Prop) (server : Server) (s : State) (p : Progress) (s' : State) : Prop :=
  s'.interruptFrustumQuery = true ∨ (∃ r k, s'.Reentered r k) ∨
    ∃ p', s'.Flat p' ∧ Advance exact server s.core p s'.core p'

theorem Flat.getRoot {exact : Prop} {p : Progress} (h : s.Flat p) (hsound : s.Sound server)
    (hok : exact → s.Delivers .run) {i scope : ℕ} {rest : List Frame} {treeInfo : Option TreeInfo}
    (hstack : s.stack = .roots i scope :: rest) (ht : s.page.treesInfo[i]? = some treeInfo) :
    Goes exact server s p
      (State.getRoot server { s with stack := .roots (i + 1) scope :: rest } scope treeInfo) := by
  obtain ⟨rfl, rfl, hcur, hdone, hproc⟩ := h.top hstack
  set t : State :=
    setTreeInfo { s with stack := [.roots (p.trees + 1) scope] } scope treeInfo with ht'
  have hflat : ∀ {t' : State} {todo : List Ref}, t'.queue = p.begun ++ todo →
      t'.queueIndex = s.queueIndex → t'.stack = [.roots (p.trees + 1) scope] →
      t'.isProcessingQueue = true →
      t'.Flat { p with trees := p.trees + 1, todo := todo } := fun hq hi hs hp =>
    ⟨hq, hi.trans h.index, .roots scope hs hcur hdone hp⟩
  have hskip : treeInfo.any (·.enabled) = false → Goes exact server s p t := fun hoff =>
    .inr (.inr ⟨{ p with trees := p.trees + 1 }, hflat h.queue rfl rfl hproc,
      .skipRoot treeInfo ht hoff⟩)
  -- an enabled tree is asked for, another is skipped
  unfold State.getRoot
  split
  · next tree =>
    split_ifs with hon
    · have htsound : t.Sound server :=
        ⟨hsound.located, hsound.roots, hsound.cached, hsound.queued, hsound.requested, by
          simp [ht', setTreeInfo], hsound.numbered⟩
      have hb : Callback.Bound t (.root scope) := by simp [ht', Callback.Bound, setTreeInfo]
      have hasks : (CellId.root tree.name, Callback.root scope) ∈ s.asks := by
        simp [asks, hstack, ht, hon]
      have hwish : Wish s.core p (.root tree.name) (.root scope) s.core.childInFrustum
          { p with trees := p.trees + 1 } := .root tree scope ht hon hdone hcur
      obtain ⟨todo, hadvance, hqueue⟩ := advance_getCell htsound rfl hwish hb
        (fun he hnone => ⟨(hok he).1 _ hasks hnone, (hok he).2 _ hasks hnone⟩) h.queue
      obtain ⟨-, hproc', hindex, -, -⟩ := getCell_frame hb (.root tree.name)
        (server.cellGeom (.root tree.name))
      refine .inr (.inr ⟨_, hflat hqueue hindex ?_ (hproc'.trans hproc), hadvance⟩)
      rcases getCell_stack hb (.root tree.name) (server.cellGeom (.root tree.name)) with
        hsame | ⟨hno, -⟩
      · exact hsame
      · exact absurd (hproc.symm.trans hno) (by decide)
    · exact hskip (by simp [hon])
  · exact hskip rfl

theorem Flat.processCell {exact : Prop} {p : Progress} (h : s.Flat p) (hsound : s.Sound server)
    {rest : List Frame} (hstack : s.stack = .loop :: rest) {r : Ref}
    (hr : s.queue[s.queueIndex]? = some r) :
    Goes exact server s p (State.processCell { s with stack := .after :: rest } r) := by
  obtain ⟨rfl, hcur, hall⟩ := h.top hstack
  -- the next cell is the first of those that are left
  obtain ⟨todo, htodo⟩ : ∃ todo, p.todo = r :: todo := by
    have hbegun : p.begun = p.done := by simp [Progress.begun, hcur]
    rw [h.queue, h.index, hbegun, List.getElem?_append_right le_rfl, Nat.sub_self] at hr
    cases hp : p.todo with
    | nil => simp [hp] at hr
    | cons x todo =>
      rw [hp] at hr
      exact ⟨todo, by rw [Option.some.inj hr]⟩
  have hqueue : s.queue = (p.done ++ [r]) ++ todo := by
    rw [h.queue, htodo, Progress.begun, hcur]
    simp
  have hscope : ∀ q ∈ s.requests, ∀ r' scope', q.callback = .child r' scope' →
      scope' ≠ s.newScope := by
    intro q hq r' scope' hcb
    have hfits := (hsound.requested q hq).2
    rw [hcb] at hfits
    exact hfits.2.1.ne
  set t : State := { s with stack := [.after] }
  have hcells : (t.enter r).cells = s.core.entered r := congrArg Core.cells (core_enter t r)
  have halike : Alike ((t.enter r).cells r) (s.cells r) := by
    rw [hcells]
    exact alike_entered s.core r r
  rcases processCell_cases t r with heq | ⟨heq, hsmall⟩ | ⟨heq, hleaf, hlarge⟩
  · rw [heq]
    exact .inl rfl
  · have hnot : ¬ s.view.Expands (s.cells r) := by
      rw [← halike.expands]
      rintro ⟨hleaf, hlarge⟩
      rcases hsmall with hyes | hyes
      · rw [hleaf] at hyes
        cases hyes
      · rw [show t.view.smallEnough _ = false from hlarge] at hyes
        cases hyes
    rw [heq]
    refine .inr (.inr ⟨{ p with current := some (r, 8), todo := todo, scope := s.newScope },
      ⟨hqueue, h.index, .after r rfl rfl hall⟩, ?_⟩)
    rw [core_enter]
    exact .enter r todo 8 s.newScope hcur htodo (.inr ⟨rfl, hnot⟩) hscope
  · have hexpands : s.view.Expands ((t.enter r).cells r) := ⟨hleaf, hlarge⟩
    rw [heq]
    refine .inr (.inr ⟨{ p with current := some (r, 0), todo := todo, scope := s.newScope },
      ⟨hqueue, h.index, .children r 0 rfl rfl (Nat.zero_le _) hexpands hall⟩, ?_⟩)
    rw [show ((t.enter r).expand r).core = (t.enter r).core from rfl, core_enter]
    exact .enter r todo 0 s.newScope hcur htodo (.inl ⟨rfl, halike.expands.mp hexpands⟩) hscope

theorem Flat.processChild {exact : Prop} {p : Progress} (h : s.Flat p) (hsound : s.Sound server)
    (hok : exact → s.Delivers .run) {r : Ref} {k : ChildNr} {scope : ℕ} {rest : List Frame}
    (hstack : s.stack = .children r k scope :: rest) :
    Goes exact server s p
      (State.processChild { s with stack := .children r (k + 1) scope :: rest } r scope k) := by
  obtain ⟨rfl, rfl, hcur, hn, hexpands, hall⟩ := h.top hstack
  set t : State := { s with stack := [.children r (k + 1) p.scope, .after] }
  have hflat : ∀ {t' : State} {todo : List Ref}, t'.queue = p.begun ++ todo →
      t'.queueIndex = s.queueIndex → t'.stack = t.stack → t'.page = s.page →
      t'.view.Expands (t'.cells r) →
      t'.Flat { p with current := some (r, k.val + 1), todo := todo } := by
    intro t' todo hq hi hs hp he
    refine ⟨?_, hi.trans h.index, .children r (k + 1) hs rfl k.isLt he (by rw [hp]; exact hall)⟩
    rw [hq, Progress.begun, Progress.begun, hcur]
    rfl
  have hhide : Alike (Function.update s.cells r ((s.cells r).hide k) r) (s.cells r) :=
    (Alike.hide _ k).update r
  unfold State.processChild
  split_ifs with hhas hwants
  · obtain ⟨hnew, hscope⟩ := hsound.running r k p.scope (hstack ▸ List.mem_cons_self)
    set t' := t.setChildInFrustum p.scope (t.view.testChild (t.cells r) k)
    have htsound : t'.Sound server :=
      ⟨hsound.located, hsound.roots, hsound.cached, hsound.queued, hsound.requested, by
        rintro r c scope hmem
        obtain ⟨rfl, -, rfl⟩ := Frame.children.inj
          ((List.mem_cons.mp hmem).resolve_right (by simp))
        exact ⟨hnew, hscope⟩, hsound.numbered⟩
    have hgeometry : (s.cells r).geometry.getChild k =
        server.cellGeom ((s.cells r).id.child k) := by
      rw [(hsound.located r hnew).1]
      rfl
    have hb : Callback.Bound t' (.child r p.scope) := trivial
    have hasks : ((s.cells r).id.child k, Callback.child r p.scope) ∈ s.asks := by
      have hboth : (s.cells r).hasChild k = true ∧ s.view.wants (s.cells r) k = true :=
        ⟨hhas, hwants⟩
      simp [asks, hstack, hboth]
    have hwish : Wish s.core p ((s.cells r).id.child k) (.child r p.scope) t'.childInFrustum
        { p with current := some (r, k.val + 1) } := .child r k hcur hexpands hhas hwants
    have hcore : t'.core = { s.core with childInFrustum := t'.childInFrustum } := rfl
    obtain ⟨todo, hadvance, hqueue⟩ := advance_getCell htsound hcore hwish hb
      (fun he hnone => ⟨(hok he).1 _ hasks hnone, (hok he).2 _ hasks hnone⟩) h.queue
    have hother : t'.cellCache.lookup ((s.cells r).id.child k) ≠ some r := fun hsome =>
      CellId.child_ne _ k (hsound.cached _ (mem_of_lookup hsome)).2.symm
    have hsame := cells_getCell hb _ (server.cellGeom ((s.cells r).id.child k)) hother
    obtain ⟨hpage, hproc, hindex, -, hcache⟩ := getCell_frame hb ((s.cells r).id.child k)
      (server.cellGeom ((s.cells r).id.child k))
    have hview := view_getCell hb ((s.cells r).id.child k)
      (server.cellGeom ((s.cells r).id.child k))
    have hstack' := getCell_stack hb ((s.cells r).id.child k)
      (server.cellGeom ((s.cells r).id.child k))
    change Goes exact server s p (t'.getCell ((s.cells r).id.child k)
      ((s.cells r).geometry.getChild k) (.child r p.scope))
    rw [hgeometry]
    set u := t'.getCell ((s.cells r).id.child k) (server.cellGeom ((s.cells r).id.child k))
      (.child r p.scope)
    rcases hstack' with hstack' | ⟨hno, hsome, hstack'⟩
    · refine .inr (.inr ⟨_, hflat hqueue hindex hstack' hpage ?_, hadvance⟩)
      rw [hview, hsame]
      exact hexpands
    · -- the callback found no other call of `processQueue`
      refine .inr (.inl ⟨r, k, hproc.trans hno, ?_, ?_, ?_, ?_, ?_, .inl ⟨_, hstack'⟩⟩)
      · rw [hqueue, hindex, Progress.begun, hcur]
        change (p.done ++ [r] ++ todo)[s.queueIndex]? = some r
        rw [h.index, List.append_assoc, List.getElem?_append_right le_rfl, Nat.sub_self]
        rfl
      · rw [hview, hsame]
        exact hexpands
      · rw [hsame]
        exact hhas
      · rw [hview, hsame]
        exact hwants
      · rw [hcache, hsame]
        exact hsome
  · refine .inr (.inr ⟨_, hflat h.queue rfl rfl rfl ?_, ?_⟩)
    · exact hhide.expands.mpr hexpands
    · exact .skip r k _ hcur hexpands (fun _ => ⟨Bool.eq_false_iff.mpr hwants, rfl⟩)
        fun hno => Bool.noConfusion (hhas.symm.trans hno)
  · refine .inr (.inr ⟨_, hflat h.queue rfl rfl rfl ?_, ?_⟩)
    · exact hhide.expands.mpr hexpands
    · exact .skip r k _ hcur hexpands (fun hyes => absurd hyes hhas) fun _ => rfl

/-- Every step of an uninterrupted query. -/
theorem Flat.run {exact : Prop} {p : Progress} (h : s.Flat p) (hsound : s.Sound server)
    (hok : exact → s.Delivers .run) {s' : State} (hs : s.run server = some s') :
    Goes exact server s p s' := by
  refine run_cases (P := Goes exact server s p) hs ?root ?start ?wait ?cell ?results ?chunk ?next
    ?child ?childrenEnd
  case root =>
    intro i scope rest treeInfo hstack ht
    exact h.getRoot hsound hok hstack ht
  case start =>
    intro i scope rest hstack ht _
    obtain ⟨rfl, rfl, hcur, -⟩ := h.top hstack
    exact .inr (.inr ⟨p, ⟨h.queue, h.index, .loop rfl hcur (List.getElem?_eq_none_iff.mp ht)⟩,
      .same⟩)
  case wait =>
    intro i scope rest hstack ht _
    obtain ⟨rfl, rfl, hcur, -⟩ := h.top hstack
    exact .inr (.inr ⟨p, ⟨h.queue, h.index, .rest rfl hcur (List.getElem?_eq_none_iff.mp ht)⟩,
      .same⟩)
  case cell =>
    intro rest r hstack hr _
    exact h.processCell hsound hstack hr
  case results =>
    intro rest hstack _
    obtain ⟨rfl, hcur, hall⟩ := h.top hstack
    obtain ⟨hpage, hcore, hstack', hindex, -⟩ := giveResults_frame { s with stack := [] }
    have hqueue : (State.giveResults { s with stack := [] }).queue = s.queue :=
      congrArg Core.queue hcore
    refine .inr (.inr ⟨p, ⟨hqueue.trans h.queue, hindex.trans h.index, .rest hstack' hcur ?_⟩, ?_⟩)
    · rw [hpage]
      exact hall
    · rw [hcore]
      exact .same
  case chunk =>
    intro rest hstack _
    obtain ⟨rfl, ⟨r, hcur⟩, hall⟩ := h.top hstack
    refine .inr (.inr ⟨{ p with done := p.done ++ [r], current := none },
      ⟨?_, ?_, .rest rfl rfl hall⟩, .next r hcur⟩)
    · simp [h.queue, Progress.begun, hcur]
    · simp [h.index]
  case next =>
    intro rest hstack
    obtain ⟨rfl, ⟨r, hcur⟩, hall⟩ := h.top hstack
    refine .inr (.inr ⟨{ p with done := p.done ++ [r], current := none },
      ⟨?_, ?_, .loop rfl rfl hall⟩, .next r hcur⟩)
    · simp [h.queue, Progress.begun, hcur]
    · simp [h.index]
  case child =>
    intro r k scope rest hstack
    exact h.processChild hsound hok hstack
  case childrenEnd =>
    intro r n scope rest hstack hn
    obtain ⟨rfl, rfl, hcur, hn', -, hall⟩ := h.top hstack
    obtain rfl : n = 8 := by omega
    exact .inr (.inr ⟨p, ⟨h.queue, h.index, .after r rfl hcur hall⟩, .same⟩)

/-! ### Answers, timers and new queries -/

/-- A query begins. -/
structure Fresh (s : State) : Prop where
  flat : ∃ scope, s.Flat (.start scope)
  queue : s.queue = []
  requests : s.requests = []
  accounted : s.Accounted True 0

/-- What was lost before is not counted any more. -/
theorem Accounted.cancelPending {exact : Prop} (h : s.Accounted exact 0) :
    s.cancelPending.Accounted True 0 := by
  unfold State.cancelPending
  split_ifs with hpos
  · exact ⟨⟨0, rfl, fun _ => rfl⟩, h.cancel.isOpen, h.cancel.stored⟩
  · obtain ⟨lost, heq, -⟩ := h.inFlight_eq
    exact ⟨⟨lost, heq, fun _ => by omega⟩, h.isOpen, h.stored⟩

theorem fresh_startQuery {exact : Prop} (haccounted : s.Accounted exact 0) (hstack : s.stack = [])
    (id : ℤ) : (s.cancelPending.startQuery id).Fresh := by
  have hkeep : s.cancelPending.stack = [] ∧ s.cancelPending.newScope = s.newScope := by
    unfold State.cancelPending
    split_ifs
    · exact ⟨hstack, rfl⟩
    · exact ⟨hstack, rfl⟩
  have hnil : s.cancelPending.requests = [] := haccounted.requests_cancelPending
  refine ⟨⟨0, rfl, rfl, .roots s.newScope ?_ rfl rfl rfl⟩, rfl, hnil, ?_⟩
  · simp only [startQuery, hkeep]
    rfl
  · have hpending := haccounted.cancelPending
    refine ⟨hpending.inFlight_eq, hpending.isOpen, fun q hq => ?_⟩
    have hmem : q ∈ s.cancelPending.requests := hq
    rw [hnil] at hmem
    exact absurd hmem List.not_mem_nil

theorem Flat.onload {exact : Prop} {p : Progress} (h : s.Flat p) (hsound : s.Sound server)
    (hstack : s.stack = []) {q : Request} (hq : q ∈ s.requests)
    (hok : exact → q.callback.Bound s) : Goes exact server s p (s.onload server q) := by
  obtain ⟨hcur, hall⟩ := h.idle hstack
  have hbound : q.callback.Bound (s.answered server q) ↔ q.callback.Bound s := by
    cases q.callback <;> rfl
  have hfresh : s.newCell ∉ s.queue := fun hmem => lt_irrefl _ (hsound.queued _ hmem)
  by_cases hb : q.callback.Bound (s.answered server q)
  · refine .inr (.inr ⟨{ p with todo := p.todo ++ [s.newCell] }, ?_, ?_⟩)
    · obtain ⟨calls, heq⟩ := loaded_eq hb s.newCell
      rw [State.onload, heq]
      have hqueue : s.queue ++ [s.newCell] = p.begun ++ (p.todo ++ [s.newCell]) := by
        rw [h.queue, List.append_assoc]
      split_ifs
      · exact ⟨hqueue, h.index, .rest hstack hcur hall⟩
      · exact ⟨hqueue, h.index, .loop (congrArg (List.cons _) hstack) hcur hall⟩
    · obtain ⟨color, hcore⟩ := core_loaded hb s.newCell
      have hadvance : Advance exact server s.core p
          { s.core with
            cells := Function.update s.cells s.newCell
              (s.core.receive color q.callback (.new q.id q.geometry (server.files q.id)))
            queue := s.queue ++ [s.newCell]
            requests := s.requests.filter (·.xhr ≠ q.xhr) }
          { p with todo := p.todo ++ [s.newCell] } := .arrive q s.newCell color hq
          (fun q' hq' => List.inj_on_of_nodup_map hsound.numbered.nodup hq' hq) hfresh hcur
      rw [State.onload, hcore, Sound.cells_answered_newCell]
      have hcells : Function.update (s.answered server q).cells s.newCell =
          Function.update s.cells s.newCell := by
        funext cell
        exact Function.update_idem _ _ _
      rw [hcells]
      exact hadvance
  · rw [State.onload, loaded_of_not_bound hb]
    refine .inr (.inr ⟨p, ⟨h.queue, h.index, .rest hstack hcur hall⟩, ?_⟩)
    refine .drop q _ (fun he => hb (hbound.mpr (hok he))) hcur fun r hr => ?_
    exact Sound.cells_answered_of_lt q (hsound.queued r hr)

theorem triggerFrustum_cases (s : State) (id : ℤ) :
    s.triggerFrustum id = s ∨ s.triggerFrustum id = s.cancelPending.startQuery id := by
  unfold State.triggerFrustum
  split_ifs
  · exact .inl rfl
  · exact .inr rfl

theorem fresh_getFrustum {exact : Prop} (haccounted : s.Accounted exact 0) (hstack : s.stack = [])
    (page : Page) : (s.getFrustum page).Fresh := by
  have hpage : ({ s with page := page, lastFrustumTriggerId := 0 } : State).Accounted exact 0 :=
    ⟨haccounted.inFlight_eq, haccounted.isOpen, haccounted.stored⟩
  rw [State.getFrustum, State.triggerFrustum, if_neg (by simp)]
  exact fresh_startQuery hpage hstack 0

/-- Every step while a query is not interrupted. -/
theorem Flat.step {exact : Prop} {p : Progress} (h : s.Flat p) (hsound : s.Sound server)
    (haccounted : s.Accounted exact 0) {e : Event} (hok : exact → s.Delivers e) {s' : State}
    (hs : Web.step server e s = some s') : Goes exact server s p s' ∨ s'.Fresh := by
  -- a timer fires, and its function does not change the query
  have htimer : ∀ {t : State} {stack : List Frame}, s.stack = [] → t.core = s.core →
      t.queueIndex = s.queueIndex → t.stack = stack → stack = [] ∨ stack = [.loop] →
      Goes exact server s p t := by
    intro t stack hstack hcore hindex ht hcases
    obtain ⟨hcur, hall⟩ := h.idle hstack
    have htrees : t.page.treesInfo.length ≤ p.trees := by
      rw [show t.page.treesInfo = s.page.treesInfo from congrArg Core.treesInfo hcore]
      exact hall
    have hqueue : t.queue = s.queue := congrArg Core.queue hcore
    refine .inr (.inr ⟨p, ⟨hqueue.trans h.queue, hindex.trans h.index, ?_⟩, by rw [hcore]; exact .same⟩)
    rcases hcases with rfl | rfl
    · exact .rest ht hcur htrees
    · exact .loop ht hcur htrees
  refine step_cases hs ?run ?getFrustum ?processQueue ?triggerFrustum ?success ?failure
  case run =>
    rintro rfl hrun
    exact .inl (h.run hsound hok hrun)
  case getFrustum =>
    rintro page rfl hstack rfl
    exact .inr (fresh_getFrustum haccounted hstack page)
  case processQueue =>
    rintro i rfl hstack - rfl
    exact .inl (htimer hstack rfl rfl (congrArg (List.cons _) hstack) (.inr rfl))
  case triggerFrustum =>
    rintro i id rfl hstack - rfl
    have htimers : ({ s with timers := s.timers.eraseIdx i } : State).Accounted exact 0 :=
      ⟨haccounted.inFlight_eq, haccounted.isOpen, haccounted.stored⟩
    rcases triggerFrustum_cases { s with timers := s.timers.eraseIdx i } id with heq | heq
    · rw [heq]
      exact .inl (htimer hstack rfl rfl hstack (.inl rfl))
    · rw [heq]
      exact .inr (fresh_startQuery htimers hstack id)
  case success =>
    rintro q hq rfl hstack rfl
    exact .inl (h.onload hsound hstack hq fun he => (hok he).1 q hq rfl)
  case failure =>
    rintro q hq rfl hstack rfl
    obtain ⟨hcur, hall⟩ := h.idle hstack
    exact .inl (.inr (.inr ⟨p, ⟨h.queue, h.index, .rest hstack hcur hall⟩,
      .drop q s.cells (fun he => (hok he).1) hcur fun _ _ => rfl⟩))

end State

end MegaTree.Web
