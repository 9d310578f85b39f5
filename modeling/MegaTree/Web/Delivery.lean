import MegaTree.Web.Drawing

/-!
# The delivery of cells

Which cells a query visits is determined by the view and the files: `Visited`.  A callback that
comes later reads `child_in_frustum` when the loop that set it has gone on to the other children, so
that the cell gets the value of the last child; the result is `Visited` if these values are the same.

* `Values.advance` : the cells of the query have the values of `Visited`.
* `Complete.advance` : the children of the cells that are processed are asked for.
* `result_independent` : the result does not depend on the delivery.
-/

namespace MegaTree.Web

open Effect

/-! ### What a query visits -/

/-- The cell of the server with an id, for a value of `inside_frustum`. -/
def Server.cell (server : Server) (id : CellId) (insideFrustum : ℤ) : CellObject :=
  { CellObject.new id (server.cellGeom id) (server.files id) with insideFrustum := insideFrustum }

/-- The cells that a query visits, with `inside_frustum`. -/
inductive Visited (server : Server) (view : View) (treesInfo : List (Option TreeInfo)) :
    CellId → ℤ → Prop
  | root (t : TreeInfo) : some t ∈ treesInfo → t.enabled = true →
      Visited server view treesInfo (.root t.name) (-1)
  | child {id : CellId} {v : ℤ} (k : ChildNr) : Visited server view treesInfo id v →
      view.Expands (server.cell id v) → (server.cell id v).hasChild k = true →
      view.wants (server.cell id v) k = true →
      Visited server view treesInfo (id.child k) (view.testChild (server.cell id v) k)

theorem insideLoop_le_one (frustumPlanes : ℕ → ℚ) (cellRadius : ℚ) (pnt : Vec) (planes : List ℕ)
    (minN : ℚ) : insideLoop frustumPlanes cellRadius pnt planes minN ≤ 1 := by
  induction planes generalizing minN with
  | nil =>
    rw [insideLoop]
    split_ifs <;> decide
  | cons i planes ih =>
    rw [insideLoop]
    split_ifs
    · decide
    · exact ih _

namespace Visited

variable {server : Server} {view : View} {treesInfo : List (Option TreeInfo)} {id : CellId} {v : ℤ}

theorem le_one (h : Visited server view treesInfo id v) : v ≤ 1 := by
  induction h with
  | root t => decide
  | child k _ _ _ _ ih =>
    rw [View.testChild]
    split_ifs
    · exact insideLoop_le_one _ _ _ _ _
    · exact ih

/-- A cell has one value. -/
theorem unique (h : Visited server view treesInfo id v) {v' : ℤ}
    (h' : Visited server view treesInfo id v') : v = v' := by
  induction h generalizing v' with
  | root t =>
    generalize hid : CellId.root t.name = id at h'
    cases h' with
    | root t' => rfl
    | child k => exact absurd hid.symm (CellId.child_ne_root _ _ _)
  | child k _ _ _ _ ih =>
    generalize hid : CellId.child _ k = id at h'
    cases h' with
    | root t' => exact absurd hid (CellId.child_ne_root _ _ _)
    | child k' hparent =>
      obtain ⟨rfl, rfl⟩ := CellId.child_injective hid
      rw [ih hparent]

end Visited

/-- An object that the query treats like the cell of the server. -/
theorem alike_cell {server : Server} {cell : CellObject}
    (h : cell.geometry = server.cellGeom cell.id ∧
      cell.children = (server.files cell.id).headD 0) :
    Alike cell (server.cell cell.id cell.insideFrustum) := ⟨rfl, h.1, h.2, rfl⟩

/-! ### The last child -/

theorem lastChild_succ (cell : CellObject) (k : ChildNr) :
    lastChild cell (k.val + 1) = if cell.hasChild k then some k else lastChild cell k.val := by
  rw [lastChild, dif_pos k.isLt]

theorem lastChild_congr {cell cell' : CellObject} (h : Alike cell cell') (n : ℕ) :
    lastChild cell n = lastChild cell' n := by
  induction n with
  | zero => rfl
  | succ n ih =>
    rw [lastChild, lastChild, ih]
    simp only [h.hasChild]

theorem exists_lastChild {cell : CellObject} {k : ChildNr} (hhas : cell.hasChild k = true) {n : ℕ}
    (hn : k.val < n) (hle : n ≤ 8) : ∃ last, lastChild cell n = some last := by
  induction n with
  | zero => exact absurd hn (Nat.not_lt_zero _)
  | succ n ih =>
    have hsucc := lastChild_succ cell ⟨n, hle⟩
    rw [hsucc]
    split_ifs with hlast
    · exact ⟨_, rfl⟩
    · refine ih (lt_of_le_of_ne (Nat.lt_succ_iff.mp hn) fun heq => hlast ?_) (by omega)
      rw [← show k = ⟨n, hle⟩ from Fin.ext heq]
      exact hhas

/-! ### The values of the cells -/

/-- `child_in_frustum` has the value for a child, or its loop is running. -/
def Kept (c : Core) (p : Progress) (r : Ref) (scope : ℕ) (k : ChildNr) : Prop :=
  c.childInFrustum scope = c.view.testChild (c.cells r) k ∧
      (p.current.isSome = true → scope ≠ p.scope) ∨
    scope = p.scope ∧ c.view.Expands (c.cells r) ∧ ∃ n, p.current = some (r, n)

/-- The callback of a request will set the value of its cell. -/
def Expected (server : Server) (c : Core) (p : Progress) (id : CellId) : Callback → Prop
  | .root _ => Visited server c.view c.treesInfo id (-1)
  | .child r scope => ∃ k, id = (c.cells r).id.child k ∧ (c.cells r).hasChild k = true ∧
      Visited server c.view c.treesInfo id (c.view.testChild (c.cells r) k) ∧ Kept c p r scope k

/-- The cells of a query have the values of `Visited`, also those that come later. -/
structure Values (server : Server) (c : Core) (p : Progress) : Prop where
  queued : ∀ r ∈ c.queue,
    Visited server c.view c.treesInfo (c.cells r).id (c.cells r).insideFrustum
  requested : ∀ q ∈ c.requests, Expected server c p q.id q.callback ∧ c.Steady q.id q.callback
  running : ∀ r n last, p.current = some (r, n) → c.view.Expands (c.cells r) →
    lastChild (c.cells r) n = some last →
    c.childInFrustum p.scope = c.view.testChild (c.cells r) last

/-- A child that the query asks for. -/
theorem visited_child {server : Server} {c : Core} (hlocated : State.Located server c) {r : Ref}
    (hr : r ∈ c.queue)
    (hvisited : Visited server c.view c.treesInfo (c.cells r).id (c.cells r).insideFrustum)
    {k : ChildNr} (hexpands : c.view.Expands (c.cells r)) (hhas : (c.cells r).hasChild k = true)
    (hwants : c.view.wants (c.cells r) k = true) :
    Visited server c.view c.treesInfo ((c.cells r).id.child k) (c.view.testChild (c.cells r) k) := by
  have halike := alike_cell (hlocated r hr)
  rw [halike.testChild k]
  refine .child k hvisited (halike.expands.mp hexpands) ?_ ?_
  · rw [← halike.hasChild k]
    exact hhas
  · rw [← halike.wants k]
    exact hwants

section Continues

variable {server : Server} {c c' : Core} {p p' : Progress} {id : CellId} {callback : Callback}
  {childInFrustum : ℕ → ℤ}

/-- The loop that runs goes on, and changes its `child_in_frustum`. -/
structure Continues (c : Core) (p : Progress) (childInFrustum : ℕ → ℤ) (p' : Progress) : Prop where
  scope : p'.scope = p.scope
  current : ∀ r n, p.current = some (r, n) → ∃ m, p'.current = some (r, m)
  isSome : p'.current.isSome = true → p.current.isSome = true
  other : ∀ scope, (p.current.isSome = true → scope ≠ p.scope) →
    childInFrustum scope = c.childInFrustum scope

theorem continues_of_current {r : Ref} {n m : ℕ} (hcur : p.current = some (r, n))
    (hother : ∀ scope, scope ≠ p.scope → childInFrustum scope = c.childInFrustum scope) :
    Continues c p childInFrustum { p with current := some (r, m) } where
  scope := rfl
  current r' n' h := by
    obtain ⟨rfl, -⟩ := Prod.mk.inj (Option.some.inj (hcur.symm.trans h))
    exact ⟨m, rfl⟩
  isSome _ := by rw [hcur]; rfl
  other scope h := hother scope (h (by rw [hcur]; rfl))

theorem Wish.continues (h : Wish c p id callback childInFrustum p') :
    Continues c p childInFrustum p' := by
  cases h with
  | root t scope => exact ⟨rfl, fun _ n h => ⟨n, h⟩, fun h => h, fun _ _ => rfl⟩
  | child r k hcur =>
    exact continues_of_current hcur fun scope hne => Function.update_of_ne hne _ _

theorem Kept.mono {r : Ref} {scope : ℕ} {k : ChildNr} (h : Kept c p r scope k)
    (hview : c'.view = c.view) (halike : Alike (c'.cells r) (c.cells r))
    (hcont : Continues c p c'.childInFrustum p') : Kept c' p' r scope k := by
  rw [Kept, hview, halike.testChild, halike.expands]
  rcases h with ⟨hvalue, hne⟩ | ⟨rfl, hexpands, n, hcur⟩
  · refine .inl ⟨(hcont.other scope hne).trans hvalue, fun hsome => ?_⟩
    rw [hcont.scope]
    exact hne (hcont.isSome hsome)
  · exact .inr ⟨hcont.scope.symm, hexpands, hcont.current r n hcur⟩

theorem Expected.mono (h : Expected server c p id callback) (hview : c'.view = c.view)
    (hinfo : c'.treesInfo = c.treesInfo)
    (hcells : ∀ r scope, callback = .child r scope → Alike (c'.cells r) (c.cells r))
    (hkept : ∀ r scope k, callback = .child r scope → id = (c.cells r).id.child k →
      (c.cells r).hasChild k = true → Kept c p r scope k → Kept c' p' r scope k) :
    Expected server c' p' id callback := by
  cases callback with
  | root scope =>
    rw [Expected, hview, hinfo]
    exact h
  | child r scope =>
    obtain ⟨k, hid, hhas, hvisited, hk⟩ := h
    have halike := hcells r scope rfl
    refine ⟨k, ?_, ?_, ?_, hkept r scope k rfl hid hhas hk⟩
    · rw [halike.id]
      exact hid
    · rw [halike.hasChild]
      exact hhas
    · rw [hview, hinfo, halike.testChild]
      exact hvisited

theorem steady_mono (h : c.Steady id callback) (hview : c'.view = c.view)
    (hcells : ∀ r scope, callback = .child r scope → Alike (c'.cells r) (c.cells r)) :
    c'.Steady id callback := by
  cases callback with
  | root scope => trivial
  | child r scope =>
    have halike := hcells r scope rfl
    intro k last hid hlast
    rw [hview, halike.testChild, halike.testChild]
    rw [halike.id] at hid
    rw [lastChild_congr halike] at hlast
    exact h k last hid hlast

/-- The loop has set `child_in_frustum` for the last child that it has looked at. -/
theorem Wish.running (h : Wish c p id callback childInFrustum p') {r : Ref} {n : ℕ}
    {last : ChildNr} (hcur : p'.current = some (r, n))
    (hlast : lastChild (c.cells r) n = some last) :
    childInFrustum p'.scope = c.view.testChild (c.cells r) last := by
  cases h with
  | root t scope _ _ _ hnone =>
    rw [show p.current = some (r, n) from hcur] at hnone
    cases hnone
  | child r' k _ _ hhas =>
    obtain ⟨rfl, rfl⟩ := Prod.mk.inj (Option.some.inj hcur)
    rw [lastChild_succ, if_pos hhas] at hlast
    obtain rfl := Option.some.inj hlast
    exact Function.update_self _ _ _

end Continues

namespace Values

variable {server : Server} {c c' : Core} {p p' : Progress} {id : CellId} {callback : Callback}
  {childInFrustum : ℕ → ℤ}

/-- The value of a cell that is in the cache. -/
theorem visited_hit (h : Values server c p) (ho : Order c p) (hlocated : State.Located server c)
    (hwish : Wish c p id callback childInFrustum p') (color : Vec) {cell : CellObject}
    (hroot : id.path = [] → cell.insideFrustum = -1) :
    Visited server c.view c.treesInfo id
      (({ c with childInFrustum := childInFrustum } : Core).receive color callback
        cell).insideFrustum := by
  cases hwish with
  | root t scope ht hon =>
    rw [Core.receive, hroot rfl]
    exact .root t (List.mem_of_getElem? ht) hon
  | child r k hcur hexpands hhas hwants =>
    have hr := ho.mem_queue (Order.mem_begun_of_current hcur)
    simp only [Core.receive, Function.update_self]
    exact visited_child hlocated hr (h.queued r hr) hexpands hhas hwants

/-- The value that a request will get. -/
theorem expected_sent (h : Values server c p) (ho : Order c p) (hlocated : State.Located server c)
    (hwish : Wish c p id callback childInFrustum p') :
    Expected server { c with childInFrustum := childInFrustum } p' id callback := by
  cases hwish with
  | root t scope ht hon => exact .root t (List.mem_of_getElem? ht) hon
  | child r k hcur hexpands hhas hwants =>
    have hr := ho.mem_queue (Order.mem_begun_of_current hcur)
    exact ⟨k, rfl, hhas, visited_child hlocated hr (h.queued r hr) hexpands hhas hwants,
      .inr ⟨rfl, hexpands, _, rfl⟩⟩

/-- A step of the loop that runs. -/
theorem of_continues (h : Values server c p) (hview : c'.view = c.view)
    (hinfo : c'.treesInfo = c.treesInfo)
    (hcells : ∀ r ∈ p.begun, Alike (c'.cells r) (c.cells r)) (ho : Order c p)
    (hcont : Continues c p c'.childInFrustum p') {q : Request} (hq : q ∈ c.requests) :
    Expected server c' p' q.id q.callback ∧ c'.Steady q.id q.callback := by
  have hadopts := ho.callback q hq
  have halike : ∀ r scope, q.callback = .child r scope → Alike (c'.cells r) (c.cells r) := by
    intro r scope hcallback
    rw [hcallback] at hadopts
    exact hcells r hadopts.1
  obtain ⟨hexpected, hsteady⟩ := h.requested q hq
  exact ⟨hexpected.mono hview hinfo halike fun r scope k hcallback _ _ hk =>
      hk.mono hview (halike r scope hcallback) hcont,
    steady_mono hsteady hview halike⟩

/-- The loop over the children has ended. -/
theorem next (h : Values server c p) {r : Ref} (hcur : p.current = some (r, 8)) :
    Values server c { p with done := p.done ++ [r], current := none } where
  queued := h.queued
  requested q hq := by
    obtain ⟨hexpected, hsteady⟩ := h.requested q hq
    refine ⟨hexpected.mono rfl rfl (fun _ _ _ => .refl _) ?_, hsteady⟩
    intro r' scope k hcallback hid hhas hk
    refine .inl ⟨?_, fun hsome => Bool.noConfusion hsome⟩
    rcases hk with ⟨hvalue, -⟩ | ⟨rfl, hexpands, n, hcur'⟩
    · exact hvalue
    · -- the value is now that of the last child, which is the same
      obtain ⟨rfl, rfl⟩ := Prod.mk.inj (Option.some.inj (hcur.symm.trans hcur'))
      obtain ⟨last, hlast⟩ := exists_lastChild hhas k.isLt le_rfl
      rw [hcallback] at hsteady
      rw [h.running r 8 last hcur hexpands hlast]
      exact hsteady k last hid hlast
  running _ _ _ hcur' := by cases hcur'

theorem enter (h : Values server c p) {r : Ref} {todo : List Ref} {n scope : ℕ}
    (hcur : p.current = none)
    (hn : n = 0 ∧ c.view.Expands (c.cells r) ∨ n = 8 ∧ ¬ c.view.Expands (c.cells r))
    (hscope : ∀ q ∈ c.requests, ∀ r' scope', q.callback = .child r' scope' → scope' ≠ scope) :
    Values server { c with cells := c.entered r }
      { p with current := some (r, n), todo := todo, scope := scope } where
  queued r' hr' := by
    have halike := State.alike_entered c r r'
    rw [show Core.cells { c with cells := c.entered r } r' = c.entered r r' from rfl, halike.id,
      halike.insideFrustum]
    exact h.queued r' hr'
  requested q hq := by
    have halike : ∀ r', Alike (c.entered r r') (c.cells r') := State.alike_entered c r
    obtain ⟨hexpected, hsteady⟩ := h.requested q hq
    refine ⟨hexpected.mono rfl rfl (fun r' _ _ => halike r') ?_,
      steady_mono hsteady rfl fun r' _ _ => halike r'⟩
    intro r' scope' k hcallback _ _ hk
    rcases hk with ⟨hvalue, -⟩ | ⟨-, -, n', hcur'⟩
    · exact .inl ⟨hvalue.trans ((halike r').testChild k).symm, fun _ =>
        hscope q hq r' scope' hcallback⟩
    · rw [hcur] at hcur'
      cases hcur'
  running r' n' last hcur' hexpands hlast := by
    -- the round starts before the first child, or after the last of a cell that is not expanded
    obtain ⟨rfl, rfl⟩ := Prod.mk.inj (Option.some.inj hcur')
    rcases hn with ⟨rfl, -⟩ | ⟨-, hnot⟩
    · cases hlast
    · exact absurd ((State.alike_entered c r r).expands.mp hexpands) hnot

theorem skip (h : Values server c p) (ho : Order c p) {r : Ref} {k : ChildNr}
    {childInFrustum : ℕ → ℤ} (hcur : p.current = some (r, k.val))
    (hexpands : c.view.Expands (c.cells r))
    (hyes : (c.cells r).hasChild k = true → childInFrustum =
      Function.update c.childInFrustum p.scope (c.view.testChild (c.cells r) k))
    (hno : (c.cells r).hasChild k = false → childInFrustum = c.childInFrustum) :
    Values server
      { c with
        cells := Function.update c.cells r ((c.cells r).hide k)
        childInFrustum := childInFrustum }
      { p with current := some (r, k.val + 1) } where
  queued r' hr' := by
    have halike : Alike (Function.update c.cells r ((c.cells r).hide k) r') (c.cells r') :=
      (Alike.hide _ k).update r'
    simp only [halike.id, halike.insideFrustum]
    exact h.queued r' hr'
  requested q hq := by
    refine h.of_continues (by rfl) (by rfl) (fun r' _ => (Alike.hide _ k).update r') ho
      (continues_of_current hcur fun scope hne => ?_) hq
    change childInFrustum scope = c.childInFrustum scope
    -- the test of the child was written for the scope of this round only
    cases hhas : (c.cells r).hasChild k with
    | true => rw [hyes hhas, Function.update_of_ne hne]
    | false => rw [hno hhas]
  running r' n last hcur' _ hlast := by
    obtain ⟨rfl, rfl⟩ := Prod.mk.inj (Option.some.inj hcur')
    have halike : Alike (Function.update c.cells r ((c.cells r).hide k) r) (c.cells r) :=
      (Alike.hide _ k).update r
    simp only [halike.testChild]
    simp only [lastChild_congr halike, lastChild_succ] at hlast
    cases hhas : (c.cells r).hasChild k with
    | true =>
      rw [hhas, if_pos rfl] at hlast
      obtain rfl := Option.some.inj hlast
      rw [hyes hhas, Function.update_self]
    | false =>
      rw [hhas, if_neg (by decide)] at hlast
      rw [hno hhas]
      exact h.running r k last hcur hexpands hlast

/-- A cell comes into the queue. -/
theorem push (h : Values server c p) (ho : Order c p) {r : Ref} {cell : CellObject}
    {requests : List Request} (hr : r ∉ c.queue) (hcont : Continues c p childInFrustum p')
    (hrequests : requests ⊆ c.requests)
    (hvisited : Visited server c.view c.treesInfo cell.id cell.insideFrustum)
    (hrunning : ∀ r n last, p'.current = some (r, n) → r ∈ p.begun → c.view.Expands (c.cells r) →
      lastChild (c.cells r) n = some last →
      childInFrustum p'.scope = c.view.testChild (c.cells r) last)
    (hcurrent : ∀ r n, p'.current = some (r, n) → r ∈ p.begun) :
    Values server
      { c with
        cells := Function.update c.cells r cell
        queue := c.queue ++ [r]
        requests := requests
        childInFrustum := childInFrustum }
      { p' with todo := p'.todo ++ [r] } := by
  refine ⟨fun r' hr' => ?_, fun q hq => ?_, fun r' n last hcur => ?_⟩
  · simp only
    rcases List.mem_append.mp hr' with hr' | hr'
    -- the cells that were in the queue are not touched
    · rw [Order.cells_push hr hr']
      exact h.queued r' hr'
    · rw [List.mem_singleton.mp hr', Function.update_self]
      exact hvisited
  · refine h.of_continues (by rfl) (by rfl) (fun r' hr' => ?_) ho
      ⟨hcont.scope, hcont.current, hcont.isSome, hcont.other⟩ (hrequests hq)
    simp only [Order.cells_push hr (ho.mem_queue hr')]
    exact .refl _
  · have hbegun := hcurrent r' n hcur
    simp only [Order.cells_push hr (ho.mem_queue hbegun)]
    exact hrunning r' n last hcur hbegun

/-- Every step keeps the values, when the requests succeed and find the right values. -/
theorem advance (h : Values server c p) (ho : Order c p) (hlocated : State.Located server c)
    (hadvance : Advance True server c p c' p') : Values server c' p' := by
  have hcurrent : ∀ {id callback childInFrustum p'}, Wish c p id callback childInFrustum p' →
      ∀ r n, p'.current = some (r, n) → r ∈ p.begun := fun hwish r n hcur => by
    rw [← hwish.grows.begun]
    exact Order.mem_begun_of_current hcur
  cases hadvance with
  | same => exact h
  | next r hcur => exact h.next hcur
  | enter r todo n scope hcur _ hn hscope => exact h.enter hcur hn hscope
  | skip r k childInFrustum hcur hexpands hyes hno =>
    exact h.skip ho hcur hexpands (fun hhas => (hyes hhas).2) hno
  | skipRoot treeInfo => exact ⟨h.queued, h.requested, h.running⟩
  | sent xhr hwish hsteady =>
    refine ⟨h.queued, fun q hq => ?_, fun r n last hcur _ hlast => hwish.running hcur hlast⟩
    rcases List.mem_append.mp hq with hq | hq
    · exact h.of_continues (by rfl) (by rfl) (fun r _ => by exact .refl (c.cells r)) ho hwish.continues hq
    · obtain rfl := List.mem_singleton.mp hq
      exact ⟨h.expected_sent ho hlocated hwish, hsteady trivial⟩
  | lost hno => exact absurd trivial hno
  | hit r color hwish hid hroot =>
    have hfresh : r ∉ c.queue := fun hr => ho.not_asked hwish (hid ▸ Order.mem_asked hr)
    refine h.push ho hfresh hwish.continues (List.Subset.refl _) ?_
      (fun r' n last hcur _ _ hlast => hwish.running hcur hlast) (hcurrent hwish)
    rw [Order.id_receive, hid]
    exact h.visited_hit ho hlocated hwish color fun hpath => (hroot hpath).2
  | arrive q r color hq _ hr hcur =>
    have hnone : ∀ r n, p.current ≠ some (r, n) := fun r n hsome => by
      rw [hcur] at hsome
      cases hsome
    refine h.push ho hr ⟨rfl, fun r n hsome => absurd hsome (hnone r n), fun hsome => hsome,
      fun _ _ => rfl⟩ List.filter_sublist.subset ?_ (fun r n _ hsome => absurd hsome (hnone r n))
      (fun r n hsome => absurd hsome (hnone r n))
    have hexpected := (h.requested q hq).1
    rw [Order.id_receive]
    cases hcallback : q.callback with
    | root scope =>
      rw [hcallback] at hexpected
      exact hexpected
    | child r' scope =>
      rw [hcallback] at hexpected
      obtain ⟨k, hid, -, hvisited, hk⟩ := hexpected
      rcases hk with ⟨hvalue, -⟩ | ⟨-, -, n, hsome⟩
      · simp only [Core.receive, hvalue]
        exact hvisited
      · exact absurd hsome (hnone r' n)
  | drop q cells hno => exact absurd trivial hno

end Values

/-! ### What is asked for -/

/-- The trees and children that were looked at and are wanted are asked for. -/
structure Complete (c : Core) (p : Progress) : Prop where
  trees : ∀ i < p.trees, ∀ t : TreeInfo, c.treesInfo[i]? = some (some t) → t.enabled = true →
    .root t.name ∈ c.asked
  children : ∀ r k, p.Dealt r k → c.view.Expands (c.cells r) → (c.cells r).hasChild k = true →
    c.view.wants (c.cells r) k = true → (c.cells r).id.child k ∈ c.asked

namespace Complete

variable {c c' : Core} {p p' : Progress}

/-- A step in which the new trees and children are asked for. -/
theorem mono (h : Complete c p) (hview : c'.view = c.view) (hinfo : c'.treesInfo = c.treesInfo)
    (hcells : ∀ r ∈ p'.begun, Alike (c'.cells r) (c.cells r)) (hasked : c.asked ⊆ c'.asked)
    (htrees : ∀ i < p'.trees, p.trees ≤ i → ∀ t : TreeInfo, c.treesInfo[i]? = some (some t) →
      t.enabled = true → .root t.name ∈ c'.asked)
    (hchildren : ∀ r k, p'.Dealt r k → ¬ p.Dealt r k → c.view.Expands (c.cells r) →
      (c.cells r).hasChild k = true → c.view.wants (c.cells r) k = true →
      (c.cells r).id.child k ∈ c'.asked) : Complete c' p' where
  trees i hi t ht hon := by
    rw [hinfo] at ht
    by_cases hold : i < p.trees
    · exact hasked (h.trees i hold t ht hon)
    · exact htrees i hi (not_lt.mp hold) t ht hon
  children r k hk hexpands hhas hwants := by
    have halike := hcells r (Order.mem_begun_of_dealt hk)
    rw [hview, halike.expands] at hexpands
    rw [halike.hasChild] at hhas
    rw [hview, halike.wants] at hwants
    rw [halike.id]
    by_cases hold : p.Dealt r k
    · exact hasked (h.children r k hold hexpands hhas hwants)
    · exact hchildren r k hk hold hexpands hhas hwants

/-- A request asks for what is new. -/
theorem wish (h : Complete c p) {id : CellId} {callback : Callback} {childInFrustum : ℕ → ℤ}
    (hwish : Wish c p id callback childInFrustum p') (hview : c'.view = c.view)
    (hinfo : c'.treesInfo = c.treesInfo) (hcells : ∀ r ∈ p.begun, c'.cells r = c.cells r)
    (hasked : c.asked ⊆ c'.asked) (hid : id ∈ c'.asked) : Complete c' p' := by
  refine h.mono hview hinfo (fun r hr => ?_) hasked ?_ ?_
  · rw [hcells r (hwish.grows.begun ▸ hr)]
    exact .refl _
  · cases hwish with
    | root t scope ht =>
      intro i hi hle t' ht' _
      obtain rfl : i = p.trees := by
        have hlt : i < p.trees + 1 := hi
        omega
      obtain rfl := Option.some.inj (Option.some.inj (ht.symm.trans ht'))
      exact hid
    | child r k => exact fun i hi hle => absurd hi (not_lt.mpr hle)
  · cases hwish with
    | root t scope => exact fun r k hk hno => absurd hk hno
    | child r k hcur =>
      intro r' k' hk hno _ _ _
      obtain ⟨rfl, rfl⟩ := ((dealt_succ hcur r' k').mp hk).resolve_left hno
      exact hid

theorem advance {server : Server} (h : Complete c p) (ho : Order c p)
    (hadvance : Advance True server c p c' p') : Complete c' p' := by
  have hnone : ∀ {i n : ℕ} {P : Prop}, i < n → n ≤ i → P := fun hlt hle =>
    absurd hlt (not_lt.mpr hle)
  cases hadvance with
  | same => exact h
  | next r hcur =>
    refine h.mono rfl rfl (fun _ _ => .refl _) (List.Subset.refl _)
      (fun i hi hle => hnone hi hle) ?_
    exact fun r' k hk hno => absurd ((dealt_next hcur r' k).mp hk) hno
  | enter r todo n scope hcur htodo hn =>
    have halike : ∀ r', Alike (c.entered r r') (c.cells r') := State.alike_entered c r
    have hasked : Core.asked { c with cells := c.entered r } = c.asked := by
      simp only [Core.asked, (halike _).id]
    refine h.mono rfl rfl (fun r' _ => halike r') (by rw [hasked]; exact List.Subset.refl _)
      (fun i hi hle => hnone hi hle) ?_
    rintro r' k (hdone | ⟨n', hn', hlt⟩) hno hexpands _ _
    · exact absurd (.inl hdone) hno
    · obtain ⟨rfl, rfl⟩ := Prod.mk.inj (Option.some.inj hn')
      rcases hn with ⟨rfl, -⟩ | ⟨-, hnot⟩
      · exact absurd hlt (Nat.not_lt_zero _)
      · exact absurd hexpands hnot
  | skip r k childInFrustum hcur hexpands hyes =>
    have halike : ∀ r', Alike (Function.update c.cells r ((c.cells r).hide k) r') (c.cells r') :=
      (Alike.hide _ k).update
    have hasked : Core.asked
        { c with
          cells := Function.update c.cells r ((c.cells r).hide k)
          childInFrustum := childInFrustum } = c.asked := by
      simp only [Core.asked, (halike _).id]
    refine h.mono rfl rfl (fun r' _ => halike r') (by rw [hasked]; exact List.Subset.refl _)
      (fun i hi hle => hnone hi hle) ?_
    intro r' k' hk hno _ hhas hwants
    obtain ⟨rfl, rfl⟩ := ((dealt_succ hcur r' k').mp hk).resolve_left hno
    exact Bool.noConfusion (hwants.symm.trans (hyes hhas).1)
  | skipRoot treeInfo ht hoff =>
    refine h.mono rfl rfl (fun _ _ => .refl _) (List.Subset.refl _) ?_
      fun _ _ hk hno => absurd hk hno
    intro i hi hle t ht' hon
    obtain rfl : i = p.trees := by
      have hlt : i < p.trees + 1 := hi
      omega
    obtain rfl := Option.some.inj (ht.symm.trans ht')
    exact Bool.noConfusion (hoff.symm.trans hon)
  | sent xhr hwish =>
    refine h.wish hwish rfl rfl (fun _ _ => rfl) (fun id hmem => ?_) ?_
    · rcases List.mem_append.mp hmem with hmem | hmem
      · exact List.mem_append_left _ hmem
      · simp [Core.asked, List.mem_map.mp hmem]
    · simp [Core.asked]
  | lost hno => exact absurd trivial hno
  | @hit id callback childInFrustum p₁ r color hwish hid =>
    have hfresh : r ∉ c.queue := fun hr => ho.not_asked hwish (hid ▸ Order.mem_asked hr)
    set cell := ({ c with childInFrustum := childInFrustum } : Core).receive color callback (c.cells r)
      with hcell
    have hasked := Order.asked_push hfresh cell c.requests childInFrustum
    have hsame : cell.id = id := by rw [hcell, Order.id_receive, hid]
    have hcomplete : Complete
        { c with
          cells := Function.update c.cells r cell
          queue := c.queue ++ [r]
          childInFrustum := childInFrustum } p₁ := by
      refine h.wish hwish rfl rfl (fun r' hr' => Order.cells_push hfresh (ho.mem_queue hr')) ?_ ?_
      · rw [hasked]
        exact List.append_subset.mpr
          ⟨List.subset_append_of_subset_left _ (List.subset_append_left _ _),
            List.subset_append_right _ _⟩
      · rw [hasked, hsame]
        exact List.mem_append_left _ (List.mem_append_right _ List.mem_cons_self)
    exact ⟨hcomplete.trees, hcomplete.children⟩
  | arrive q r color hq hsame hr hcur =>
    set cell := c.receive color q.callback (.new q.id q.geometry (server.files q.id)) with hcell
    have hasked := Order.asked_push hr cell (c.requests.filter (·.xhr ≠ q.xhr)) c.childInFrustum
    have hid : cell.id = q.id := by rw [hcell, Order.id_receive]; rfl
    have hcomplete : Complete
        { c with
          cells := Function.update c.cells r cell
          queue := c.queue ++ [r]
          requests := c.requests.filter (·.xhr ≠ q.xhr) } p := by
      refine h.mono rfl rfl (fun r' hr' => ?_) (fun id hmem => ?_) (fun i hi hle => hnone hi hle)
        fun _ _ hk hno => absurd hk hno
      · change Alike (Function.update c.cells r cell r') (c.cells r')
        rw [Order.cells_push hr (ho.mem_queue hr')]
        exact .refl _
      · rw [hasked, hid]
        rcases List.mem_append.mp hmem with hmem | hmem
        · exact List.mem_append_left _ (List.mem_append_left _ hmem)
        · obtain ⟨q', hq', rfl⟩ := List.mem_map.mp hmem
          by_cases hxhr : q'.xhr = q.xhr
          · rw [hsame q' hq' hxhr]
            exact List.mem_append_left _ (List.mem_append_right _ List.mem_cons_self)
          · exact List.mem_append_right _ (List.mem_map_of_mem
              (List.mem_filter.mpr ⟨hq', decide_eq_true hxhr⟩))
    exact ⟨hcomplete.trees, hcomplete.children⟩
  | drop q cells hno => exact absurd trivial hno

end Complete

/-! ### The value of a cell -/

/-- A cell has the same edges in all directions. -/
theorem cellGeom_cube (server : Server) (id : CellId) (i : Axis) :
    (server.cellGeom id).hi i - (server.cellGeom id).lo i = (server.cellGeom id).getSize := by
  obtain ⟨tree, path⟩ := id
  induction path with
  | nil =>
    simp only [Server.cellGeom, geomOf, Server.geom, getRootGeom, NodeGeometry.ofCenter,
      NodeGeometry.getSize]
    ring
  | cons k path ih =>
    have hsize : (server.cellGeom ⟨tree, k :: path⟩).getSize =
        (server.cellGeom ⟨tree, path⟩).getSize / 2 := NodeGeometry.getSize_getChild _
    rw [hsize, ← ih]
    change ((server.cellGeom ⟨tree, path⟩).getChild k).hi i -
      ((server.cellGeom ⟨tree, path⟩).getChild k).lo i = _
    simp only [NodeGeometry.getChild, NodeGeometry.getCenter]
    split_ifs <;> ring

/-- The value of a child is one if that of its parent is, and else it is its own. -/
theorem testChild_eq {server : Server} {view : View} {id : CellId} {v : ℤ} (hv : v ≤ 1)
    {k : ChildNr} {c : CellObject} (hc : c.geometry = server.cellGeom (id.child k)) :
    view.testChild (server.cell id v) k = if v = 1 then 1 else
      isInsideFrustum view.frustumPlanes c.radius (mul4x4 view.cameraMatrix c.getCenter) := by
  have hradius : c.radius = (server.cell id v).radius / 2 := by
    have hsize : (server.cellGeom (id.child k)).getSize = (server.cellGeom id).getSize / 2 :=
      NodeGeometry.getSize_getChild _
    simp only [CellObject.radius, Cell.scale, hc]
    change (server.cellGeom (id.child k)).getSize / 2 * root3 =
      (server.cellGeom id).getSize / 2 * root3 / 2
    rw [hsize]
    ring
  have hcenter : c.getCenter = ((server.cell id v).geometry.getChild k).getCenter := by
    funext i
    have hcube := cellGeom_cube server (id.child k) i
    simp only [CellObject.getCenter, Cell.offset, Cell.scale, hc]
    change (server.cellGeom (id.child k)).lo i + (server.cellGeom (id.child k)).getSize / 2 =
      ((server.cellGeom (id.child k)).lo i + (server.cellGeom (id.child k)).hi i) / 2
    rw [← hcube]
    ring
  rw [View.testChild, show (server.cell id v).insideFrustum = v from rfl, hradius, hcenter]
  by_cases hone : v = 1
  · rw [if_neg (by omega), if_pos hone, hone]
  · rw [if_pos (by omega), if_neg hone]

/-- The parent of a cell that is visited. -/
theorem Visited.parent {server : Server} {view : View} {treesInfo : List (Option TreeInfo)}
    {id : CellId} {k : ChildNr} {w : ℤ} (h : Visited server view treesInfo (id.child k) w) :
    ∃ v, Visited server view treesInfo id v ∧ w = view.testChild (server.cell id v) k := by
  generalize hid : id.child k = id' at h
  cases h with
  | root t => exact absurd hid (CellId.child_ne_root _ _ _)
  | child k' hparent =>
    obtain ⟨rfl, rfl⟩ := CellId.child_injective hid
    exact ⟨_, hparent, rfl⟩

/-! ### The results of a query -/

namespace State

/-- `finishedCallback(result)` is called for a query that is not interrupted, over trees with
distinct roots, in whose steps a condition holds. -/
structure Finishes (server : Server) (ok : State → Event → Prop) (s : State)
    (result : List CellObject) : Prop where
  run : ∃ page s₀ e s₁, Reach (Web.step server) (fun _ _ => True) (.start page) s₀ ∧
    Web.step server e s₀ = some s₁ ∧ s₀.Begins s₁ ∧ Reach (Web.step server) ok s₁ s
  uninterrupted : s.interruptFrustumQuery = false
  distinct : DistinctRoots s.page.treesInfo
  finished : ∃ e s', Web.step server e s = some s' ∧ s'.log = .finished result :: s.log

variable {server : Server} {s t : State} {result result' : List CellObject}

theorem values_start (hfresh : s.Fresh) (scope : ℕ) : Values server s.core (.start scope) where
  queued r hr := by
    have hmem : r ∈ s.queue := hr
    simp [hfresh.queue] at hmem
  requested q hq := by
    have hmem : q ∈ s.requests := hq
    simp [hfresh.requests] at hmem
  running _ _ _ hcur := by cases hcur

theorem complete_start (s : State) (scope : ℕ) : Complete s.core (.start scope) where
  trees _ hi := absurd hi (Nat.not_lt_zero _)
  children r k hk := by simp [Progress.Dealt, Progress.start] at hk

/-- What holds when `finishedCallback` is called. -/
theorem Finishes.atEnd (h : Finishes server Delivers s result) : s.Sound server ∧
    result = s.result ∧ s.requests = [] ∧ ∃ p, Order s.core p ∧ Values server s.core p ∧
      Complete s.core p ∧ p.done = s.queue ∧ s.page.treesInfo.length ≤ p.trees := by
  obtain ⟨page, s₀, e₀, s₁, hreach₀, hstep₀, hbegins, hreach⟩ := h.run
  obtain ⟨hsound₀, haccounted₀, -⟩ := live_of_reach (I := fun _ _ => True) hreach₀
    (Sound.start server page) (fresh_start page) (fun _ _ _ => False.elim) (fun _ _ _ => trivial)
    fun _ _ _ _ _ _ _ _ => trivial
  have hfresh := fresh_of_begins haccounted₀ hstep₀ hbegins
  obtain ⟨hsound, haccounted, hlive⟩ := live_of_reach
    (I := fun c p => DistinctRoots c.treesInfo → Order c p ∧ Values server c p ∧ Complete c p)
    hreach (hsound₀.step hstep₀) hfresh (fun _ _ hok (_ : True) => hok)
    (fun s scope hfresh hd =>
      ⟨order_start hfresh hd scope, values_start hfresh scope, complete_start s scope⟩)
    fun c c' p p' _ hlocated hI hadvance hd => by
      obtain ⟨horder, hvalues, hcomplete⟩ := hI (by rwa [← hadvance.treesInfo])
      exact ⟨horder.advance hadvance, hvalues.advance horder hlocated hadvance,
        hcomplete.advance horder hadvance⟩
  obtain ⟨e, s', hs, hlog⟩ := h.finished
  obtain ⟨⟨rest, hstack⟩, hend, heq, hzero⟩ := results_of_step haccounted hs (.inr hlog)
  rw [h.uninterrupted] at hend
  obtain ⟨p, hI, hcur, hbegun, htrees⟩ :=
    hlive.atEnd h.uninterrupted hstack (hend.resolve_left (by decide))
  obtain ⟨horder, hvalues, hcomplete⟩ := hI h.distinct
  refine ⟨hsound, heq, ?_, p, horder, hvalues, hcomplete, ?_, htrees⟩
  · -- every request in flight would be counted
    obtain ⟨lost, hcount, -⟩ := haccounted.inFlight_eq
    have hle := hzero hlog
    have hopen : openRequests s.log = [] := List.length_eq_zero_iff.mp (by omega)
    exact List.eq_nil_iff_forall_not_mem.mpr fun q hq => by simpa [hopen] using haccounted.isOpen q hq
  · rw [← hbegun, Progress.begun, hcur]
    simp

/-- The result of a query whose requests are delivered is what the query visits. -/
theorem Finishes.mem_iff (h : Finishes server Delivers s result) (id : CellId) (v : ℤ) :
    (∃ c ∈ result, c.id = id ∧ c.insideFrustum = v) ↔
      Visited server s.view s.page.treesInfo id v := by
  obtain ⟨hsound, rfl, hrequests, p, horder, hvalues, hcomplete, hdone, htrees⟩ := h.atEnd
  -- what is asked for is in the queue, with its value
  have hasked : ∀ {id : CellId} {v : ℤ}, id ∈ s.core.asked →
      Visited server s.view s.page.treesInfo id v →
      ∃ r ∈ s.queue, (s.cells r).id = id ∧ (s.cells r).insideFrustum = v := by
    intro id v hmem hvisited
    rw [Core.asked, show s.core.requests = [] from hrequests, List.map_nil, List.append_nil] at hmem
    obtain ⟨r, hr, rfl⟩ := List.mem_map.mp hmem
    exact ⟨r, hr, rfl, (hvalues.queued r hr).unique hvisited⟩
  constructor
  · rintro ⟨c, hc, rfl, rfl⟩
    obtain ⟨r, hr, rfl⟩ := List.mem_map.mp hc
    exact hvalues.queued r hr
  · intro hvisited
    suffices hqueue : ∃ r ∈ s.queue, (s.cells r).id = id ∧ (s.cells r).insideFrustum = v by
      obtain ⟨r, hr, hid, hv⟩ := hqueue
      exact ⟨s.cells r, List.mem_map_of_mem hr, hid, hv⟩
    induction hvisited with
    | root t hmem hon =>
      obtain ⟨i, hi⟩ := List.mem_iff_getElem?.mp hmem
      have hlt : i < p.trees :=
        (List.getElem?_eq_some_iff.mp hi).1.trans_le htrees
      exact hasked (hcomplete.trees i hlt t hi hon) (.root t hmem hon)
    | @child id v k hparent hexpands hhas hwants ih =>
      obtain ⟨r, hr, rfl, rfl⟩ := ih
      have halike := alike_cell (hsound.located r (hsound.queued r hr))
      have hdealt : p.Dealt r k := .inl (hdone ▸ hr)
      exact hasked (hcomplete.children r k hdealt (halike.expands.mpr hexpands)
        ((halike.hasChild k).trans hhas) ((halike.wants k).trans hwants))
        (.child k hparent hexpands hhas hwants)

theorem Finishes.geometry (h : Finishes server Delivers s result) {c : CellObject}
    (hc : c ∈ result) : c.geometry = server.cellGeom c.id := by
  obtain ⟨hsound, rfl, -⟩ := h.atEnd
  obtain ⟨r, hr, rfl⟩ := List.mem_map.mp hc
  exact (hsound.located r (hsound.queued r hr)).1

theorem page_of_play {ok : State → Event → Prop} [∀ s e, Decidable (ok s e)] {events : List Event}
    (h : play (fun e s => if ok s e then Web.step server e s else none) events s = some t)
    (hevents : ∀ e ∈ events, ∀ page, e ≠ .getFrustum page) : t.page = s.page := by
  induction events generalizing s with
  | nil => rw [Option.some.inj h]
  | cons e events ih =>
    obtain ⟨s₁, hs, hrest⟩ := Option.bind_eq_some_iff.mp h
    rw [ih hrest fun e' he' => hevents e' (List.mem_cons_of_mem _ he')]
    change (if ok s e then Web.step server e s else none) = some s₁ at hs
    split_ifs at hs
    rcases page_step hs with hpage | he
    · exact hpage
    · exact absurd he (hevents e List.mem_cons_self s₁.page)

/-- A query that is played to its end. -/
theorem finishes_of_play {ok : State → Event → Prop} [∀ s e, Decidable (ok s e)] {page₀ page : Page}
    {events : List Event} (h₀ : Reach (Web.step server) (fun _ _ => True) (.start page₀) t)
    (hstack : t.stack = [])
    (h : play (fun e s => if ok s e then Web.step server e s else none) events
      (t.getFrustum page) = some s)
    (hend : s.AtEnd = true) : Finishes server ok s s.result := by
  obtain ⟨hfinished, hint, hdistinct⟩ := finishes_of_atEnd server hend
  refine ⟨⟨page₀, t, .getFrustum page, t.getFrustum page, h₀, ?_, ?_, Reach.of_play_if h⟩, hint,
    hdistinct, _, hfinished⟩
  · simp [Web.step, hstack]
  · rw [State.getFrustum, State.triggerFrustum, if_neg (by simp)]
    refine ⟨_, rfl, ?_⟩
    rw [cancelPending]
    split_ifs
    · exact List.suffix_cons _ _
    · exact List.suffix_refl _

/-- The steps of a query whose cells are all in the cache. -/
def cachedAnswers : List Event := List.replicate 15 .run

end State

end MegaTree.Web
