import MegaTree.Web.Traversal

/-!
# Uninterrupted queries

What holds of a query until it is interrupted, and of the results that its callbacks get.

* `Live.step` : what every `Advance` keeps holds until the query is interrupted.
* `results_of_step` : `progressCallback` and `finishedCallback` get the cells of the queue.
-/

namespace MegaTree.Web

open Effect

namespace State

variable {server : Server} {s : State}

/-- What the functions of a query do not change. -/
theorem run_frame {s' : State} (hs : s.run server = some s') : s'.page = s.page ∧
    (s.interruptFrustumQuery = true → s'.interruptFrustumQuery = true) := by
  refine run_cases (P := fun s' => s'.page = s.page ∧
    (s.interruptFrustumQuery = true → s'.interruptFrustumQuery = true))
    hs ?root ?start ?wait ?cell ?results ?chunk ?next ?child ?childrenEnd
  case root =>
    intro i scope rest treeInfo _ _
    unfold State.getRoot
    split
    · next t _ =>
      split_ifs
      · have hb : Callback.Bound
            (setTreeInfo { s with stack := .roots (i + 1) scope :: rest } scope (some t))
            (.root scope) := by simp [Callback.Bound, setTreeInfo]
        obtain ⟨hpage, -, -, hint, -⟩ := getCell_frame hb (.root t.name) (server.geom t.name)
        exact ⟨hpage, hint.trans⟩
      · exact ⟨rfl, id⟩
    · exact ⟨rfl, id⟩
  case start => exact fun _ _ _ _ _ _ => ⟨rfl, id⟩
  case wait => exact fun _ _ _ _ _ _ => ⟨rfl, id⟩
  case cell =>
    intro rest r _ _ hno
    refine ⟨?_, fun hyes => Bool.noConfusion (hyes.symm.trans hno)⟩
    rcases processCell_cases { s with stack := .after :: rest } r with heq | ⟨heq, -⟩ | ⟨heq, -⟩
    · rw [heq]
      rfl
    · rw [heq]
      rfl
    · rw [heq]
      rfl
  case results =>
    intro rest _ _
    obtain ⟨hpage, -, -, -, hint⟩ := giveResults_frame { s with stack := rest }
    exact ⟨hpage, hint.trans⟩
  case chunk => exact fun _ _ _ => ⟨rfl, id⟩
  case next => exact fun _ _ => ⟨rfl, id⟩
  case child =>
    intro r k scope rest _
    unfold State.processChild
    split_ifs
    · have hb : Callback.Bound
          (setChildInFrustum { s with stack := .children r (k + 1) scope :: rest } scope
            (s.view.testChild (s.cells r) k)) (.child r scope) := trivial
      obtain ⟨hpage, -, -, hint, -⟩ := getCell_frame hb ((s.cells r).id.child k)
        ((s.cells r).geometry.getChild k)
      exact ⟨hpage, hint.trans⟩
    · exact ⟨rfl, id⟩
    · exact ⟨rfl, id⟩
  case childrenEnd => exact fun _ _ _ _ _ _ => ⟨rfl, id⟩

theorem page_startQuery (s : State) (id : ℤ) : (s.cancelPending.startQuery id).page = s.page := by
  rw [startQuery, cancelPending]
  split_ifs <;> rfl

theorem page_getFrustum (s : State) (page : Page) : (s.getFrustum page).page = page := by
  rw [State.getFrustum, State.triggerFrustum, if_neg (by simp), page_startQuery]

/-- The variables of the page change only when `getFrustum` is called. -/
theorem page_step {e : Event} {s' : State} (hs : Web.step server e s = some s') :
    s'.page = s.page ∨ e = .getFrustum s'.page := by
  refine step_cases hs ?run ?getFrustum ?processQueue ?triggerFrustum ?success ?failure
  case run => exact fun _ hrun => .inl (run_frame hrun).1
  case getFrustum =>
    rintro page rfl - rfl
    rw [page_getFrustum]
    exact .inr rfl
  case processQueue =>
    rintro i - - - rfl
    exact .inl rfl
  case triggerFrustum =>
    rintro i id - - - rfl
    rcases triggerFrustum_cases { s with timers := s.timers.eraseIdx i } id with heq | heq
    · rw [heq]
      exact .inl rfl
    · rw [heq, page_startQuery]
      exact .inl rfl
  case success =>
    rintro q - - - rfl
    by_cases hb : q.callback.Bound (s.answered server q)
    · exact .inl (loaded_frame hb s.newCell).1
    · rw [State.onload, loaded_of_not_bound hb]
      exact .inl rfl
  case failure =>
    rintro q - - - rfl
    exact .inl rfl

/-- An interrupted query stays interrupted, until the next one begins. -/
theorem interrupted_step {exact : Prop} (hint : s.interruptFrustumQuery = true)
    (haccounted : s.Accounted exact 0) {e : Event} {s' : State}
    (hs : Web.step server e s = some s') : s'.interruptFrustumQuery = true ∨ s'.Fresh := by
  refine step_cases hs ?run ?getFrustum ?processQueue ?triggerFrustum ?success ?failure
  case run => exact fun _ hrun => .inl ((run_frame hrun).2 hint)
  case getFrustum =>
    rintro page - hstack rfl
    exact .inr (fresh_getFrustum haccounted hstack page)
  case processQueue =>
    rintro i - - - rfl
    exact .inl hint
  case triggerFrustum =>
    rintro i id - hstack - rfl
    have htimers : ({ s with timers := s.timers.eraseIdx i } : State).Accounted exact 0 :=
      ⟨haccounted.inFlight_eq, haccounted.isOpen, haccounted.stored⟩
    rcases triggerFrustum_cases { s with timers := s.timers.eraseIdx i } id with heq | heq
    · rw [heq]
      exact .inl hint
    · rw [heq]
      exact .inr (fresh_startQuery htimers hstack id)
  case success =>
    rintro q - - - rfl
    by_cases hb : q.callback.Bound (s.answered server q)
    · exact .inl ((loaded_frame hb s.newCell).2.2.2.1.trans hint)
    · rw [State.onload, loaded_of_not_bound hb]
      exact .inl hint
  case failure =>
    rintro q - - - rfl
    exact .inl hint

/-! ### Results and beginnings of queries -/

/-- Other entries than those of the callbacks of queries and of their beginnings. -/
def Minor : LogEntry → Prop
  | .query => False
  | .issued _ => True
  | .succeeded _ => True
  | .failed _ => True
  | .cancel => True
  | .progress _ => False
  | .finished _ => False

/-- No query begins in the step, and no callback of a query is called. -/
def Quiet (s s' : State) : Prop :=
  ∀ x log, s'.log = x :: log → s.log <:+ log → Minor x

theorem quiet_of_log {s' : State} (h : s'.log = s.log) : s.Quiet s' := by
  intro x log heq hsuffix
  have hlength := hsuffix.length_le
  rw [← h, heq, List.length_cons] at hlength
  omega

theorem quiet_of_cons {s' : State} {x : LogEntry} {log : List LogEntry} (h : s'.log = x :: log)
    (hx : Minor x) : s.Quiet s' := by
  intro y log' heq _
  rw [← (List.cons.inj (h.symm.trans heq)).1]
  exact hx

theorem log_loaded (s : State) (callback : Callback) (r : Ref) :
    (s.loaded callback r).log = s.log := by
  by_cases hb : callback.Bound s
  · obtain ⟨calls, heq⟩ := loaded_eq hb r
    rw [heq]
    split_ifs <;> rfl
  · rw [loaded_of_not_bound hb]

theorem quiet_getCell (t : State) (id : CellId) (geometry : NodeGeometry) (callback : Callback) :
    s.Quiet (t.getCell id geometry callback) := by
  rcases getCell_cases t id geometry callback with ⟨r, -, heq⟩ | ⟨-, heq⟩ | ⟨-, -, heq⟩
  · exact quiet_of_cons (x := .succeeded t.newXhr) (by rw [heq, log_loaded]; rfl) trivial
  · exact quiet_of_cons (x := .issued t.newXhr) (by rw [heq]; rfl) trivial
  · exact quiet_of_cons (x := .issued t.newXhr) (by rw [heq]; rfl) trivial

/-- The callbacks of a query are called at the end of `processQueue`. -/
theorem results_of_run {s' : State} (hs : s.run server = some s') : s.Quiet s' ∨
    ∃ rest, s.stack = .loop :: rest ∧
      (s.interruptFrustumQuery = true ∨ s.queue[s.queueIndex]? = none) ∧
      s' = State.giveResults { s with stack := rest } := by
  refine run_cases (P := fun s' => s.Quiet s' ∨ ∃ rest, s.stack = .loop :: rest ∧
      (s.interruptFrustumQuery = true ∨ s.queue[s.queueIndex]? = none) ∧
      s' = State.giveResults { s with stack := rest }) hs ?root ?start ?wait ?cell ?results ?chunk
    ?next ?child ?childrenEnd
  case root =>
    intro i scope rest treeInfo _ _
    unfold State.getRoot
    split
    · split_ifs
      · exact .inl (quiet_getCell _ _ _ _)
      · exact .inl (quiet_of_log rfl)
    · exact .inl (quiet_of_log rfl)
  case start => exact fun _ _ _ _ _ _ => .inl (quiet_of_log rfl)
  case wait => exact fun _ _ _ _ _ _ => .inl (quiet_of_log rfl)
  case cell =>
    intro rest r _ _ _
    rcases processCell_cases { s with stack := .after :: rest } r with heq | ⟨heq, -⟩ | ⟨heq, -⟩
    · exact .inl (quiet_of_cons (x := .cancel) (by rw [heq]; rfl) trivial)
    · exact .inl (quiet_of_log (by rw [heq]; rfl))
    · exact .inl (quiet_of_log (by rw [heq]; rfl))
  case results => exact fun rest hstack hend => .inr ⟨rest, hstack, hend, rfl⟩
  case chunk => exact fun _ _ _ => .inl (quiet_of_log rfl)
  case next => exact fun _ _ => .inl (quiet_of_log rfl)
  case child =>
    intro r k scope rest _
    unfold State.processChild
    split_ifs
    · exact .inl (quiet_getCell _ _ _ _)
    · exact .inl (quiet_of_log rfl)
    · exact .inl (quiet_of_log rfl)
  case childrenEnd => exact fun _ _ _ _ _ _ => .inl (quiet_of_log rfl)

/-- A step is quiet, begins a query, or gives the results of one. -/
theorem step_kinds {exact : Prop} (haccounted : s.Accounted exact 0) {e : Event} {s' : State}
    (hs : Web.step server e s = some s') : s.Quiet s' ∨ (s'.Fresh ∧ ∃ log, s'.log = .query :: log) ∨
      ∃ rest, s.stack = .loop :: rest ∧
        (s.interruptFrustumQuery = true ∨ s.queue[s.queueIndex]? = none) ∧
        s' = State.giveResults { s with stack := rest } := by
  refine step_cases hs ?run ?getFrustum ?processQueue ?triggerFrustum ?success ?failure
  case run => exact fun _ hrun => (results_of_run hrun).imp_right .inr
  case getFrustum =>
    rintro page - hstack rfl
    refine .inr (.inl ⟨fresh_getFrustum haccounted hstack page, ?_⟩)
    rw [State.getFrustum, State.triggerFrustum, if_neg (by simp)]
    exact ⟨_, rfl⟩
  case processQueue =>
    rintro i - - - rfl
    exact .inl (quiet_of_log rfl)
  case triggerFrustum =>
    rintro i id - hstack - rfl
    have htimers : ({ s with timers := s.timers.eraseIdx i } : State).Accounted exact 0 :=
      ⟨haccounted.inFlight_eq, haccounted.isOpen, haccounted.stored⟩
    rcases triggerFrustum_cases { s with timers := s.timers.eraseIdx i } id with heq | heq
    · rw [heq]
      exact .inl (quiet_of_log rfl)
    · rw [heq]
      exact .inr (.inl ⟨fresh_startQuery htimers hstack id, _, rfl⟩)
  case success =>
    rintro q - - - rfl
    exact .inl (quiet_of_cons (x := .succeeded q.xhr) (by rw [State.onload, log_loaded]; rfl) trivial)
  case failure =>
    rintro q - - - rfl
    exact .inl (quiet_of_cons rfl trivial)

/-- Results are copies of the cells in the queue. -/
theorem results_of_step {exact : Prop} (haccounted : s.Accounted exact 0) {e : Event} {s' : State}
    (hs : Web.step server e s = some s') {result : List CellObject}
    (hlog : s'.log = .progress result :: s.log ∨ s'.log = .finished result :: s.log) :
    (∃ rest, s.stack = .loop :: rest) ∧
      (s.interruptFrustumQuery = true ∨ s.queue[s.queueIndex]? = none) ∧ result = s.result ∧
      (s'.log = .finished result :: s.log → s.inFlight ≤ 0) := by
  rcases step_kinds haccounted hs with hquiet | ⟨-, log, hquery⟩ | ⟨rest, hstack, hend, rfl⟩
  · rcases hlog with hlog | hlog
    · exact (hquiet _ _ hlog (List.suffix_refl _)).elim
    · exact (hquiet _ _ hlog (List.suffix_refl _)).elim
  · rw [hquery] at hlog
    simp at hlog
  · refine ⟨⟨rest, hstack⟩, hend, ?_⟩
    unfold State.giveResults at hlog ⊢
    by_cases hpos : s.inFlight > 0
    · rw [if_pos hpos] at hlog ⊢
      simp only [List.cons.injEq, LogEntry.progress.injEq, and_true, reduceCtorEq,
        or_false] at hlog
      exact ⟨hlog.symm, by simp⟩
    · rw [if_neg hpos] at hlog ⊢
      simp only [List.cons.injEq, LogEntry.finished.injEq, and_true, reduceCtorEq,
        false_or] at hlog
      exact ⟨hlog.symm, fun _ => not_lt.mp hpos⟩

/-- A query begins in the step. -/
def Begins (s s' : State) : Prop := ∃ log, s'.log = .query :: log ∧ s.log <:+ log

theorem fresh_of_begins {exact : Prop} (haccounted : s.Accounted exact 0) {e : Event} {s' : State}
    (hs : Web.step server e s = some s') (h : s.Begins s') : s'.Fresh := by
  obtain ⟨log, hlog, hsuffix⟩ := h
  rcases step_kinds haccounted hs with hquiet | ⟨hfresh, -⟩ | ⟨rest, -, -, rfl⟩
  · exact (hquiet _ _ hlog hsuffix).elim
  · exact hfresh
  · unfold State.giveResults at hlog
    by_cases hpos : s.inFlight > 0
    · rw [if_pos hpos] at hlog
      cases (List.cons.inj hlog).1
    · rw [if_neg hpos] at hlog
      cases (List.cons.inj hlog).1

/-! ### Invariants of a query -/

/-- The query is interrupted, will be interrupted, or `I` holds of it. -/
def Live (I : Core → Progress → Prop) (s : State) : Prop :=
  s.interruptFrustumQuery = true ∨ (∃ r k, s.Reentered r k) ∨ ∃ p, s.Flat p ∧ I s.core p

theorem Fresh.live {I : Core → Progress → Prop} (h : s.Fresh)
    (hI : ∀ scope, I s.core (.start scope)) : s.Live I := by
  obtain ⟨scope, hflat⟩ := h.flat
  exact .inr (.inr ⟨_, hflat, hI scope⟩)

/-- What holds of a query that begins and survives every `Advance` holds until the query is
interrupted. -/
theorem Live.step {exact : Prop} {I : Core → Progress → Prop} (h : s.Live I)
    (hsound : s.Sound server) (haccounted : s.Accounted exact 0) {e : Event}
    (hok : exact → s.Delivers e) {s' : State} (hs : Web.step server e s = some s')
    (hfresh : s'.Fresh → ∀ scope, I s'.core (.start scope))
    (hstep : ∀ p p', s.Flat p → s'.Flat p' → I s.core p →
      Advance exact server s.core p s'.core p' → I s'.core p') : s'.Live I := by
  have hbegins : s'.Fresh → s'.Live I := fun hnew => hnew.live (hfresh hnew)
  cases hint : s.interruptFrustumQuery with
  | true =>
    rcases interrupted_step hint haccounted hs with hyes | hnew
    · exact .inl hyes
    · exact hbegins hnew
  | false =>
    rcases h with hyes | ⟨r, k, hre⟩ | ⟨p, hflat, hI⟩
    · rw [hint] at hyes
      cases hyes
    · obtain ⟨f, rest, hstack⟩ : ∃ f rest, s.stack = f :: rest := by
        rcases hre.stack with ⟨rest, hloop⟩ | ⟨n, scope, rest, -, hchildren⟩
        · exact ⟨_, _, hloop⟩
        · exact ⟨_, _, hchildren⟩
      have hbusy : s.stack ≠ [] := by
        rw [hstack]
        exact List.cons_ne_nil _ _
      refine step_cases hs ?run ?getFrustum ?processQueue ?triggerFrustum ?success ?failure
      case run =>
        rintro - hrun
        rcases hre.run hsound hint hrun with hyes | hagain
        · exact .inl hyes
        · exact .inr (.inl ⟨r, k, hagain⟩)
      case getFrustum => exact fun _ _ hnil => absurd hnil hbusy
      case processQueue => exact fun _ _ hnil => absurd hnil hbusy
      case triggerFrustum => exact fun _ _ _ hnil => absurd hnil hbusy
      case success => exact fun _ _ _ hnil => absurd hnil hbusy
      case failure => exact fun _ _ _ hnil => absurd hnil hbusy
    · rcases hflat.step hsound haccounted hok hs with
        (hyes | hre | ⟨p', hflat', hadvance⟩) | hnew
      · exact .inl hyes
      · exact .inr (.inl hre)
      · exact .inr (.inr ⟨p', hflat', hstep p p' hflat hflat' hI hadvance⟩)
      · exact hbegins hnew

theorem fresh_start (page : Page) : (State.start page).Fresh :=
  ⟨⟨0, rfl, rfl, .rest rfl rfl le_rfl⟩, rfl, rfl, accounted_start True page⟩

/-- The cells of the queue are cells of the server. -/
def Located (server : Server) (c : Core) : Prop :=
  ∀ r ∈ c.queue, (c.cells r).geometry = server.cellGeom (c.cells r).id ∧
    (c.cells r).children = (server.files (c.cells r).id).headD 0

/-- What holds at every moment of a run, from the beginning of a query. -/
theorem live_of_reach {exact : Prop} {ok : State → Event → Prop} {I : Core → Progress → Prop}
    {s₀ : State} (h : Reach (Web.step server) ok s₀ s) (hsound : s₀.Sound server)
    (hfresh : s₀.Fresh) (hok : ∀ (s : State) e, ok s e → exact → s.Delivers e)
    (hbegin : ∀ (s : State) scope, s.Fresh → I s.core (.start scope))
    (hadvance : ∀ c c' p p', c.queue = p.begun ++ p.todo → Located server c → I c p →
      Advance exact server c p c' p' → I c' p') :
    s.Sound server ∧ s.Accounted exact 0 ∧ s.Live I := by
  have haccounted : s₀.Accounted exact 0 := by
    obtain ⟨lost, heq, hlost⟩ := hfresh.accounted.inFlight_eq
    exact ⟨⟨lost, heq, fun _ => hlost trivial⟩, hfresh.accounted.isOpen, hfresh.accounted.stored⟩
  refine h.invariant (I := fun s => s.Sound server ∧ s.Accounted exact 0 ∧ s.Live I)
    ⟨hsound, haccounted, hfresh.live fun scope => hbegin s₀ scope hfresh⟩ ?_
  rintro m e m' ⟨hm, haccm, hlive⟩ he hs
  have hdelivers : exact → m.Delivers e := hok m e he
  refine ⟨hm.step hs, haccm.step (fun hyes => (hdelivers hyes).1.fulfils) hs, ?_⟩
  exact hlive.step hm haccm hdelivers hs (fun hnew scope => hbegin m' scope hnew)
    fun p p' hflat _ => hadvance _ _ p p' hflat.queue fun r hr => hm.located r (hm.queued r hr)

end State

end MegaTree.Web
