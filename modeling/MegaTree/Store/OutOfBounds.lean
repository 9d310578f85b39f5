import MegaTree.Store.FastRun

/-!
# Points outside the root cell

`addPoint` checks a point against the root cell before it touches the tree.  A `TreeFastCache` has
no such check: it closes open nodes until one contains the point, and for a point outside the root
cell none does.  It closes the root as well and asserts at the empty stack
(`fastReach_addPoint_outside`), whatever nodes were open.
-/

namespace MegaTree

open Effect SpaceTree

variable (cfg : Config) in
/-- A call of `TreeFastCache::addPoint` returns, with no failed assertion on the way. -/
def Returns (pt col : Vec) (s : FastState) : Prop :=
  Spec (FastCache.addPoint cfg pt col s.nodes) (fun _ _ => True) (fun _ => False) s.store

variable {cfg : Config} {σ₀ : Store} {N : ℕ} {s : FastState} {pt : Vec}

/-- The stack of a fast cache always represents a tree. -/
theorem FastReach.holds (h0 : Reachable cfg σ₀ N)
    (h : FastReach cfg (fun _ _ _ => True) σ₀ N s) :
    ∃ V fs t T, FastHolds cfg noSummary noSummary s.store V s.nodes fs t T ∧ points T = s.size := by
  induction h with
  | create he =>
    obtain ⟨V, t, ht, hw⟩ := h0.holds
    refine Prog.wp_exec (X := fun _ => True) (Q := fun ncs σ => ∃ V fs t T,
      FastHolds cfg noSummary noSummary σ V ncs fs t T ∧ points T = N) ?_ he
    exact wp_create (J := noSummary) ht fun ncs σ' _ h' => ⟨V, [], t, t, h', hw⟩
  | @pop s nc pc ncs σ' hr hs _ he ih =>
    obtain ⟨V, fs, t, T, hh, hw⟩ := ih
    rw [hs] at hh
    obtain ⟨f, fs, rfl⟩ : ∃ f rest, fs = f :: rest := by
      obtain ⟨L, -, hsp⟩ := hh.spine
      cases hsp
      exact ⟨_, _, rfl⟩
    refine Prog.wp_exec (X := fun _ => True) (Q := fun _ σ => ∃ V fs t T,
      FastHolds cfg noSummary noSummary σ V (pc :: ncs) fs t T ∧ points T = s.size) ?_ he
    exact wp_popKeep hh fun V' σ' h' => ⟨V', fs, _, T, h', hw⟩
  | @insert s nc ncs ncs' p σ' hr hs hin hB he ih =>
    obtain ⟨V, fs, t, T, hh, hw⟩ := ih
    rw [hs] at hh he
    obtain ⟨L, -, hsp⟩ := hh.spine
    obtain ⟨m, -, hnh, -, -⟩ := hsp.top
    rw [hnh] at hin
    refine Prog.wp_exec (X := fun _ => True) (Q := fun ncs σ => ∃ V fs t T,
      FastHolds cfg noSummary noSummary σ V ncs fs t T ∧ points T = s.size + 1) ?_ he
    exact wp_addTop tolerant_noSummary hh (by rw [hw]; exact hB) hin (fun _ => trivial)
      fun u ncs' fs' t' V' σ' _ h' hw' => ⟨V', fs', t', u, h', by rw [hw', hw]⟩

/-- **A `TreeFastCache` never survives a point outside the root cell**: whatever its stack, every
call ends in the assertion at the empty stack. -/
theorem fastReach_addPoint_outside (h0 : Reachable cfg σ₀ N)
    (h : FastReach cfg (fun _ _ _ => True) σ₀ N s)
    (ho : cfg.rootGeometry.contains pt = false) (col : Vec) :
    ¬ Returns cfg pt col s ∧
      Spec (FastCache.addPoint cfg pt col s.nodes) (fun _ _ => False) (· = .emptyStack) s.store := by
  obtain ⟨V, fs, t, T, hh, -⟩ := h.holds h0
  have hfails : Spec (FastCache.addPoint cfg pt col s.nodes) (fun _ _ => False) (· = .emptyStack)
      s.store := by
    refine Prog.wp_bind.2 (wp_popOutside hh (fun _ => rfl) fun ncs' fs' t' V' σ' _ hin => ?_)
    -- no open cell contains the point, since all of them lie in the root cell
    have hroot := (leads_of_contains (c := col) hin).1
    rw [ho] at hroot
    cases hroot
  exact ⟨Prog.not_wp_of_fails Choice.plain hfails, hfails⟩

/-- A fast cache on a new tree that has taken two points of the root cell. -/
def twoInside : TreeM (List NodeCache) := do
  newTree .sample
  let ncs ← FastCache.create .sample
  let ncs ← FastCache.addPoint .sample (fun _ => 0) (fun _ => 0) ncs
  FastCache.addPoint .sample (fun _ => 3) (fun _ => 0) ncs

theorem exists_twoInside {f : List NodeCache × Store → Bool}
    (hrun : (twoInside.run Store.step Choice.plain .init).toOption.any f = true) :
    ∃ σ₀ s, Reachable .sample σ₀ 0 ∧ FastReach .sample (fun _ _ _ => True) σ₀ 0 s ∧
      f (s.nodes, s.store) = true := by
  obtain ⟨ncs', σ', he, hf⟩ := Prog.exists_exec hrun
  obtain ⟨⟨⟩, σ₀, hnew, he⟩ := he.of_bind
  obtain ⟨ncs, σ₁, hc, he⟩ := he.of_bind
  obtain ⟨ncs₁, σ₂, ha, he⟩ := he.of_bind
  obtain ⟨m, h₁⟩ := (FastReach.create (N := 0) hc).addPoint (p := (fun _ => 0, fun _ => 0))
    (by simp only; decide) ha
  obtain ⟨m', h₂⟩ := h₁.addPoint (p := (fun _ => 3, fun _ => 0)) (by simp only; decide) he
  exact ⟨σ₀, _, .new hnew, h₂, hf⟩

/-- Then a point with all coordinates 9 is offered; the root cell goes from -4 to 4. -/
theorem fastReach_addPoint_nine : ∃ σ₀ s, Reachable .sample σ₀ 0 ∧
    FastReach .sample (fun _ _ _ => True) σ₀ 0 s ∧
    ¬ Returns .sample (fun _ => 9) (fun _ => 0) s := by
  obtain ⟨σ₀, s, h₀, h, -⟩ := exists_twoInside (f := fun _ => true) (by decide +kernel)
  exact ⟨σ₀, s, h₀, h, (fastReach_addPoint_outside h₀ h (by decide +kernel) fun _ => 0).1⟩

/-- The run of that call. -/
theorem not_returns_nine : ∃ σ₀ s, Reachable .sample σ₀ 0 ∧
    FastReach .sample (fun _ _ _ => True) σ₀ 0 s ∧ 2 ≤ s.nodes.length ∧
    ¬ Returns .sample (fun _ => 9) (fun _ => 0) s := by
  obtain ⟨σ₀, s, h₀, h, hf⟩ := exists_twoInside (f := fun x => decide (2 ≤ x.1.length) &&
    ((FastCache.addPoint .sample (fun _ => 9) (fun _ => 0) x.1).run Store.step Choice.plain
      x.2).toOption.isNone) (by decide +kernel)
  obtain ⟨hlen, hnone⟩ := Bool.and_eq_true_iff.1 hf
  refine ⟨σ₀, s, h₀, h, of_decide_eq_true hlen, fun hret => ?_⟩
  rcases Prog.wp_run hret Choice.plain with ⟨ncs, σ', hok, -⟩ | ⟨_, -, hfalse⟩
  · rw [hok] at hnone
    cases hnone
  · exact hfalse

end MegaTree
