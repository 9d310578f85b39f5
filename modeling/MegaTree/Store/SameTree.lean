import MegaTree.Store.FastCache

/-!
# Fast insertion builds the same tree

Both insertion algorithms compute `insertPoints`, so from the same tree they lead to trees with the
same nodes, masks, counts and leaves: `fast_same_tree`.

* `Reachable cfg σ N` : the state of a client without live handles, after `N` points were inserted
  into a new tree by any mix of the two algorithms.
* `SameTree` : what the two trees have in common.
-/

namespace MegaTree

open Effect SpaceTree

/-- The states between the insertions of a client, with the number of points in the tree.  The
counts of the tree are 64 bits wide, so a fast insertion must not reach `2 ^ 64` points. -/
inductive Reachable (cfg : Config) : Store → ℕ → Prop
  | new {σ : Store} : Prog.Exec Store.step (newTree cfg) .init (.ret ()) σ → Reachable cfg σ 0
  | plain {σ σ' : Store} {N : ℕ} {pts : List (Vec × Vec)} : Reachable cfg σ N →
      Prog.Exec Store.step (addPoints cfg pts) σ (.ret ()) σ' →
      Reachable cfg σ' (N + (inBounds cfg pts).length)
  | fast {σ σ' : Store} {N : ℕ} {pts : List (Vec × Vec)} : Reachable cfg σ N →
      N + pts.length < 2 ^ 64 → Prog.Exec Store.step (FastCache.insertAll cfg pts) σ (.ret ()) σ' →
      Reachable cfg σ' (N + pts.length)

/-- The same node ids, masks and counts, and the same leaves. -/
def SameTree (cfg : Config) (σ₁ σ₂ : Store) : Prop :=
  ∀ π, match nodeAt cfg σ₁ π, nodeAt cfg σ₂ π with
    | none, none => True
    | some a, some b => a.children = b.children ∧ a.count = b.count ∧
        (a.children = 0 → a.point = b.point ∧ a.color = b.color)
    | _, _ => False

/-- The life of a `TreeFastCache` that inserts the given points and is cleared then. -/
def insertAndClear (cfg : Config) (pts : List (Vec × Vec)) : TreeM (List NodeCache) := do
  let nodes ← FastCache.create cfg
  let nodes ← FastCache.addPoints cfg pts nodes
  FastCache.clear cfg nodes

variable {cfg : Config} {I I' : Summary} {σ σ₁ σ₂ : Store} {V V₁ V₂ : Path → Option Node}
  {t : CellTree} {N : ℕ} {X : Err → Prop}

/-- **A client without live handles always finds a tree in the store.** -/
theorem Reachable.holds (h : Reachable cfg σ N) :
    ∃ V t, Holds cfg noSummary σ V t ∧ points t = N := by
  induction h with
  | new he =>
    exact Prog.wp_exec (X := fun _ => True)
      (wp_newTree_holds (Q := fun _ σ => ∃ V t, Holds cfg noSummary σ V t ∧ points t = 0)
        fun V σ' h => ⟨V, .empty, h, rfl⟩) he
  | @plain σ σ' N pts _ he ih =>
    obtain ⟨V, t, ht, rfl⟩ := ih
    exact Prog.wp_exec (X := fun _ => True)
      (wp_addPoints (Q := fun _ σ' => ∃ V u, Holds cfg noSummary σ' V u ∧
        points u = points t + (inBounds cfg pts).length) (fun _ _ _ _ => trivial) ht
        (fun _ => trivial) (fun _ => trivial) fun u V' σ' _ h' hw => ⟨V', u, h', hw⟩) he
  | @fast σ σ' N pts _ hB he ih =>
    obtain ⟨V, t, ht, rfl⟩ := ih
    exact Prog.wp_exec (X := fun _ => True)
      (wp_insertAll (Q := fun _ σ' => ∃ V u, Holds cfg noSummary σ' V u ∧
        points u = points t + pts.length) ht hB (fun _ => trivial) (fun _ => trivial)
        fun u V' σ' _ h' hw _ => ⟨V', u, h', hw⟩) he

theorem Rep.same {π : Path} {g : NodeGeometry} (h₁ : Rep I V₁ π t) (h₂ : Rep I' V₂ π t)
    (hf : Shaped cfg g t) (ρ : Path) : match V₁ (ρ ++ π), V₂ (ρ ++ π) with
      | none, none => True
      | some a, some b => a.children = b.children ∧ a.count = b.count ∧
          (a.children = 0 → a.point = b.point ∧ a.color = b.color)
      | _, _ => False := by
  induction t generalizing π g ρ with
  | empty => rw [h₁ ρ, h₂ ρ]; trivial
  | leaf a =>
    rcases List.eq_nil_or_concat ρ with rfl | ⟨ξ, i, rfl⟩
    · rw [List.nil_append, h₁.1, h₂.1]
      exact ⟨rfl, rfl, fun _ => ⟨rfl, rfl⟩⟩
    · rw [List.concat_eq_append, List.append_assoc, List.singleton_append, h₁.2, h₂.2]
      trivial
  | branch kids ih =>
    rcases List.eq_nil_or_concat ρ with rfl | ⟨ξ, i, rfl⟩
    · obtain ⟨⟨a, ha, hka, hma, -⟩, -⟩ := h₁
      obtain ⟨⟨b, hb, hkb, hmb, -⟩, -⟩ := h₂
      rw [List.nil_append, ha, hb]
      refine ⟨Node.children_ext fun i => ?_, hka.trans hkb.symm, fun h0 => ?_⟩
      · rw [← Node.hasChild_eq, ← Node.hasChild_eq, Bool.eq_iff_iff, hma, hmb]
      · obtain ⟨-, ⟨i, hi⟩, -⟩ := hf
        have := Node.isLeaf_iff_hasChild.1 (Node.isLeaf_iff.2 h0) i
        rw [(hma i).2 hi] at this
        cases this
    · rw [List.concat_eq_append, List.append_assoc, List.singleton_append]
      exact ih i (h₁.2 i) (h₂.2 i) (hf.2.2 i) ξ

/-- Two stores that hold the same occupied tree. -/
theorem Holds.same (h₁ : Holds cfg I σ₁ V₁ t) (hS : Stores cfg σ₂ V₂) (h₂ : Opened I' V₂ [] t)
    (ht : t ≠ .empty) : SameTree cfg σ₁ σ₂ := by
  intro π
  have h := (h₁.opened.rep ht).same (h₂.rep ht) h₁.shaped π
  rw [List.append_nil] at h
  rw [h₁.stores.nodeAt_eq, hS.nodeAt_eq]
  exact h

theorem SameTree.of_files (h : σ₂.files = σ₁.files) : SameTree cfg σ₁ σ₂ := by
  intro π
  have hn : nodeAt cfg σ₂ π = nodeAt cfg σ₁ π := by
    unfold nodeAt Store.lookup
    rw [h]
  rw [hn]
  cases nodeAt cfg σ₁ π with
  | none => trivial
  | some a => exact ⟨rfl, rfl, fun _ => ⟨rfl, rfl⟩⟩

/-- The tree of a fast cache that was cleared; the new root handle is live. -/
theorem wp_insertAndClear {Q : List NodeCache → Store → Prop} {pts : List (Vec × Vec)}
    (h : Holds cfg noSummary σ V t) (hB : points t + pts.length < countBound)
    (hXo : (∃ p ∈ pts, cfg.rootGeometry.contains p.1 = false) → X .emptyStack)
    (hXd : insertPoints cfg pts t = none → X .depthLimit)
    (hQ : ∀ u ncs V' σ', insertPoints cfg pts t = some u → Stores cfg σ' V' →
      Opened noSummary V' [] u → (pts = [] → σ'.files = σ.files) → Q ncs σ') :
    Spec (insertAndClear cfg pts) Q X σ := by
  refine Prog.wp_bind.2 (wp_create (J := noSummary) h fun ncs₁ σ₁ hf₁ h₁ => ?_)
  refine Prog.wp_bind.2 (wp_fastAddPoints h₁ hB hXo hXd
    fun u ncs₂ fs t' V₂ σ₂ hu _ h₂ hnil₂ => ?_)
  refine Prog.wp_bind.2 (wp_destroy h₂ fun V₃ σ₃ h₃ hnil₃ => ?_)
  refine wp_create (J := noSummary) h₃ fun ncs₄ σ₄ hf₄ h₄ => hQ u ncs₄ V₃ σ₄ hu h₄.stores h₄.opened
    fun hpts => ?_
  obtain ⟨rfl, rfl⟩ := hnil₂ hpts
  rw [hf₄, hnil₃ (h₂.frames_eq h₁), hf₁]

end MegaTree
