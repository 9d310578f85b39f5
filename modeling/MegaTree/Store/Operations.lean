import MegaTree.Store.AsyncQuery
import MegaTree.Tree.Session

/-!
# Any sequence of operations

`Operable cfg σ` : no handle is live and the store holds a tree, possibly one without points.  All
operations keep it: the queries do not change the files, and on a tree without points they stop at
the assertion that a node is not empty, unless the box does not touch the root cell.
-/

namespace MegaTree

open Effect SpaceTree

variable {cfg : Config} {I : Summary} {σ σ' : Store} {V : Path → Option Node} {t : CellTree} {N : ℕ}
  {lo hi : Vec} {resolution : ℚ} {n : Node} {L : List Token}

variable (cfg) in
/-- A state in which every operation can be called. -/
def Operable (σ : Store) : Prop :=
  ∃ V t, Holds cfg noSummary σ V t ∧
    (t ≠ .empty → ∀ i, cfg.rootGeometry.lo i < cfg.rootGeometry.hi i)

/-- A tree with a point has a root cell with room for it. -/
theorem Reachable.extent (h : Reachable cfg σ N) (hN : 0 < N) (i : Axis) :
    cfg.rootGeometry.lo i < cfg.rootGeometry.hi i := by
  have room : ∀ {pts : List (Vec × Vec)}, 0 < (inBounds cfg pts).length →
      cfg.rootGeometry.lo i < cfg.rootGeometry.hi i := by
    intro pts hpos
    obtain ⟨p, hp⟩ := List.exists_mem_of_length_pos hpos
    exact NodeGeometry.lt_of_contains (List.mem_filter.1 hp).2 i
  induction h with
  | new he => omega
  | @plain σ σ' N pts h he ih =>
    by_cases hpos : 0 < (inBounds cfg pts).length
    · exact room hpos
    · exact ih (by omega)
  | @fast σ σ' N pts h hB he ih =>
    obtain ⟨V, t, ht, rfl⟩ := h.holds
    by_cases hpos : 0 < (inBounds cfg pts).length
    · exact room hpos
    · -- without a point in the root cell the tree has not grown, so there were no points at all
      have hnil : inBounds cfg pts = [] := List.eq_nil_of_length_eq_zero (by omega)
      have hgrown : ∃ u, insertPoints cfg pts t = some u ∧ points u = points t + pts.length :=
        Prog.wp_exec (X := fun _ => True) (Q := fun _ _ => ∃ u, insertPoints cfg pts t = some u ∧
          points u = points t + pts.length) (wp_insertAll ht hB (fun _ => trivial)
            (fun _ => trivial) fun u V' σ' hu _ hw _ => ⟨u, hu, hw⟩) he
      obtain ⟨u, hu, hw⟩ := hgrown
      rw [insertPoints, hnil] at hu
      obtain rfl := Option.some.inj hu
      exact ih (by omega)

theorem Reachable.operable (h : Reachable cfg σ N) : Operable cfg σ := by
  obtain ⟨V, t, ht, rfl⟩ := h.holds
  refine ⟨V, t, ht, fun hne => h.extent ?_⟩
  exact points_pos ht.shaped hne

theorem Operable.congr (h : Operable cfg σ) (hf : σ'.files = σ.files) (hL : Live σ' []) :
    Operable cfg σ' := by
  obtain ⟨V, t, ht, hg⟩ := h
  exact ⟨V, t, ⟨ht.stores.congr hf, hL, ht.opened, ht.shaped, ht.bound⟩, hg⟩

theorem wp_addPoint_operable (h : Operable cfg σ) (pt col : Vec) :
    Spec (addPoint cfg pt col) (fun _ σ' => Operable cfg σ') (fun _ => True) σ := by
  obtain ⟨V, t, ht, hg⟩ := h
  refine wp_addPoint (p := (pt, col)) (fun _ _ _ _ => trivial) ht (fun _ => trivial)
    (fun _ => trivial) fun u V' σ' hu h' hw => ⟨V', u, h', fun hne => ?_⟩
  by_cases hpt : cfg.rootGeometry.contains pt = true
  · exact NodeGeometry.lt_of_contains hpt
  · have hin : inBounds cfg [(pt, col)] = [] := by simp [inBounds, hpt]
    rw [insertPoints, hin] at hu
    obtain rfl := Option.some.inj hu
    exact hg hne

/-! ### Queries -/

/-- A query of a tree with a single empty node stops at an assertion, unless its box does not touch
the root cell. -/
theorem wp_queryRangeRecursive_empty {Q : QueryResult → Store → Prop} {X : Err → Prop}
    {mid size : Vec} {fuel : ℕ} {out : QueryResult} {m : Bool} (hS : Stores cfg σ V)
    (hL : Live σ L) (hr : Reads L (fileOf cfg [])) (hn : V [] = some n) (h0 : n.count = 0)
    (hleaf : n.children = 0)
    (hX : nodeOutsideRange cfg.rootGeometry mid size = false → X .emptyNode)
    (hQ : nodeOutsideRange cfg.rootGeometry mid size = true → Q out σ) :
    Spec (queryRangeRecursive cfg mid size resolution (fuel + 1) (handleAt cfg [] m) out) Q X σ := by
  have hempty : n.isEmpty = true := Node.isEmpty_iff.2 h0
  unfold queryRangeRecursive
  refine Prog.wp_ite hQ fun ho => Prog.wp_ite (fun _ => ?_) fun _ => ?_
  · unfold getAllPointsRecursive
    refine Prog.wp_bind.2 (wp_get hS hL hr hn ?_)
    rw [hempty]
    exact hX (eq_false_of_ne_true ho)
  · refine Prog.wp_bind.2 (wp_get hS hL hr hn (Prog.wp_ite (fun _ => ?_) fun hs => ?_))
    · refine Prog.wp_bind.2 (wp_get hS hL hr hn ?_)
      rw [hempty]
      exact hX (eq_false_of_ne_true ho)
    · exact absurd (by rw [stopsAt, Node.isLeaf_iff.2 hleaf]; rfl) hs

theorem wp_queryRangeRecursiveAsync_empty {Q : AsyncResult → Store → Prop} {X : Err → Prop}
    {mid size : Vec} {fuel : ℕ} {out : AsyncResult} {m : Bool} (hS : Stores cfg σ V)
    (hL : Live σ L) (hr : Reads L (fileOf cfg [])) (hn : V [] = some n) (h0 : n.count = 0)
    (hleaf : n.children = 0)
    (hX : nodeOutsideRange cfg.rootGeometry mid size = false → X .emptyNode)
    (hQ : nodeOutsideRange cfg.rootGeometry mid size = true → Q out σ) :
    Spec (queryRangeRecursiveAsync cfg mid size resolution (fuel + 1) (handleAt cfg [] m) out) Q X
      σ := by
  have hempty : n.isEmpty = true := Node.isEmpty_iff.2 h0
  unfold queryRangeRecursiveAsync
  refine Prog.wp_ite hQ fun ho => Prog.wp_ite (fun _ => ?_) fun _ => ?_
  · unfold getAllPointsRecursiveAsync
    refine Prog.wp_bind.2 (wp_get hS hL hr hn ?_)
    rw [hempty]
    exact hX (eq_false_of_ne_true ho)
  · refine Prog.wp_bind.2 (wp_get hS hL hr hn (Prog.wp_ite (fun _ => ?_) fun hs => ?_))
    · refine Prog.wp_bind.2 (Prog.wp_bind.2 (wp_get hS hL hr hn ?_))
      rw [hempty]
      exact hX (eq_false_of_ne_true ho)
    · exact absurd (by rw [stopsAt, Node.isLeaf_iff.2 hleaf]; rfl) hs

/-- A query leaves the files as they are and the client without handles. -/
theorem wp_queryRange_frame (h : Operable cfg σ) (lo hi : Vec) (resolution : ℚ) :
    Spec (queryRange cfg lo hi resolution) (fun _ σ' => σ'.files = σ.files ∧ Live σ' [])
      (fun _ => True) σ := by
  obtain ⟨V, t, ht, hg⟩ := h
  by_cases hne : t = .empty
  · subst hne
    obtain ⟨⟨n, hn, h0, hleaf⟩, -⟩ := ht.opened
    refine Prog.wp_bind.2 (wp_getRoot ht.stores ht.live hn fun σ₁ h₁ hL₁ => ?_)
    refine Prog.wp_bind.2 (wp_queryRangeRecursive_empty (ht.stores.congr h₁) hL₁ .tok hn h0 hleaf
      (fun _ => trivial) fun _ => ?_)
    refine Prog.wp_bind.2 (wp_releaseNode_handleAt hL₁ fun σ₂ h₂ hL₂ => ?_)
    exact ⟨h₂.trans h₁, hL₂⟩
  · obtain ⟨n, hn, -⟩ := ht.opened.node
    exact wp_queryRange (hg hne) (ht.occupied hne) ht.stores ht.live hn
      fun σ' h' hL' => ⟨h', hL'⟩

theorem wp_rangeQueryLoop_frame (h : Operable cfg σ) (lo hi : Vec) (resolution : ℚ)
    (rounds : ℕ) : Spec (rangeQueryLoop cfg lo hi resolution rounds)
      (fun out σ' => out.2 = [] → σ'.files = σ.files ∧ Live σ' []) (fun _ => True) σ := by
  obtain ⟨V, t, ht, hg⟩ := h
  by_cases hne : t = .empty
  · subst hne
    obtain ⟨⟨n, hn, h0, hleaf⟩, -⟩ := ht.opened
    refine Prog.wp_bind.2 (wp_getRoot ht.stores ht.live hn fun σ₁ h₁ hL₁ => ?_)
    refine Prog.wp_bind.2 (wp_isValid hL₁ .tok (Prog.wp_bind.2 (Prog.wp_ensure.2 ?_)))
    cases rounds with
    | zero => exact fun hnil => nomatch hnil
    | succ rounds =>
      refine Prog.wp_bind.2 (wp_isValid hL₁ .tok (Prog.wp_bind.2 ?_))
      refine wp_queryRangeRecursiveAsync_empty (ht.stores.congr h₁) hL₁ .tok hn h0 hleaf
        (fun _ => trivial) fun _ => ?_
      refine Prog.wp_bind.2 (wp_releaseNode_handleAt hL₁ fun σ₂ h₂ hL₂ => ?_)
      cases rounds <;> exact fun _ => ⟨h₂.trans h₁, hL₂⟩
  · obtain ⟨n, hn, -⟩ := ht.opened.node
    have hT : Queryable cfg σ := by
      refine ⟨hg hne, ?_, ?_, ?_⟩ <;> rw [ht.stores.nodeAt_eq]
      · exact ht.stores
      · exact ht.occupied hne
      · rw [hn]; rfl
    refine wp_rangeQueryLoop hT ht.live fun σ' acc P h' hq hP => ?_
    have hnil : P = [] := List.map_eq_nil_iff.1 hP
    subst hnil
    exact ⟨h', hq.live⟩

/-- A query, by itself. -/
theorem wp_query_frame {o : TreeOp} (ho : ∀ pt col, o ≠ .addPoint pt col) (h : Operable cfg σ) :
    Spec (o.run cfg) (fun _ σ' => σ'.files = σ.files ∧ Live σ' []) (fun _ => True) σ := by
  cases o with
  | addPoint pt col => exact absurd rfl (ho pt col)
  | queryRange lo hi resolution =>
    refine Prog.wp_bind.2 ?_
    exact wp_queryRange_frame h lo hi resolution
  | rangeQueryLoop lo hi resolution rounds =>
    refine Prog.wp_bind.2 (Prog.wp_mono (wp_rangeQueryLoop_frame h lo hi resolution rounds) ?_
      fun _ => id)
    intro out σ' hout
    cases hempty : out.2.isEmpty with
    | false => trivial
    | true => exact hout (List.isEmpty_iff.1 hempty)

/-- Every operation leaves the client without handles and the store with a tree. -/
theorem wp_run_operable (o : TreeOp) (h : Operable cfg σ) :
    Spec (o.run cfg) (fun _ σ' => Operable cfg σ') (fun _ => True) σ := by
  have hquery : (∀ pt col, o ≠ .addPoint pt col) →
      Spec (o.run cfg) (fun _ σ' => Operable cfg σ') (fun _ => True) σ := fun ho =>
    Prog.wp_mono (wp_query_frame ho h) (fun _ _ h' => h.congr h'.1 h'.2) fun _ => id
  cases o with
  | addPoint pt col => exact wp_addPoint_operable h pt col
  | queryRange lo hi resolution => exact hquery fun _ _ => by rintro ⟨⟩
  | rangeQueryLoop lo hi resolution rounds => exact hquery fun _ _ => by rintro ⟨⟩

theorem wp_operations (ops : List TreeOp) (h : Operable cfg σ) :
    Spec (operations cfg ops) (fun _ σ' => Operable cfg σ') (fun _ => True) σ := by
  induction ops generalizing σ with
  | nil => exact h
  | cons o ops ih =>
    refine Prog.wp_bind.2 (Prog.wp_mono (wp_run_operable o h) ?_ fun _ => id)
    intro _ σ' h'
    exact ih h'

/-! ### Trees that are opened -/

variable (cfg) in
/-- How a client gets a tree: it is new, or its files are in the storage. -/
inductive Opens : Bool → (LongId → Option ByteVec) → Store → Prop
  | new : Opens true (fun _ => none) .init
  | existing {σ : Store} {N : ℕ} : Reachable cfg σ N →
      Opens false (fun f => (σ.files f).map serialize) σ

variable (cfg) in
/-- The constructor of a `MegaTree` and a sequence of operations. -/
def visit (create : Bool) (ops : List TreeOp) : TreeM Unit := do
  construct cfg create
  operations cfg ops

variable {create : Bool} {storage : LongId → Option ByteVec}

theorem Opens.live (h : Opens cfg create storage σ) : Live σ [] := by
  cases h with
  | new => exact Live.init
  | existing hr =>
    obtain ⟨V, t, ht, -⟩ := hr.holds
    exact ht.live

theorem Opens.stored (h : Opens cfg create storage σ) (f : LongId) :
    storage f = (σ.files f).map serialize := by
  cases h with
  | new => rfl
  | existing hr => rfl

theorem wp_visit (h : Opens cfg create storage σ) (ops : List TreeOp) :
    Spec (visit cfg create ops) (fun _ σ' => Operable cfg σ') (fun _ => True) σ := by
  refine Prog.wp_bind.2 ?_
  cases h with
  | new =>
    refine wp_newTree_holds (I := noSummary) fun V σ' h => wp_operations ops ?_
    exact ⟨V, .empty, h, fun hne => absurd rfl hne⟩
  | existing hr => exact wp_operations ops hr.operable

end MegaTree
