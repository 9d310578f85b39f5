import MegaTree.Store.Layout
import MegaTree.Store.ShapeRun
import MegaTree.Tree.Equal

/-!
# When the comparison of trees is equality

`wp_treeEquals` : the comparison is true when both trees have the same nodes, up to their red, and
every green of the first tree is the red of the second one (`Node.equals_iff`).  So it decides
equality of the trees only under a condition on the colors, `treeEquals_exact_iff`.

The operands may be two trees or one (`place`), and their files may be files that were read again.
-/

namespace MegaTree

open Effect

/-- A tree: the bits of the nodes tell which children exist, every node is a child, and there is
a root. -/
structure IsTree (cfg : Config) (σ : Store) : Prop where
  linked : Linked fun π => (nodeAt cfg σ π).map Node.hasChild
  root : (nodeAt cfg σ []).isSome

namespace IsTree

variable {cfg : Config} {σ : Store} {π : Path} {n : Node} {c : ChildNr}

theorem hasChild_iff (h : IsTree cfg σ) (hn : nodeAt cfg σ π = some n) :
    n.hasChild c = (nodeAt cfg σ (c :: π)).isSome := by
  have := h.linked.bits π n.hasChild (by rw [hn]; rfl) c
  simpa using this

/-- There are no nodes below a child that does not exist. -/
theorem none_below (h : IsTree cfg σ) (hn : nodeAt cfg σ π = some n) (hc : n.hasChild c = false)
    (ρ : Path) : nodeAt cfg σ (ρ ++ c :: π) = none := by
  induction ρ with
  | nil =>
    rw [h.hasChild_iff hn] at hc
    simpa using hc
  | cons i ρ ih =>
    by_contra hne
    have := h.linked.parent (ρ ++ c :: π) i (by simpa [Option.isSome_iff_ne_none] using hne)
    simp [ih] at this

/-- Insertions leave a tree. -/
theorem of_inserting {T : Bits} {s : Client} (h : Inserting cfg T s σ) : IsTree cfg σ := by
  have hbits : (fun π => (nodeAt cfg σ π).map Node.hasChild) = T := funext h.shape.bits
  have hroot := h.root
  rw [← h.shape.bits] at hroot
  exact ⟨by rw [hbits]; exact h.linked, by simpa using hroot⟩

/-- Only the nodes matter: a tree whose files were written and read again is a tree. -/
theorem congr {cfg' : Config} {σ' : Store} (h : IsTree cfg σ) (hn : nodeAt cfg' σ' = nodeAt cfg σ) :
    IsTree cfg' σ' :=
  ⟨by rw [hn]; exact h.linked, by rw [hn]; exact h.root⟩

end IsTree

/-! ### One node -/

/-- The nodes differ at most in their red. -/
structure Node.SameButRed (a n : Node) : Prop where
  point : a.point = n.point
  green : a.color 1 = n.color 1
  blue : a.color 2 = n.color 2
  count : a.count = n.count
  children : a.children = n.children

theorem Node.equals_iff {a n : Node} :
    a.equals n = true ↔ a.SameButRed n ∧ a.color 1 = n.color 0 := by
  have hpoint : a.point = n.point ↔
      (a.point 0 = n.point 0 ∧ a.point 1 = n.point 1) ∧ a.point 2 = n.point 2 := by
    rw [funext_iff, Fin.forall_fin_succ, Fin.forall_fin_two, and_assoc]
    rfl
  simp only [Node.equals, Bool.and_eq_true, beq_iff_eq]
  constructor
  · rintro ⟨⟨⟨⟨⟨hp, hred⟩, hgreen⟩, hblue⟩, hcount⟩, hchildren⟩
    exact ⟨⟨hpoint.2 hp, hgreen, hblue, hcount, hchildren⟩, hred⟩
  · rintro ⟨⟨hp, hgreen, hblue, hcount, hchildren⟩, hred⟩
    exact ⟨⟨⟨⟨⟨hpoint.1 hp, hred⟩, hgreen⟩, hblue⟩, hcount⟩, hchildren⟩

theorem Node.eq_iff {a n : Node} : a = n ↔ a.SameButRed n ∧ a.color 0 = n.color 0 := by
  constructor
  · rintro rfl
    exact ⟨⟨rfl, rfl, rfl, rfl, rfl⟩, rfl⟩
  · obtain ⟨k, p, col, m⟩ := a
    obtain ⟨k', p', col', m'⟩ := n
    rintro ⟨⟨rfl, hgreen, hblue, rfl, rfl⟩, hred⟩
    have hcol : col = col' := by
      funext i
      fin_cases i
      · exact hred
      · exact hgreen
      · exact hblue
    rw [hcol]

theorem hasChild_of_children {a n : Node} (h : a.children = n.children) :
    a.hasChild = n.hasChild := by
  funext i
  rw [Node.hasChild, h, Node.hasChild]

/-! ### All nodes -/

section Pointwise

variable {V₁ V₂ : Path → Option Node} {P R : Node → Node → Prop}

/-- The same ids, and related nodes under each id. -/
def Pointwise (R : Node → Node → Prop) (V₁ V₂ : Path → Option Node) : Prop :=
  ∀ ξ, Option.Rel R (V₁ ξ) (V₂ ξ)

theorem pointwise_and : Pointwise (fun a n => P a n ∧ R a n) V₁ V₂ ↔
    Pointwise P V₁ V₂ ∧ ∀ ξ a n, V₁ ξ = some a → V₂ ξ = some n → R a n := by
  constructor
  · intro h
    refine ⟨fun ξ => ?_, fun ξ a n ha hn => ?_⟩
    · have hξ := h ξ
      generalize V₁ ξ = x, V₂ ξ = y at hξ ⊢
      cases hξ with
      | some hr => exact .some hr.1
      | none => exact .none
    · have := h ξ
      rw [ha, hn] at this
      cases this with
      | some hr => exact hr.2
  · rintro ⟨hP, hR⟩ ξ
    have hp := hP ξ
    cases ha : V₁ ξ with
    | none =>
      rw [ha] at hp
      cases hn : V₂ ξ with
      | none => exact .none
      | some n => rw [hn] at hp; cases hp
    | some a =>
      rw [ha] at hp
      cases hn : V₂ ξ with
      | none => rw [hn] at hp; cases hp
      | some n =>
        rw [hn] at hp
        cases hp with
        | some hpa => exact .some ⟨hpa, hR ξ a n ha hn⟩

theorem pointwise_eq : Pointwise Eq V₁ V₂ ↔ V₁ = V₂ := by
  constructor
  · intro h
    funext ξ
    have hξ := h ξ
    generalize V₁ ξ = x, V₂ ξ = y at hξ ⊢
    cases hξ with
    | some hr => rw [hr]
    | none => rfl
  · rintro rfl ξ
    cases V₁ ξ with
    | some a => exact .some rfl
    | none => exact .none

theorem pointwise_congr (h : ∀ a n, P a n ↔ R a n) : Pointwise P V₁ V₂ ↔ Pointwise R V₁ V₂ := by
  rw [show P = R from funext₂ fun a n => propext (h a n)]

/-- The colors do not mislead the comparison: something but the red differs, or red and green agree
everywhere in the first tree, or both the red of the second tree and the wrong comparison with it
show a difference. -/
def ColorsTell (V₁ V₂ : Path → Option Node) : Prop :=
  ¬ Pointwise Node.SameButRed V₁ V₂ ∨ (∀ ξ a, V₁ ξ = some a → a.color 0 = a.color 1) ∨
    (∃ ξ a n, V₁ ξ = some a ∧ V₂ ξ = some n ∧ a.color 0 ≠ n.color 0) ∧
    ∃ ξ a n, V₁ ξ = some a ∧ V₂ ξ = some n ∧ a.color 1 ≠ n.color 0

/-- The comparison of all nodes is right exactly when the colors do not mislead it. -/
theorem pointwise_equals_exact :
    ((Pointwise (fun a n => a.equals n = true) V₁ V₂) ↔ V₁ = V₂) ↔ ColorsTell V₁ V₂ := by
  rw [pointwise_congr fun a n => Node.equals_iff, ← pointwise_eq,
    pointwise_congr (P := Eq) fun a n => Node.eq_iff, pointwise_and, pointwise_and]
  unfold ColorsTell
  by_cases hsame : Pointwise Node.SameButRed V₁ V₂
  · have twin : ∀ ξ a, V₁ ξ = some a → ∃ n, V₂ ξ = some n ∧ a.SameButRed n := by
      intro ξ a ha
      have h := hsame ξ
      rw [ha] at h
      generalize V₂ ξ = y at h
      cases h with
      | some h => exact ⟨_, rfl, h⟩
    simp only [hsame, true_and, not_true, false_or]
    constructor
    · intro h
      by_cases hred : ∀ ξ a n, V₁ ξ = some a → V₂ ξ = some n → a.color 0 = n.color 0
      · refine .inl fun ξ a ha => ?_
        obtain ⟨n, hn, -⟩ := twin ξ a ha
        rw [hred ξ a n ha hn, h.2 hred ξ a n ha hn]
      · have hgreen := mt h.1 hred
        push Not at hred hgreen
        exact .inr ⟨hred, hgreen⟩
    · rintro (hgrey | ⟨⟨ξ, a, n, ha, hn, hred⟩, ξ', a', n', ha', hn', hgreen⟩)
      · constructor
        · intro h ξ a n ha hn
          rw [hgrey ξ a ha, h ξ a n ha hn]
        · intro h ξ a n ha hn
          rw [← hgrey ξ a ha, h ξ a n ha hn]
      · exact ⟨fun h => absurd (h ξ' a' n' ha' hn') hgreen, fun h => absurd (h ξ a n ha hn) hred⟩
  · simp [hsame]

end Pointwise

/-! ### The descent in both trees -/

section Operands

variable {κ : Type} [DecidableEq κ] {place : Operand → κ} {cfg : Operand → Config}
  {s₀ s s' : κ → Store} {L : κ → List Token} {M M' : List (Operand × Token)} {b : Operand}
  {t u : Operand × Token} {k : κ} {π : Path} {c : ChildNr} {X : Err → Prop} {σ : Store}

/-- The tokens of an object: those of the handles to an operand that is this object, and others. -/
def heldAt (place : Operand → κ) (L : κ → List Token) (M : List (Operand × Token)) (k : κ) :
    List Token := (M.filter fun x => place x.1 = k).map Prod.snd ++ L k

theorem heldAt_cons_self {t : Token} :
    heldAt place L ((b, t) :: M) (place b) = t :: heldAt place L M (place b) := by
  simp [heldAt]

theorem heldAt_cons_of_ne {t : Token} (h : k ≠ place b) :
    heldAt place L ((b, t) :: M) k = heldAt place L M k := by
  simp [heldAt, h.symm]

theorem mem_heldAt {t : Token} (h : (b, t) ∈ M) : t ∈ heldAt place L M (place b) :=
  List.mem_append_left _ (List.mem_map.2 ⟨(b, t), List.mem_filter.2 ⟨h, by simp⟩, rfl⟩)

/-- The trees are as in the beginning, and the tokens `M` are held in addition. -/
structure Comparing (place : Operand → κ) (L : κ → List Token) (s₀ : κ → Store)
    (M : List (Operand × Token)) (s : κ → Store) : Prop where
  files : ∀ k, (s k).files = (s₀ k).files
  live : ∀ k, Live (s k) (heldAt place L M k)

namespace Comparing

theorem nodeAt (h : Comparing place L s₀ M s) (b : Operand) :
    nodeAt (cfg b) (s (place b)) = MegaTree.nodeAt (cfg b) (s₀ (place b)) :=
  nodeAt_congr (h.files _)

theorem perm (h : Comparing place L s₀ M s) (hp : M.Perm M') : Comparing place L s₀ M' s :=
  ⟨h.files, fun k => (h.live k).perm (((hp.filter _).map _).append_right _)⟩

/-- One of the stores takes a step that keeps the files. -/
theorem update (h : Comparing place L s₀ M s) (hf : σ.files = (s (place b)).files)
    (hL : Live σ (heldAt place L M' (place b)))
    (hM : ∀ k, k ≠ place b → heldAt place L M' k = heldAt place L M k) :
    Comparing place L s₀ M' (Function.update s (place b) σ) := by
  refine ⟨fun k => ?_, fun k => ?_⟩ <;> by_cases hk : k = place b
  · rw [hk, Function.update_self, hf, h.files]
  · rw [Function.update_of_ne hk, h.files]
  · rw [hk, Function.update_self]
    exact hL
  · rw [Function.update_of_ne hk, hM k hk]
    exact h.live k

end Comparing

/-- The handles of both trees at a path can be read. -/
def ReadsBoth (place : Operand → κ) (cfg : Operand → Config) (L : κ → List Token)
    (M : List (Operand × Token)) (π : Path) : Prop :=
  ∀ b, Reads (heldAt place L M (place b)) (fileOf (cfg b) π)

theorem ReadsBoth.pair {d₁ d₂ : Bool} : ReadsBoth place cfg L
    ((.tree2, ⟨fileOf (cfg .tree2) π, false, true, d₂⟩) ::
      (.tree1, ⟨fileOf (cfg .tree1) π, false, true, d₁⟩) :: M) π := by
  intro b
  cases b with
  | tree1 => exact ⟨_, mem_heldAt (List.mem_cons_of_mem _ List.mem_cons_self), rfl, rfl⟩
  | tree2 => exact ⟨_, mem_heldAt List.mem_cons_self, rfl, rfl⟩

theorem ReadsBoth.mono (h : ReadsBoth place cfg L M π) (hM : M ⊆ M') :
    ReadsBoth place cfg L M' π := by
  intro b
  obtain ⟨t, ht, hf, hl⟩ := h b
  refine ⟨t, ?_, hf, hl⟩
  rcases List.mem_append.1 ht with ht | ht
  · obtain ⟨x, hx, rfl⟩ := List.mem_map.1 ht
    obtain ⟨hxM, hxp⟩ := List.mem_filter.1 hx
    exact List.mem_append_left _ (List.mem_map.2 ⟨x, List.mem_filter.2 ⟨hM hxM, hxp⟩, rfl⟩)
  · exact List.mem_append_right _ ht

/-- What a program on two trees does. -/
abbrev TwoSpec (place : Operand → κ) {α : Type} (p : TwoTreesM α) (Q : α → (κ → Store) → Prop)
    (s : κ → Store) : Prop :=
  p.wp (Handler.named Store.step place) Q (fun _ => False) s

theorem two_get {Q : Node → (κ → Store) → Prop} {n : Node} {m : Bool}
    (h : Comparing place L s₀ M s) (hr : ReadsBoth place cfg L M π)
    (hn : nodeAt (cfg b) (s₀ (place b)) π = some n) (hQ : Q n s) :
    TwoSpec place ((handleAt (cfg b) π m).get.on b) Q s := by
  refine Prog.wp_on (wp_get_nodeAt (h.live _) (hr b) (by rw [h.nodeAt, hn]) ?_)
  rwa [Function.update_eq_self]

theorem two_getChildNode {Q : NodeHandle → (κ → Store) → Prop} {n n' : Node} {m : Bool}
    (h : Comparing place L s₀ M s) (hr : ReadsBoth place cfg L M π)
    (hn : nodeAt (cfg b) (s₀ (place b)) π = some n) (hc : n.hasChild c = true)
    (hv : nodeAt (cfg b) (s₀ (place b)) (c :: π) = some n')
    (hQ : ∀ s', Comparing place L s₀ ((b, ⟨fileOf (cfg b) (c :: π), false, false, false⟩) :: M) s' →
      Q (handleAt (cfg b) (c :: π) false) s') :
    TwoSpec place ((getChildNode (cfg b) (handleAt (cfg b) π m) c).on b) Q s := by
  refine Prog.wp_on (wp_getChildNode_nodeAt (h.live _) (hr b) (by rw [h.nodeAt, hn]) hc
    (by rw [h.nodeAt, hv]) fun σ hf hL => hQ _ (h.update hf ?_ fun k hk => heldAt_cons_of_ne hk))
  rw [heldAt_cons_self]
  exact hL

theorem two_waitUntilLoaded {Q : Unit → (κ → Store) → Prop} {m l d : Bool}
    (h : Comparing place L s₀ ((b, ⟨fileOf (cfg b) π, m, l, d⟩) :: M) s)
    (hQ : ∀ s', Comparing place L s₀ ((b, ⟨fileOf (cfg b) π, m, true, d⟩) :: M) s' → Q () s') :
    TwoSpec place ((handleAt (cfg b) π m).waitUntilLoaded.on b) Q s := by
  have hL := h.live (place b)
  rw [heldAt_cons_self] at hL
  refine Prog.wp_on (wp_waitUntilLoaded hL fun σ hf hL' => hQ _ (h.update hf ?_ fun k hk => ?_))
  · rw [heldAt_cons_self]
    exact hL'
  · rw [heldAt_cons_of_ne hk, heldAt_cons_of_ne hk]

theorem two_releaseNode {Q : NodeHandle → (κ → Store) → Prop} {m l d : Bool}
    (h : Comparing place L s₀ ((b, ⟨fileOf (cfg b) π, m, l, d⟩) :: M) s)
    (hQ : ∀ s', Comparing place L s₀ M s' → Q (handleAt (cfg b) π m).invalidate s') :
    TwoSpec place ((releaseNode (handleAt (cfg b) π m)).on b) Q s := by
  have hL := h.live (place b)
  rw [heldAt_cons_self] at hL
  refine Prog.wp_on (wp_releaseNode_handleAt hL fun σ hf hL' => hQ _ (h.update hf hL' ?_))
  exact fun k hk => (heldAt_cons_of_ne hk).symm

theorem two_getRoot {Q : NodeHandle → (κ → Store) → Prop} {n : Node}
    (h : Comparing place L s₀ M s) (hn : nodeAt (cfg b) (s₀ (place b)) [] = some n)
    (hQ : ∀ s', Comparing place L s₀ ((b, tok (cfg b) [] false) :: M) s' →
      Q (handleAt (cfg b) [] false) s') :
    TwoSpec place ((getRoot (cfg b)).on b) Q s := by
  refine Prog.wp_on (wp_getRoot_nodeAt (h.live _) (by rw [h.nodeAt, hn])
    fun σ hf hL => hQ _ (h.update hf ?_ fun k hk => heldAt_cons_of_ne hk))
  rw [heldAt_cons_self]
  exact hL

/-- The comparison accepts all nodes at and below a path. -/
def EqualBelow (V : Operand → Path → Option Node) (π : Path) : Prop :=
  Pointwise (fun a n => a.equals n = true) (fun ρ => V .tree1 (ρ ++ π)) fun ρ => V .tree2 (ρ ++ π)

/-- The nodes of the operands. -/
def nodesOf (place : Operand → κ) (cfg : Operand → Config) (s : κ → Store) (b : Operand) :
    Path → Option Node :=
  nodeAt (cfg b) (s (place b))

section Trees

variable (hT : ∀ b, IsTree (cfg b) (s₀ (place b))) {a n : Node}
  (ha : nodesOf place cfg s₀ .tree1 π = some a) (hn : nodesOf place cfg s₀ .tree2 π = some n)

include hT ha hn

omit [DecidableEq κ] in
/-- Below two nodes that are accepted, only the children of the first one have to be compared. -/
theorem equalBelow_iff (he : a.equals n = true) : EqualBelow (nodesOf place cfg s₀) π ↔
    ∀ i, a.hasChild i = true → EqualBelow (nodesOf place cfg s₀) (i :: π) := by
  have hchild : a.hasChild = n.hasChild :=
    hasChild_of_children (Node.equals_iff.1 he).1.children
  constructor
  · intro h i _ ρ
    simpa using h (ρ ++ [i])
  · intro h ρ
    rcases List.eq_nil_or_concat ρ with rfl | ⟨ξ, i, rfl⟩
    · simp only [List.nil_append, ha, hn]
      exact .some he
    · simp only [List.concat_eq_append, List.append_assoc, List.singleton_append]
      cases hi : a.hasChild i with
      | true => exact h i hi ξ
      | false =>
        have h₁ := (hT .tree1).none_below ha hi ξ
        have h₂ := (hT .tree2).none_below hn (hchild ▸ hi) ξ
        simp only [nodesOf, h₁, h₂]
        exact .none

/-- The loop over the children, when `body` compares the nodes below a child. -/
theorem two_checkEqualChildren {body : NodeHandle → NodeHandle → TwoTreesM Bool}
    {Q : Bool → (κ → Store) → Prop} (hchild : a.hasChild = n.hasChild) (is : List ChildNr)
    (hbody : ∀ i s M (R : Bool → (κ → Store) → Prop), a.hasChild i = true →
      Comparing place L s₀ M s → ReadsBoth place cfg L M (i :: π) →
      (∀ r s', Comparing place L s₀ M s' →
        (r = true ↔ EqualBelow (nodesOf place cfg s₀) (i :: π)) → R r s') →
      TwoSpec place (body (handleAt (cfg .tree1) (i :: π) false)
        (handleAt (cfg .tree2) (i :: π) false)) R s)
    (h : Comparing place L s₀ M s) (hr : ReadsBoth place cfg L M π)
    (hQ : ∀ r s', Comparing place L s₀ M s' → (r = true ↔ ∀ i ∈ is, a.hasChild i = true →
      EqualBelow (nodesOf place cfg s₀) (i :: π)) → Q r s') :
    TwoSpec place (checkEqualChildren cfg body (handleAt (cfg .tree1) π false)
      (handleAt (cfg .tree2) π false) is) Q s := by
  induction is generalizing s with
  | nil => exact hQ true s h (by simp)
  | cons i is ih =>
    refine Prog.wp_bind.2 (two_get h hr ha ?_)
    cases hi : a.hasChild i with
    | false =>
      refine ih h fun r s' h' hr' => hQ r s' h' ?_
      simpa [hi] using hr'
    | true =>
      have child : ∀ b k, nodesOf place cfg s₀ b π = some k → k.hasChild i = true →
          ∃ k', nodeAt (cfg b) (s₀ (place b)) (i :: π) = some k' := by
        intro b k hk hki
        rw [(hT b).hasChild_iff hk] at hki
        exact Option.isSome_iff_exists.1 hki
      obtain ⟨a', ha'⟩ := child .tree1 a ha hi
      obtain ⟨n', hn'⟩ := child .tree2 n hn (hchild ▸ hi)
      refine Prog.wp_bind.2 (two_getChildNode h hr ha hi ha' fun s₁ h₁ => ?_)
      refine Prog.wp_bind.2 (two_getChildNode h₁ (hr.mono (List.subset_cons_self _ _)) hn
        (hchild ▸ hi) hn' fun s₂ h₂ => ?_)
      refine Prog.wp_bind.2 (two_waitUntilLoaded (h₂.perm (.swap _ _ _)) fun s₃ h₃ => ?_)
      refine Prog.wp_bind.2 (two_waitUntilLoaded (h₃.perm (.swap _ _ _)) fun s₄ h₄ => ?_)
      refine Prog.wp_bind.2 (hbody i s₄ _ _ hi h₄ .pair fun r s₅ h₅ hr₅ => ?_)
      refine Prog.wp_bind.2 (two_releaseNode (h₅.perm (.swap _ _ _)) fun s₆ h₆ => ?_)
      refine Prog.wp_bind.2 (two_releaseNode h₆ fun s₇ h₇ => ?_)
      cases r with
      | false =>
        refine hQ false s₇ h₇ ⟨nofun, fun hall => ?_⟩
        exact hr₅.2 (hall i List.mem_cons_self hi)
      | true =>
        refine ih h₇ fun r s' h' hr' => hQ r s' h' ?_
        rw [List.forall_mem_cons, ← hr']
        exact ⟨fun h => ⟨fun _ => hr₅.1 rfl, h⟩, fun h => h.2⟩

end Trees

theorem two_checkEqualRecursive (hT : ∀ b, IsTree (cfg b) (s₀ (place b))) {fuel : ℕ} {a n : Node}
    {Q : Bool → (κ → Store) → Prop} (ha : nodesOf place cfg s₀ .tree1 π = some a)
    (hn : nodesOf place cfg s₀ .tree2 π = some n) (hfuel : maxDepth < π.length + fuel)
    (h : Comparing place L s₀ M s) (hr : ReadsBoth place cfg L M π)
    (hQ : ∀ r s', Comparing place L s₀ M s' →
      (r = true ↔ EqualBelow (nodesOf place cfg s₀) π) → Q r s') :
    TwoSpec place (checkEqualRecursive cfg fuel (handleAt (cfg .tree1) π false)
      (handleAt (cfg .tree2) π false)) Q s := by
  induction fuel generalizing π a n M s Q with
  | zero =>
    have := (nodeAt_eq_some.1 ha).1
    omega
  | succ fuel ih =>
    refine Prog.wp_bind.2 (two_get h hr ha ?_)
    refine Prog.wp_bind.2 (two_get h hr hn ?_)
    cases he : a.equals n with
    | false =>
      refine hQ false s h ⟨nofun, fun hall => ?_⟩
      have hroot := hall []
      simp only [List.nil_append, ha, hn] at hroot
      cases hroot with
      | some hroot => rw [he] at hroot; cases hroot
    | true =>
      have hchild : a.hasChild = n.hasChild :=
        hasChild_of_children (Node.equals_iff.1 he).1.children
      have hbelow := equalBelow_iff hT ha hn he
      refine Prog.wp_bind.2 (two_get h hr ha ?_)
      refine Prog.wp_ite (fun hleaf => ?_) fun hleaf => ?_
      · refine hQ true s h ⟨fun _ => hbelow.2 fun i hi => ?_, fun _ => rfl⟩
        rw [Node.isLeaf_iff_hasChild.1 hleaf i] at hi
        cases hi
      · refine two_checkEqualChildren hT ha hn hchild _ (fun i s₁ M₁ R hi h₁ hr₁ hR => ?_) h hr
          fun r s' h' hr' => hQ r s' h' ?_
        · have h₁' := (hT .tree1).hasChild_iff (c := i) ha
          have h₂' := (hT .tree2).hasChild_iff (c := i) hn
          rw [hi] at h₁'
          rw [← hchild, hi] at h₂'
          obtain ⟨a', ha'⟩ := Option.isSome_iff_exists.1 h₁'.symm
          obtain ⟨n', hn'⟩ := Option.isSome_iff_exists.1 h₂'.symm
          exact ih ha' hn' (by rw [List.length_cons]; omega) h₁ hr₁ hR
        · rw [hr', hbelow]
          exact ⟨fun hall i hi => hall i (List.mem_finRange i) hi, fun hall i _ hi => hall i hi⟩

/-- The comparison is true when it accepts all nodes, and it leaves both trees as they are. -/
theorem wp_treeEquals (hT : ∀ b, IsTree (cfg b) (s₀ (place b))) (hL : ∀ k, Live (s₀ k) (L k)) :
    TwoSpec place (treeEquals cfg) (fun r s' => (∀ k, (s' k).files = (s₀ k).files) ∧
      (∀ k, Live (s' k) (L k)) ∧ (r = true ↔ Pointwise (fun a n => a.equals n = true)
        (nodesOf place cfg s₀ .tree1) (nodesOf place cfg s₀ .tree2))) s₀ := by
  have h : Comparing place L s₀ [] s₀ := ⟨fun _ => rfl, hL⟩
  obtain ⟨a, ha⟩ := Option.isSome_iff_exists.1 (hT .tree1).root
  obtain ⟨n, hn⟩ := Option.isSome_iff_exists.1 (hT .tree2).root
  refine Prog.wp_bind.2 (two_getRoot h ha fun s₁ h₁ => ?_)
  refine Prog.wp_bind.2 (two_getRoot h₁ hn fun s₂ h₂ => ?_)
  refine Prog.wp_bind.2 (two_checkEqualRecursive hT ha hn (by decide) h₂ .pair
    fun r s₃ h₃ hres => ?_)
  refine Prog.wp_bind.2 (two_releaseNode (h₃.perm (.swap _ _ _)) fun s₄ h₄ => ?_)
  refine Prog.wp_bind.2 (two_releaseNode h₄ fun s₅ h₅ => ?_)
  refine ⟨h₅.files, h₅.live, hres.trans ?_⟩
  simp only [EqualBelow, List.append_nil]

/-- **When `operator==` decides whether two trees are equal**: exactly when the colors of their
nodes do not mislead it.  The operands can be two trees or twice the same. -/
theorem treeEquals_exact_iff (hT : ∀ b, IsTree (cfg b) (s₀ (place b)))
    (hL : ∀ k, Live (s₀ k) (L k)) :
    TwoSpec place (treeEquals cfg) (fun r s' => (∀ k, (s' k).files = (s₀ k).files) ∧
      ((r = true ↔ nodeAt (cfg .tree1) (s₀ (place .tree1)) =
          nodeAt (cfg .tree2) (s₀ (place .tree2))) ↔
        ColorsTell (nodeAt (cfg .tree1) (s₀ (place .tree1)))
          (nodeAt (cfg .tree2) (s₀ (place .tree2))))) s₀ := by
  refine Prog.wp_mono (wp_treeEquals hT hL) (fun r s' h => ⟨h.1, ?_⟩) fun _ => id
  rw [h.2.2]
  exact pointwise_equals_exact

/-- Equal trees, and a tree and itself, are recognised exactly when red and green agree. -/
theorem treeEquals_same (hT : ∀ b, IsTree (cfg b) (s₀ (place b))) (hL : ∀ k, Live (s₀ k) (L k))
    (hsame : nodesOf place cfg s₀ .tree2 = nodesOf place cfg s₀ .tree1) :
    TwoSpec place (treeEquals cfg) (fun r _ => r = true ↔
      ∀ ξ a, nodesOf place cfg s₀ .tree1 ξ = some a → a.color 1 = a.color 0) s₀ := by
  refine Prog.wp_mono (wp_treeEquals hT hL) (fun r s' h => h.2.2.trans ?_) fun _ => id
  rw [hsame, pointwise_congr fun a n => Node.equals_iff, pointwise_and]
  constructor
  · rintro ⟨-, h⟩ ξ a ha
    exact h ξ a a ha ha
  · intro h
    refine ⟨fun ξ => ?_, fun ξ a n ha hn => ?_⟩
    · cases nodesOf place cfg s₀ .tree1 ξ with
      | none => exact .none
      | some a => exact .some ⟨rfl, rfl, rfl, rfl, rfl⟩
    · obtain rfl := Option.some.inj (ha.symm.trans hn)
      exact h ξ a ha

end Operands

/-! ### Trees that were built -/

/-- Every session of insertions on a new tree leaves a tree. -/
theorem wp_life_isTree {cfg : Config} {calls : List Call} (hx : ∀ x ∈ calls, x.inserts = true) :
    Spec (life cfg true calls) (fun s σ => IsTree cfg σ ∧ Live σ (s.caches.flatMap stackToks))
      (fun _ => True) .init := by
  refine Prog.wp_mono (wp_of_upTo similarity_sameShape (shape_life hx)) ?_ fun _ => id
  rintro s σ ⟨T, h⟩
  exact ⟨.of_inserting h, h.live⟩

/-- A tree with one red point. -/
def redPoint : List Call := [.addPoint (fun _ => 1) ![255, 0, 0]]

/-- A tree with one red point is not equal to itself. -/
theorem treeEquals_red : ((life .sample true redPoint).run Store.step Choice.plain
      Store.init).toOption.bind (fun x =>
    ((treeEquals fun _ => .sample).run (Handler.named Store.step fun _ => ()) Choice.plain
      fun _ => x.2).toOption.map Prod.fst) = some false := by
  decide +kernel

theorem treeEquals_exact_iff_red : ∃ s σ,
    Prog.Exec Store.step (life .sample true redPoint) .init (.ret s) σ ∧
    TwoSpec (fun _ => ()) (treeEquals fun _ => .sample) (fun r s' => (∀ k, (s' k).files = σ.files) ∧
      ((r = true ↔ nodeAt .sample σ = nodeAt .sample σ) ↔
        ColorsTell (nodeAt .sample σ) (nodeAt .sample σ))) (fun _ => σ) := by
  obtain ⟨s, σ, hrun, -⟩ := Prog.exists_exec (h := Store.step) (c := Choice.plain)
    (f := fun _ => true) (p := life .sample true redPoint) (s := .init) (by decide +kernel)
  obtain ⟨hT, hL⟩ := Prog.wp_exec (wp_life_isTree (by decide)) hrun
  exact ⟨s, σ, hrun, treeEquals_exact_iff (fun _ => hT) fun _ => hL⟩

end MegaTree
