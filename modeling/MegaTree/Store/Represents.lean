import MegaTree.SpaceTree.Basic
import MegaTree.Store.Access
import MegaTree.Tree.AddPoint

/-!
# The tree in the store

`pointPolicy` are the rules by which the insertion algorithms divide cells, so that
`SpaceTree.Policy.insert` says what one insertion is for, without files, handles and summaries.

`Rep I V π t` : the nodes `V` below the path `π` are those of the tree `t`: the leaves have exactly
its values, the masks and the counts are right, there are no other nodes, and every interior node is
related to its children by `I`.

## Main results

* `keeps_pointPolicy` : the rules keep `LeafOk`, the shape of the leaves.
* `Rep.congr`, `Rep.frame` : only the nodes below the path matter.
-/

namespace MegaTree

open SpaceTree

/-- The tree of the occupied cells. -/
abbrev CellTree := Tree ChildNr Node

variable (cfg : Config)

/-- How points with their colors are sorted into cells. -/
def pointPolicy : Policy ChildNr NodeGeometry Node (Vec × Vec) where
  fine g := decide (g.getSize / bitsD ≤ cfg.minCellSize ∨ g.getSize < cfg.minCellSize)
  finest g := decide (g.getSize < cfg.minCellSize)
  single g p := ⟨1, floatToFixed g p.1, fun i => toColor (p.2 i), 0⟩
  merge g a p :=
    let f : ℚ := 1 / (a.count + 1).toNat
    { a with
      count := a.count + 1
      point := fun i => toPoint ((1 - f) * (a.point i).toNat + f * (floatToFixed g p.1 i).toNat)
      color := fun i => toColor ((1 - f) * (a.color i).toNat + f * p.2 i) }
  push a := (a.getChildForNodePoint, ⟨a.count, fun i => a.point i <<< 1, a.color, 0⟩)
  which g p := g.whichChild p.1
  child := NodeGeometry.getChild

/-- The number of points of a node. -/
def pointCount (a : Node) : ℕ := a.count.toNat

/-- The number of points in a tree. -/
abbrev points (t : CellTree) : ℕ := Policy.weight pointCount t

/-- Counts are below this bound. -/
abbrev countBound : ℕ := 2 ^ 64

/-- A leaf has no children, it has a point, and only one unless its cell is too small to divide. -/
structure LeafOk (g : NodeGeometry) (a : Node) : Prop where
  children : a.children = 0
  pos : 1 ≤ a.count.toNat
  one : cfg.minCellSize ≤ g.getSize → a.count = 1

variable {cfg}

theorem pointCount_single (g : NodeGeometry) (p : Vec × Vec) :
    pointCount ((pointPolicy cfg).single g p) = 1 := rfl

theorem pointCount_push (a : Node) : pointCount ((pointPolicy cfg).push a).2 = pointCount a := rfl

theorem pointCount_merge (g : NodeGeometry) (a : Node) (p : Vec × Vec)
    (h : pointCount a + 1 < countBound) :
    pointCount ((pointPolicy cfg).merge g a p) = pointCount a + 1 := by
  simp only [pointCount, pointPolicy, UInt64.toNat_add]
  exact Nat.mod_eq_of_lt h

/-- A cell that is not divided takes a point when it is empty. -/
theorem fine_of_finest (g : NodeGeometry) (h : (pointPolicy cfg).finest g = true) :
    (pointPolicy cfg).fine g = true := by
  simp only [pointPolicy, decide_eq_true_eq] at h ⊢
  exact .inr h

theorem keeps_pointPolicy :
    (pointPolicy cfg).Keeps (LeafOk cfg) countBound pointCount where
  single g p _ := ⟨rfl, le_rfl, fun _ => rfl⟩
  merge g a p hg hB ha := by
    refine ⟨ha.children, ?_, fun hs => ?_⟩
    · have : ((pointPolicy cfg).merge g a p).count.toNat = a.count.toNat + 1 :=
        pointCount_merge g a p hB
      rw [this]; omega
    · simp only [pointPolicy, decide_eq_true_eq] at hg
      exact absurd hg (not_lt.2 hs)
  push g a hg ha := by
    refine ⟨rfl, ha.pos, fun _ => ha.one ?_⟩
    simpa [pointPolicy] using hg

/-- Forty-one divisions suffice when the cells get smaller than `min_cell_size` on the way. -/
theorem shallow_pointPolicy {π : Path} {n : ℕ} {root : NodeGeometry}
    (h : root.getSize / 2 ^ (π.length + n) < cfg.minCellSize) :
    (pointPolicy cfg).Shallow n (geomOf root π) := by
  induction n generalizing π with
  | zero => simpa [Policy.Shallow, pointPolicy, getSize_geomOf] using h
  | succ n ih =>
    refine .inr fun i => ih (π := i :: π) ?_
    rw [List.length_cons, show π.length + 1 + n = π.length + (n + 1) by omega]
    exact h

/-! ### Representation -/

/-- `V` and `V'` agree on the nodes at and below a path. -/
def Agree (V V' : Path → Option Node) (π : Path) : Prop := ∀ ρ, V' (ρ ++ π) = V (ρ ++ π)

/-- `V` and `V'` agree on all nodes that are not at or below a path. -/
def Frame (V V' : Path → Option Node) (π : Path) : Prop := ∀ ξ, ¬ π <:+ ξ → V' ξ = V ξ

/-- How an interior node is related to the nodes under its existing children. -/
abbrev Summary := Path → Node → (ChildNr → Option Node) → Prop

/-- The nodes `V` below a path are those of a tree. -/
def Rep (I : Summary) (V : Path → Option Node) (π : Path) : CellTree → Prop
  | .empty => ∀ ρ, V (ρ ++ π) = none
  | .leaf a => V π = some a ∧ ∀ ρ i, V (ρ ++ i :: π) = none
  | .branch kids => (∃ n, V π = some n ∧ n.count = .ofNat (points (.branch kids)) ∧
      (∀ i, n.hasChild i = true ↔ kids i ≠ .empty) ∧ I π n (childrenOf V π n)) ∧
      ∀ i, Rep I V (i :: π) (kids i)

/-- The same for a node that is open: it exists even when its cell is empty. -/
def Opened (I : Summary) (V : Path → Option Node) (π : Path) : CellTree → Prop
  | .empty => (∃ n, V π = some n ∧ n.count = 0 ∧ n.children = 0) ∧ ∀ ρ i, V (ρ ++ i :: π) = none
  | t => Rep I V π t

/-- The children of an interior node that is being changed, the count that it holds, and the open
child, if there is one.  The node itself is related to its children by `J`. -/
def Divided (I J : Summary) (V : Path → Option Node) (π : Path) (kids : ChildNr → CellTree)
    (k : Count) (c : Option ChildNr) : Prop :=
  (∃ n, V π = some n ∧ n.count = k ∧
    (∀ i, n.hasChild i = true ↔ (kids i ≠ .empty ∨ c = some i)) ∧ J π n (childrenOf V π n)) ∧
    ∀ i, if c = some i then Opened I V (i :: π) (kids i) else Rep I V (i :: π) (kids i)

/-- A relation `J` that a node keeps while children are added that have no points of their own. -/
structure Tolerant (I J : Summary) : Prop where
  /-- A node without children. -/
  empty : ∀ π n, n.count = 0 → J π n fun _ => none
  /-- A leaf that has handed its point down. -/
  split : ∀ π (n : Node) o, o = n.getChildForNodePoint →
    J π (n.setChild o) (Function.update (fun _ => none) o
      (some ⟨n.count, fun i => n.point i <<< 1, n.color, 0⟩))
  /-- A closed node. -/
  closed : ∀ π n ks, I π n ks → J π n ks
  /-- A new child. -/
  child : ∀ π n ks c (k : Node), ks c = none → k.count = 0 → J π n ks →
    J π (n.setChild c) (Function.update ks c (some k))

/-- The relation that says nothing. -/
def noSummary : Summary := fun _ _ _ => True

theorem tolerant_noSummary {I : Summary} : Tolerant I noSummary :=
  ⟨fun _ _ _ => trivial, fun _ _ _ _ => trivial, fun _ _ _ _ => trivial,
    fun _ _ _ _ _ _ _ _ => trivial⟩

section Frames

variable {V V' V'' : Path → Option Node} {π ρ ξ : Path} {c i j : ChildNr} {n : Option Node}

theorem not_suffix_sibling (h : j ≠ c) (ρ : Path) : ¬ (c :: π) <:+ ρ ++ j :: π := by
  rintro ⟨ξ, hξ⟩
  have h₁ : (ξ ++ [c]) ++ π = (ρ ++ [j]) ++ π := by simpa using hξ
  have h₂ := List.append_cancel_right h₁
  exact h (List.append_inj_right' h₂ rfl |> List.cons.inj).1.symm

theorem Frame.refl : Frame V V π := fun _ _ => rfl

theorem Frame.trans (h₁ : Frame V V' π) (h₂ : Frame V' V'' π) : Frame V V'' π := fun ξ hξ =>
  (h₂ ξ hξ).trans (h₁ ξ hξ)

theorem Frame.child (h : Frame V V' (c :: π)) : Frame V V' π := fun ξ hξ =>
  h ξ fun hs => hξ ((List.suffix_cons c π).trans hs)

theorem Frame.update : Frame V (Function.update V π n) π := fun ξ hξ =>
  Function.update_of_ne (fun e => hξ (by rw [e])) _ _

theorem Frame.sibling (h : Frame V V' (c :: π)) (hj : j ≠ c) : Agree V V' (j :: π) := fun ρ =>
  h _ (not_suffix_sibling hj ρ)

theorem Frame.self (h : Frame V V' (c :: π)) : V' π = V π :=
  h π fun ⟨ρ, hρ⟩ => by
    have := congrArg List.length hρ
    simp at this
    omega

theorem Agree.update (h : ¬ ρ <:+ π) : Agree V (Function.update V π n) ρ := fun ξ =>
  Function.update_of_ne (fun e => h ⟨ξ, e⟩) _ _

theorem Agree.update_parent : Agree V (Function.update V π n) (c :: π) := by
  apply Agree.update
  rintro ⟨ρ, hρ⟩
  have := congrArg List.length hρ
  simp at this
  omega

theorem Agree.child (h : Agree V V' π) (c : ChildNr) : Agree V V' (c :: π) := fun ρ => by
  simpa using h (ρ ++ [c])

theorem Agree.trans (h₁ : Agree V V' π) (h₂ : Agree V' V'' π) : Agree V V'' π := fun ρ =>
  (h₂ ρ).trans (h₁ ρ)

theorem Agree.self (h : Agree V V' π) : V' π = V π := h []

theorem Agree.childrenOf (h : Agree V V' π) (n : Node) : childrenOf V' π n = childrenOf V π n := by
  funext i
  unfold MegaTree.childrenOf
  rw [(h.child i).self]

end Frames

variable {I : Summary} {V V' : Path → Option Node} {π : Path} {t : CellTree}

/-- Only the nodes at and below the path matter. -/
theorem Rep.congr (h : Rep I V π t) (ha : Agree V V' π) : Rep I V' π t := by
  induction t generalizing π with
  | empty => intro ρ; rw [ha ρ]; exact h ρ
  | leaf a =>
    refine ⟨by rw [ha.self]; exact h.1, fun ρ i => ?_⟩
    have := ha (ρ ++ [i])
    simp only [List.append_assoc, List.singleton_append] at this
    rw [this]
    exact h.2 ρ i
  | branch kids ih =>
    obtain ⟨⟨n, hn, hk, hm, hI⟩, hkids⟩ := h
    refine ⟨⟨n, by rw [ha.self]; exact hn, hk, hm, ?_⟩, fun i => ih i (hkids i) (ha.child i)⟩
    rw [ha.childrenOf]
    exact hI

theorem Opened.congr (h : Opened I V π t) (ha : Agree V V' π) : Opened I V' π t := by
  cases t with
  | empty =>
    obtain ⟨⟨n, hn, hk⟩, hd⟩ := h
    refine ⟨⟨n, by rw [ha.self]; exact hn, hk⟩, fun ρ i => ?_⟩
    have := ha (ρ ++ [i])
    simp only [List.append_assoc, List.singleton_append] at this
    rw [this]
    exact hd ρ i
  | leaf a => exact Rep.congr h ha
  | branch kids => exact Rep.congr h ha

theorem Rep.opened (h : Rep I V π t) (ht : t ≠ .empty) : Opened I V π t := by
  cases t with
  | empty => exact absurd rfl ht
  | leaf a => exact h
  | branch kids => exact h

theorem Opened.rep (h : Opened I V π t) (ht : t ≠ .empty) : Rep I V π t := by
  cases t with
  | empty => exact absurd rfl ht
  | leaf a => exact h
  | branch kids => exact h

/-- A cell without a node is empty, and the node of an occupied cell has its count. -/
theorem Rep.node (h : Rep I V π t) :
    (t = .empty ∧ V π = none) ∨
      ∃ n, t ≠ .empty ∧ V π = some n ∧ n.count = .ofNat (points t) := by
  cases t with
  | empty => exact .inl ⟨rfl, h []⟩
  | leaf a => exact .inr ⟨a, by simp, h.1, by simp [Policy.weight, pointCount]⟩
  | branch kids =>
    obtain ⟨⟨n, hn, hk, -⟩, -⟩ := h
    exact .inr ⟨n, by simp, hn, hk⟩

theorem Opened.node (h : Opened I V π t) : ∃ n, V π = some n ∧ n.count = .ofNat (points t) := by
  cases t with
  | empty =>
    obtain ⟨⟨n, hn, hk, -⟩, -⟩ := h
    exact ⟨n, hn, hk⟩
  | leaf a => exact ⟨a, h.1, by simp [Policy.weight, pointCount]⟩
  | branch kids =>
    obtain ⟨⟨n, hn, hk, -⟩, -⟩ := h
    exact ⟨n, hn, hk⟩

/-- The node of an open cell without points has no children. -/
theorem Opened.children_empty {n : Node} (h : Opened I V π .empty) (hn : V π = some n) :
    n.children = 0 := by
  obtain ⟨⟨n', hn', -, hchildren⟩, -⟩ := h
  rw [hn] at hn'
  obtain rfl := Option.some.inj hn'
  exact hchildren

end MegaTree
