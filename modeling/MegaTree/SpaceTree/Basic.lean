import Mathlib.Algebra.BigOperators.Fin
import Mathlib.Algebra.BigOperators.Group.Finset.Basic
import Mathlib.Algebra.Order.BigOperators.Group.Finset
import Mathlib.Data.Fintype.Basic

/-!
# Trees over nested cells

A space is divided into nested cells: a cell `g : γ` has a child cell for every `i : ι`.  A `Tree`
keeps one value per occupied cell that is not divided further, and a `Policy` says when a cell takes
a point and when it is divided.  `Policy.insert` sorts one point into a tree with a bounded number
of levels; it has no result when the levels are used up.

## Main results

* `Policy.insert_plug` : inserting at the root is inserting in the middle of the tree, for a point
  that belongs to the cell there.
* `Policy.weight_insert` : an insertion adds one to the weight.
* `Policy.Fits.insert` : the shape rules are kept.
* `Policy.insert_isSome` : the levels suffice when the cells get small enough.
-/

namespace SpaceTree

/-- A tree over nested cells with children `ι` and values `α`. -/
inductive Tree (ι α : Type) : Type
  /-- A cell without a point. -/
  | empty
  /-- A cell that is not divided. -/
  | leaf (a : α)
  /-- A divided cell. -/
  | branch (kids : ι → Tree ι α)

/-- How points `ρ` are sorted into cells `γ` with values `α`. -/
structure Policy (ι γ α ρ : Type) where
  /-- An empty cell of this kind takes a point at once. -/
  fine : γ → Bool
  /-- A cell of this kind is not divided. -/
  finest : γ → Bool
  /-- The value of a cell with one point. -/
  single : γ → ρ → α
  /-- One more point in a cell. -/
  merge : γ → α → ρ → α
  /-- The child that takes over the value when a cell is divided, and the value there. -/
  push : α → ι × α
  /-- The child a point belongs to. -/
  which : γ → ρ → ι
  /-- The cell of a child. -/
  child : γ → ι → γ

variable {ι γ α ρ : Type} [DecidableEq ι]

namespace Policy

variable (P : Policy ι γ α ρ)

/-- The value of the cell after the point `p` was added without dividing the cell. -/
def stop (p : ρ) (g : γ) : Tree ι α → Option α
  | .empty => if P.fine g then some (P.single g p) else none
  | .leaf a => if P.finest g then some (P.merge g a p) else none
  | .branch _ => none

/-- The children of a cell once it is divided. -/
def split : Tree ι α → ι → Tree ι α
  | .empty => fun _ => .empty
  | .leaf a => Function.update (fun _ => .empty) (P.push a).1 (.leaf (P.push a).2)
  | .branch kids => kids

/-- Insert a point, with at most `n` more levels. -/
def insert (p : ρ) : ℕ → γ → Tree ι α → Option (Tree ι α)
  | 0, g, t => (P.stop p g t).map .leaf
  | n + 1, g, t =>
    match P.stop p g t with
    | some a => some (.leaf a)
    | none =>
      let i := P.which g p
      (insert p n (P.child g i) (P.split t i)).map fun u =>
        .branch (Function.update (P.split t) i u)

/-- Insert points one after the other. -/
def insertAll (n : ℕ) (g : γ) : List ρ → Tree ι α → Option (Tree ι α)
  | [], t => some t
  | p :: ps, t => (P.insert p n g t).bind (insertAll n g ps)

variable {P} {p : ρ} {n : ℕ} {g : γ} {t u : Tree ι α}

theorem insert_of_stop {a : α} (h : P.stop p g t = some a) : P.insert p n g t = some (.leaf a) := by
  cases n <;> simp [insert, h]

theorem insert_succ (h : P.stop p g t = none) : P.insert p (n + 1) g t =
    (P.insert p n (P.child g (P.which g p)) (P.split t (P.which g p))).map fun u =>
      .branch (Function.update (P.split t) (P.which g p) u) := by
  simp only [insert, h]

theorem insert_zero (h : P.stop p g t = none) : P.insert p 0 g t = none := by
  simp only [insert, h, Option.map_none]

theorem insert_ne_empty (h : P.insert p n g t = some u) : u ≠ .empty := by
  cases hs : P.stop p g t with
  | some a =>
    rw [insert_of_stop hs] at h
    rintro rfl
    cases h
  | none =>
    cases n with
    | zero => rw [insert_zero hs] at h; cases h
    | succ n =>
      rw [insert_succ hs] at h
      obtain ⟨v, -, rfl⟩ := Option.map_eq_some_iff.1 h
      exact fun h => nomatch h

theorem insertAll_append (ps qs : List ρ) : P.insertAll n g (ps ++ qs) t =
    (P.insertAll n g ps t).bind (P.insertAll n g qs) := by
  induction ps generalizing t with
  | nil => rfl
  | cons p ps ih =>
    simp only [List.cons_append, insertAll, Option.bind_assoc]
    congr 1
    funext u
    exact ih

/-! ### Inserting in the middle -/

/-- One step of the way back to the root: the siblings, and the number of the open child. -/
structure Frame (ι α : Type) where
  /-- The children of the cell; the one at `step` is replaced. -/
  kids : ι → Tree ι α
  /-- The open child. -/
  step : ι

/-- Close the frames around a tree, the innermost first. -/
def plug (t : Tree ι α) : List (Frame ι α) → Tree ι α
  | [] => t
  | f :: fs => plug (.branch (Function.update f.kids f.step t)) fs

variable (P) in
/-- The cell inside some frames. -/
def cell (g : γ) : List (Frame ι α) → γ
  | [] => g
  | f :: fs => P.child (cell g fs) f.step

variable (P) in
/-- The point belongs to the cell inside the frames. -/
def Leads (p : ρ) (g : γ) : List (Frame ι α) → Prop
  | [] => True
  | f :: fs => P.which (P.cell g fs) p = f.step ∧ Leads p g fs

/-- Inserting a point at the root is inserting it in the cell it belongs to. -/
theorem insert_plug {fs : List (Frame ι α)} (h : P.Leads p g fs) :
    P.insert p (n + fs.length) g (plug t fs) =
      (P.insert p n (P.cell g fs) t).map fun u => plug u fs := by
  induction fs generalizing t n with
  | nil => simp [plug, cell]
  | cons f fs ih =>
    have hs : P.stop p (P.cell g fs) (.branch (Function.update f.kids f.step t)) = none := rfl
    rw [List.length_cons, plug, show n + (fs.length + 1) = n + 1 + fs.length by omega, ih h.2,
      insert_succ hs, h.1]
    simp only [split, Function.update_self, Function.update_idem, Option.map_map, cell]
    rfl

/-! ### Weights -/

variable [Fintype ι] (size : α → ℕ)

/-- The sum of the sizes of the values. -/
def weight : Tree ι α → ℕ
  | .empty => 0
  | .leaf a => size a
  | .branch kids => ∑ i, weight (kids i)

theorem weight_update (kids : ι → Tree ι α) (i : ι) (u : Tree ι α) :
    weight size (.branch (Function.update kids i u)) + weight size (kids i) =
      weight size (.branch kids) + weight size u := by
  simp only [weight]
  rw [← Finset.add_sum_erase _ _ (Finset.mem_univ i),
    ← Finset.add_sum_erase (f := fun j => weight size (kids j)) _ (Finset.mem_univ i),
    Function.update_self, Finset.sum_congr rfl fun j hj => by
      rw [Function.update_of_ne (Finset.ne_of_mem_erase hj)]]
  omega

omit [DecidableEq ι] in
theorem weight_kid_le (kids : ι → Tree ι α) (i : ι) :
    weight size (kids i) ≤ weight size (.branch kids) :=
  Finset.single_le_sum (f := fun j => weight size (kids j)) (fun _ _ => Nat.zero_le _)
    (Finset.mem_univ i)

variable {size} in
/-- Dividing a cell moves its value, nothing else. -/
theorem weight_split (hpush : ∀ a, size (P.push a).2 = size a) (t : Tree ι α) :
    weight size (.branch (P.split t)) = weight size t := by
  cases t with
  | empty => simp [split, weight]
  | leaf a =>
    have h := weight_update size (fun _ => .empty) (P.push a).1 (.leaf (P.push a).2)
    simp only [weight, Finset.sum_const_zero, hpush, Nat.add_zero, Nat.zero_add] at h
    simpa [split, weight] using h
  | branch kids => rfl

variable {size}

omit [DecidableEq ι] in
theorem weight_stop {B : ℕ} {a : α} (hsingle : ∀ g p, size (P.single g p) = 1)
    (hmerge : ∀ g a p, size a + 1 < B → size (P.merge g a p) = size a + 1)
    (hB : weight size t + 1 < B) (h : P.stop p g t = some a) : size a = weight size t + 1 := by
  cases t with
  | empty =>
    simp only [stop] at h
    split_ifs at h
    obtain rfl := Option.some.inj h
    simp [weight, hsingle]
  | leaf b =>
    simp only [stop] at h
    split_ifs at h
    obtain rfl := Option.some.inj h
    exact hmerge g b p hB
  | branch kids => cases h

/-- An insertion adds one to the weight, as long as the sizes can be counted. -/
theorem weight_insert {B : ℕ} (hsingle : ∀ g p, size (P.single g p) = 1)
    (hmerge : ∀ g a p, size a + 1 < B → size (P.merge g a p) = size a + 1)
    (hpush : ∀ a, size (P.push a).2 = size a) (hB : weight size t + 1 < B)
    (h : P.insert p n g t = some u) : weight size u = weight size t + 1 := by
  induction n generalizing g t u with
  | zero =>
    obtain ⟨a, ha, rfl⟩ := Option.map_eq_some_iff.1 h
    exact weight_stop hsingle hmerge hB ha
  | succ n ih =>
    cases hs : P.stop p g t with
    | some a =>
      rw [insert_of_stop hs] at h
      obtain rfl := Option.some.inj h
      exact weight_stop hsingle hmerge hB hs
    | none =>
      rw [insert_succ hs] at h
      obtain ⟨v, hv, rfl⟩ := Option.map_eq_some_iff.1 h
      have hsplit := weight_split hpush t
      have hle := weight_kid_le size (P.split t) (P.which g p)
      have hv := ih (by omega) hv
      have := weight_update size (P.split t) (P.which g p) v
      omega

omit [Fintype ι]

theorem weight_le_plug [Fintype ι] (size : α → ℕ) (t : Tree ι α) (fs : List (Frame ι α)) :
    weight size t ≤ weight size (plug t fs) := by
  induction fs generalizing t with
  | nil => exact le_rfl
  | cons f fs ih =>
    refine le_trans ?_ (ih _)
    have h := weight_kid_le size (Function.update f.kids f.step t) f.step
    rwa [Function.update_self] at h

/-! ### The shape of the trees that insertions build -/

variable (P) in
/-- Only cells that may be divided are divided, a divided cell has a point, and the values satisfy
`A`. -/
def Fits (A : γ → α → Prop) : γ → Tree ι α → Prop
  | _, .empty => True
  | g, .leaf a => A g a
  | g, .branch kids => P.finest g = false ∧ (∃ i, kids i ≠ .empty) ∧
      ∀ i, Fits A (P.child g i) (kids i)

theorem Fits.of_plug {A : γ → α → Prop} {fs : List (Frame ι α)} (h : P.Fits A g (plug t fs)) :
    P.Fits A (P.cell g fs) t := by
  induction fs generalizing t with
  | nil => exact h
  | cons f fs ih =>
    have hk := (ih h).2.2 f.step
    rwa [Function.update_self] at hk

omit [DecidableEq ι] in
theorem Fits.mono {A A' : γ → α → Prop} (hA : ∀ g a, A g a → A' g a) (h : P.Fits A g t) :
    P.Fits A' g t := by
  induction t generalizing g with
  | empty => trivial
  | leaf a => exact hA g a h
  | branch kids ih => exact ⟨h.1, h.2.1, fun i => ih i (h.2.2 i)⟩

omit [DecidableEq ι] in
theorem stop_none_finest (hfine : ∀ g, P.finest g = true → P.fine g = true) {A : γ → α → Prop}
    (ht : P.Fits A g t) (h : P.stop p g t = none) : P.finest g = false := by
  cases t with
  | empty =>
    by_contra hf
    simp [stop, hfine g (by simpa using hf)] at h
  | leaf a => simpa [stop] using h
  | branch kids => exact ht.1

/-- The values that the insertions make satisfy `A`. -/
structure Keeps (P : Policy ι γ α ρ) (A : γ → α → Prop) (B : ℕ) (size : α → ℕ) : Prop where
  single : ∀ g p, P.fine g = true → A g (P.single g p)
  merge : ∀ g a p, P.finest g = true → size a + 1 < B → A g a → A g (P.merge g a p)
  push : ∀ g a, P.finest g = false → A g a → A (P.child g (P.push a).1) (P.push a).2

theorem Fits.split {A : γ → α → Prop} {B : ℕ} {size : α → ℕ} (hk : P.Keeps A B size)
    (hg : P.finest g = false) (ht : P.Fits A g t) (i : ι) :
    P.Fits A (P.child g i) (P.split t i) := by
  cases t with
  | empty => trivial
  | leaf a =>
    by_cases hi : i = (P.push a).1
    · subst hi
      rw [Policy.split, Function.update_self]
      exact hk.push g a hg ht
    · rw [Policy.split, Function.update_of_ne hi]
      trivial
  | branch kids => exact ht.2.2 i

omit [DecidableEq ι] in
theorem Fits.stop {A : γ → α → Prop} {B : ℕ} {size : α → ℕ} [Fintype ι] (hk : P.Keeps A B size)
    {a : α} (ht : P.Fits A g t) (hB : weight size t + 1 < B) (h : P.stop p g t = some a) :
    A g a := by
  cases t with
  | empty =>
    simp only [Policy.stop] at h
    split_ifs at h with hf
    obtain rfl := Option.some.inj h
    exact hk.single g p hf
  | leaf b =>
    simp only [Policy.stop] at h
    split_ifs at h with hf
    obtain rfl := Option.some.inj h
    exact hk.merge g b p hf hB ht
  | branch kids => cases h

/-- An insertion keeps the shape rules. -/
theorem Fits.insert {A : γ → α → Prop} {B : ℕ} {size : α → ℕ} [Fintype ι] (hk : P.Keeps A B size)
    (hfine : ∀ g, P.finest g = true → P.fine g = true) (hpush : ∀ a, size (P.push a).2 = size a)
    (ht : P.Fits A g t) (hB : weight size t + 1 < B) (h : P.insert p n g t = some u) :
    P.Fits A g u := by
  induction n generalizing g t u with
  | zero =>
    obtain ⟨a, ha, rfl⟩ := Option.map_eq_some_iff.1 h
    exact ht.stop hk hB ha
  | succ n ih =>
    cases hs : P.stop p g t with
    | some a =>
      rw [insert_of_stop hs] at h
      obtain rfl := Option.some.inj h
      exact ht.stop hk hB hs
    | none =>
      rw [insert_succ hs] at h
      obtain ⟨v, hv, rfl⟩ := Option.map_eq_some_iff.1 h
      have hg := stop_none_finest hfine ht hs
      have hsplit := weight_split hpush t
      have hle := weight_kid_le size (P.split t) (P.which g p)
      refine ⟨hg, ⟨P.which g p, by rw [Function.update_self]; exact insert_ne_empty hv⟩, fun i => ?_⟩
      by_cases hi : i = P.which g p
      · subst hi
        rw [Function.update_self]
        exact ih (ht.split hk hg _) (by omega) hv
      · rw [Function.update_of_ne hi]
        exact ht.split hk hg i

variable (P) in
/-- After at most `n` divisions the cells below `g` are not divided any more. -/
def Shallow : ℕ → γ → Prop
  | 0, g => P.finest g = true
  | n + 1, g => P.finest g = true ∨ ∀ i, Shallow n (P.child g i)

/-- With enough levels every point can be inserted. -/
theorem insert_isSome {A : γ → α → Prop} {B : ℕ} {size : α → ℕ} (hk : P.Keeps A B size)
    (hfine : ∀ g, P.finest g = true → P.fine g = true) (hn : P.Shallow n g) (ht : P.Fits A g t) :
    (P.insert p n g t).isSome := by
  induction n generalizing g t with
  | zero =>
    cases hs : P.stop p g t with
    | some a => rw [insert_of_stop hs]; rfl
    | none => rw [Shallow, stop_none_finest hfine ht hs] at hn; cases hn
  | succ n ih =>
    cases hs : P.stop p g t with
    | some a => rw [insert_of_stop hs]; rfl
    | none =>
      have hg := stop_none_finest hfine ht hs
      rw [insert_succ hs, Option.isSome_map]
      rcases hn with hn | hn
      · rw [hg] at hn; cases hn
      · exact ih (hn _) (ht.split hk hg _)

/-- With enough levels any number of points can be inserted, whatever the values are. -/
theorem insertAll_isSome [Fintype ι] (hfine : ∀ g, P.finest g = true → P.fine g = true)
    (hn : P.Shallow n g) {A : γ → α → Prop} (ht : P.Fits A g t) (ps : List ρ) :
    (P.insertAll n g ps t).isSome := by
  -- the shape alone does not depend on the values, so the values may count as nothing
  have hk : P.Keeps (fun _ _ => True) 2 fun _ => 0 :=
    ⟨fun _ _ _ => trivial, fun _ _ _ _ _ _ => trivial, fun _ _ _ _ => trivial⟩
  have weightless : ∀ t : Tree ι α, weight (fun _ => 0) t = 0 := by
    intro t
    induction t with
    | empty => rfl
    | leaf a => rfl
    | branch kids ih => simp [weight, ih]
  replace ht : P.Fits (fun _ _ => True) g t := ht.mono fun _ _ _ => trivial
  induction ps generalizing t with
  | nil => rfl
  | cons p ps ih =>
    obtain ⟨u, hu⟩ := Option.isSome_iff_exists.1 (insert_isSome (p := p) hk hfine hn ht)
    rw [insertAll, hu, Option.bind_some]
    have hB : weight (fun _ => 0) t + 1 < 2 := by rw [weightless]; decide
    exact ih (ht.insert hk hfine (fun _ => rfl) hB hu)

end Policy

end SpaceTree
