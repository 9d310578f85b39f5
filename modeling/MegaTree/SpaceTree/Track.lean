import MegaTree.SpaceTree.Basic
import Mathlib.Data.Multiset.AddSub
import Mathlib.Algebra.BigOperators.Group.Multiset.Basic
import Mathlib.Algebra.Order.Group.Multiset

/-!
# Trees that remember their points

`Policy.track` is a policy whose values also carry the multiset of the points that were sorted into
the cell.  Forgetting them gives the tree of the original policy (`Policy.insertAll_track`), and no
point is lost or duplicated on the way (`Policy.contents_insertAll`).

`Policy.KeepsAt` and `Policy.Fits.insertAll` are the invariant rule for values whose properties
depend on the points being in the cell.
-/

namespace SpaceTree

variable {ι γ α β ρ : Type}

/-- Change the values of a tree. -/
def Tree.map (f : α → β) : Tree ι α → Tree ι β
  | .empty => .empty
  | .leaf a => .leaf (f a)
  | .branch kids => .branch fun i => (kids i).map f

namespace Policy

variable [DecidableEq ι] {P : Policy ι γ α ρ} {p : ρ} {n : ℕ} {g : γ}

theorem map_update (f : α → β) (kids : ι → Tree ι α) (i : ι) (u : Tree ι α) :
    (fun j => (Function.update kids i u j).map f) =
      Function.update (fun j => (kids j).map f) i (u.map f) := by
  funext j
  by_cases h : j = i
  · subst h; simp
  · simp [h]

/-! ### Invariants of the values -/

/-- The values that the insertions make satisfy `A`, when the points satisfy `C` in their cells. -/
structure KeepsAt (P : Policy ι γ α ρ) (C : γ → ρ → Prop) (A : γ → α → Prop) (B : ℕ)
    (size : α → ℕ) : Prop where
  which : ∀ g p, C g p → C (P.child g (P.which g p)) p
  single : ∀ g p, P.fine g = true → C g p → A g (P.single g p)
  merge : ∀ g a p, P.finest g = true → size a + 1 < B → C g p → A g a → A g (P.merge g a p)
  push : ∀ g a, P.finest g = false → A g a → A (P.child g (P.push a).1) (P.push a).2

theorem Fits.splitAt {A : γ → α → Prop} {t : Tree ι α}
    (hk : ∀ a, A g a → A (P.child g (P.push a).1) (P.push a).2) (ht : P.Fits A g t) (i : ι) :
    P.Fits A (P.child g i) (P.split t i) := by
  cases t with
  | empty => trivial
  | leaf a =>
    by_cases hi : i = (P.push a).1
    · subst hi
      rw [Policy.split, Function.update_self]
      exact hk a ht
    · rw [Policy.split, Function.update_of_ne hi]
      trivial
  | branch kids => exact ht.2.2 i

theorem Fits.insertAt [Fintype ι] {C : γ → ρ → Prop} {A : γ → α → Prop} {B : ℕ} {size : α → ℕ}
    {t u : Tree ι α} (hk : P.KeepsAt C A B size)
    (hfine : ∀ g, P.finest g = true → P.fine g = true) (hpush : ∀ a, size (P.push a).2 = size a)
    (hp : C g p) (ht : P.Fits A g t) (hB : weight size t + 1 < B)
    (h : P.insert p n g t = some u) : P.Fits A g u := by
  have stops : ∀ {g : γ} {t : Tree ι α} {a : α}, C g p → P.Fits A g t → weight size t + 1 < B →
      P.stop p g t = some a → A g a := by
    intro g t a hp ht hB h
    cases t with
    | empty =>
      simp only [Policy.stop] at h
      split_ifs at h with hf
      obtain rfl := Option.some.inj h
      exact hk.single g p hf hp
    | leaf b =>
      simp only [Policy.stop] at h
      split_ifs at h with hf
      obtain rfl := Option.some.inj h
      exact hk.merge g b p hf hB hp ht
    | branch kids => cases h
  induction n generalizing g t u with
  | zero =>
    obtain ⟨a, ha, rfl⟩ := Option.map_eq_some_iff.1 h
    exact stops hp ht hB ha
  | succ n ih =>
    cases hs : P.stop p g t with
    | some a =>
      rw [insert_of_stop hs] at h
      obtain rfl := Option.some.inj h
      exact stops hp ht hB hs
    | none =>
      rw [insert_succ hs] at h
      obtain ⟨v, hv, rfl⟩ := Option.map_eq_some_iff.1 h
      have hg := stop_none_finest hfine ht hs
      have hsplit := weight_split hpush t
      have hle := weight_kid_le size (P.split t) (P.which g p)
      have hkid := ht.splitAt fun a => hk.push g a hg
      refine ⟨hg, ⟨P.which g p, by rw [Function.update_self]; exact insert_ne_empty hv⟩, fun i => ?_⟩
      by_cases hi : i = P.which g p
      · subst hi
        rw [Function.update_self]
        exact ih (hk.which g p hp) (hkid _) (by omega) hv
      · rw [Function.update_of_ne hi]
        exact hkid i

/-- The invariant of the values holds after any number of insertions. -/
theorem Fits.insertAll [Fintype ι] {C : γ → ρ → Prop} {A : γ → α → Prop} {B : ℕ} {size : α → ℕ}
    {t u : Tree ι α} (hk : P.KeepsAt C A B size)
    (hfine : ∀ g, P.finest g = true → P.fine g = true) (hpush : ∀ a, size (P.push a).2 = size a)
    (hsingle : ∀ g p, size (P.single g p) = 1)
    (hmerge : ∀ g a p, size a + 1 < B → size (P.merge g a p) = size a + 1) {ps : List ρ}
    (hps : ∀ p ∈ ps, C g p) (ht : P.Fits A g t) (hB : weight size t + ps.length < B)
    (h : P.insertAll n g ps t = some u) : P.Fits A g u := by
  induction ps generalizing t with
  | nil =>
    obtain rfl := Option.some.inj h
    exact ht
  | cons p ps ih =>
    rw [List.length_cons] at hB
    rw [Policy.insertAll] at h
    obtain ⟨v, hv, h⟩ := Option.bind_eq_some_iff.1 h
    have hw := weight_insert hsingle hmerge hpush (by omega) hv
    exact ih (fun q hq => hps q (List.mem_cons_of_mem _ hq))
      (ht.insertAt hk hfine hpush (hps p List.mem_cons_self) (by omega) hv) (by omega) h

/-! ### Points -/

variable (P) in
/-- The same policy, with the points of every cell. -/
def track : Policy ι γ (α × Multiset ρ) ρ where
  fine := P.fine
  finest := P.finest
  single g p := (P.single g p, {p})
  merge g a p := (P.merge g a.1 p, p ::ₘ a.2)
  push a := ((P.push a.1).1, ((P.push a.1).2, a.2))
  which := P.which
  child := P.child

omit [DecidableEq ι] in
theorem stop_track (t : Tree ι (α × Multiset ρ)) :
    P.stop p g (t.map Prod.fst) = (P.track.stop p g t).map Prod.fst := by
  cases t with
  | empty =>
    simp only [Tree.map, stop, track]
    by_cases h : P.fine g = true <;> simp [h]
  | leaf a =>
    simp only [Tree.map, stop, track]
    by_cases h : P.finest g = true <;> simp [h]
  | branch kids => rfl

theorem split_track (t : Tree ι (α × Multiset ρ)) (i : ι) :
    P.split (t.map Prod.fst) i = (P.track.split t i).map Prod.fst := by
  cases t with
  | empty => rfl
  | leaf a =>
    by_cases h : i = (P.push a.1).1
    · subst h
      simp [Tree.map, split, track]
    · simp [Tree.map, split, track, h]
  | branch kids => rfl

/-- Forgetting the points commutes with inserting. -/
theorem insert_track (t : Tree ι (α × Multiset ρ)) :
    P.insert p n g (t.map Prod.fst) = (P.track.insert p n g t).map (Tree.map Prod.fst) := by
  induction n generalizing g t with
  | zero =>
    simp only [insert, stop_track, Option.map_map]
    rfl
  | succ n ih =>
    cases hs : P.track.stop p g t with
    | some a =>
      have hs' : P.stop p g (t.map Prod.fst) = some a.1 := by rw [stop_track, hs]; rfl
      rw [insert_of_stop hs, insert_of_stop hs']
      rfl
    | none =>
      have hs' : P.stop p g (t.map Prod.fst) = none := by rw [stop_track, hs]; rfl
      rw [insert_succ hs, insert_succ hs', split_track, ih, Option.map_map, Option.map_map]
      congr 1
      funext u
      have hkids : P.split (t.map Prod.fst) = fun j => (P.track.split t j).map Prod.fst :=
        funext fun j => split_track t j
      simp only [Function.comp_apply, Tree.map, map_update, hkids]
      rfl

theorem insertAll_track (ps : List ρ) (t : Tree ι (α × Multiset ρ)) :
    P.insertAll n g ps (t.map Prod.fst) =
      (P.track.insertAll n g ps t).map (Tree.map Prod.fst) := by
  induction ps generalizing t with
  | nil => rfl
  | cons p ps ih =>
    rw [insertAll, insertAll, insert_track]
    cases P.track.insert p n g t with
    | none => rfl
    | some u => exact ih u

variable [Fintype ι]

/-- All points of a tree. -/
def contents : Tree ι (α × Multiset ρ) → Multiset ρ
  | .empty => 0
  | .leaf a => a.2
  | .branch kids => ∑ i, contents (kids i)

theorem contents_update (kids : ι → Tree ι (α × Multiset ρ)) (i : ι)
    (u : Tree ι (α × Multiset ρ)) :
    contents (.branch (Function.update kids i u)) + contents (kids i) =
      contents (.branch kids) + contents u := by
  simp only [contents]
  rw [← Finset.add_sum_erase _ _ (Finset.mem_univ i),
    ← Finset.add_sum_erase (f := fun j => contents (kids j)) _ (Finset.mem_univ i),
    Function.update_self, Finset.sum_congr rfl fun j hj => by
      rw [Function.update_of_ne (Finset.ne_of_mem_erase hj)], add_right_comm, add_assoc,
    add_left_comm, add_comm (contents u), add_assoc]

theorem contents_split (t : Tree ι (α × Multiset ρ)) :
    contents (.branch (P.track.split t)) = contents t := by
  cases t with
  | empty => simp [split, contents]
  | leaf a =>
    have h := contents_update (fun _ => .empty) (P.push a.1).1 (.leaf ((P.push a.1).2, a.2))
    simpa [split, contents, track] using h
  | branch kids => rfl

omit [DecidableEq ι] in
theorem contents_stop {t : Tree ι (α × Multiset ρ)} {a : α × Multiset ρ}
    (h : P.track.stop p g t = some a) : a.2 = p ::ₘ contents t := by
  cases t with
  | empty =>
    simp only [stop] at h
    split_ifs at h
    obtain rfl := Option.some.inj h
    rfl
  | leaf b =>
    simp only [stop] at h
    split_ifs at h
    obtain rfl := Option.some.inj h
    rfl
  | branch kids => cases h

/-- An insertion adds its point. -/
theorem contents_insert {t u : Tree ι (α × Multiset ρ)} (h : P.track.insert p n g t = some u) :
    contents u = p ::ₘ contents t := by
  induction n generalizing g t u with
  | zero =>
    obtain ⟨a, ha, rfl⟩ := Option.map_eq_some_iff.1 h
    exact contents_stop ha
  | succ n ih =>
    cases hs : P.track.stop p g t with
    | some a =>
      rw [insert_of_stop hs] at h
      obtain rfl := Option.some.inj h
      exact contents_stop hs
    | none =>
      rw [insert_succ hs] at h
      obtain ⟨v, hv, rfl⟩ := Option.map_eq_some_iff.1 h
      have hu := contents_update (P.track.split t) (P.which g p) v
      change contents (.branch (Function.update (P.track.split t) (P.which g p) v)) = _
      refine add_right_cancel (b := contents (P.track.split t (P.which g p))) ?_
      rw [hu, ih hv, contents_split, Multiset.add_cons, Multiset.cons_add]
      rfl

/-- The points of a tree are the points that were inserted. -/
theorem contents_insertAll {t u : Tree ι (α × Multiset ρ)} {ps : List ρ}
    (h : P.track.insertAll n g ps t = some u) : contents u = ↑ps + contents t := by
  induction ps generalizing t with
  | nil =>
    obtain rfl := Option.some.inj h
    simp
  | cons p ps ih =>
    rw [insertAll] at h
    obtain ⟨v, hv, h⟩ := Option.bind_eq_some_iff.1 h
    rw [ih h, contents_insert hv, Multiset.add_cons, ← Multiset.cons_coe, Multiset.cons_add]

end Policy

end SpaceTree
