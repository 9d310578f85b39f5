import Mathlib.Data.List.Induction
import Mathlib.Data.List.TakeWhile

/-!
# Fields of a text

`split` reads the fields of a text one by one, as a stream does: behind a delimiter at the end there
is no further field.

* `split_eq` : the fields are the parts between the delimiters, without an empty one at the end.
* `split_eq_nil_iff`, `split_eq_pair_iff` : the texts with no field, and with two.
* `isLast_concat` : the last element of a list that has a value.
-/

namespace Fields

variable {α β γ : Type*}

section Split

variable [DecidableEq α] {delim : α}

/-- The next field and what is left; `none` at the end of the text. -/
def getline (delim : α) (s : List α) : Option (List α × List α) :=
  if s = [] then none else some (s.takeWhile (· ≠ delim), (s.dropWhile (· ≠ delim)).tail)

@[simp] theorem getline_nil : getline delim [] = none := rfl

theorem getline_of_not_mem {item : List α} (h : delim ∉ item) (hne : item ≠ []) :
    getline delim item = some (item, []) := by
  have hitem : ∀ c ∈ item, decide (c ≠ delim) = true := fun c hc =>
    decide_eq_true fun heq => h (heq ▸ hc)
  rw [getline, if_neg hne, List.takeWhile_eq_self_iff.2 hitem, List.dropWhile_eq_nil_iff.2 hitem,
    List.tail_nil]

theorem getline_append_cons {item : List α} (h : delim ∉ item) (rest : List α) :
    getline delim (item ++ delim :: rest) = some (item, rest) := by
  have hitem : ∀ c ∈ item, decide (c ≠ delim) = true := fun c hc =>
    decide_eq_true fun heq => h (heq ▸ hc)
  rw [getline, if_neg (by simp), List.takeWhile_append_of_pos hitem,
    List.dropWhile_append_of_pos hitem, List.takeWhile_cons_of_neg (by simp),
    List.dropWhile_cons_of_neg (by simp), List.append_nil, List.tail_cons]

/-- A text is one field, or starts with a field and a delimiter. -/
theorem not_mem_or_exists_append_cons (delim : α) (s : List α) :
    delim ∉ s ∨ ∃ item rest, delim ∉ item ∧ s = item ++ delim :: rest := by
  by_cases h : delim ∈ s
  · obtain ⟨item, rest, hs, hitem⟩ := List.eq_append_cons_of_mem h
    exact .inr ⟨item, rest, hitem, hs⟩
  · exact .inl h

theorem length_of_getline {s item rest : List α} (h : getline delim s = some (item, rest)) :
    rest.length < s.length := by
  have hne : s ≠ [] := by
    rintro rfl
    exact absurd h (by simp)
  rcases not_mem_or_exists_append_cons delim s with hmem | ⟨item', rest', hmem, rfl⟩
  · rw [getline_of_not_mem hmem hne, Option.some.injEq, Prod.mk.injEq] at h
    rw [← h.2]
    exact List.length_pos_iff.2 hne
  · rw [getline_append_cons hmem, Option.some.injEq, Prod.mk.injEq] at h
    rw [List.length_append, List.length_cons, ← h.2]
    omega

/-- All fields, in their order. -/
def split (delim : α) (s : List α) : List (List α) :=
  match _h : getline delim s with
  | none => []
  | some (item, rest) => item :: split delim rest
termination_by s.length
decreasing_by exact length_of_getline _h

@[simp] theorem split_nil : split delim [] = [] := by
  rw [split, getline_nil]

theorem split_of_not_mem {item : List α} (h : delim ∉ item) (hne : item ≠ []) :
    split delim item = [item] := by
  rw [split, getline_of_not_mem h hne]
  simp only [split_nil]

theorem split_append_cons {item : List α} (h : delim ∉ item) (rest : List α) :
    split delim (item ++ delim :: rest) = item :: split delim rest := by
  rw [split, getline_append_cons h]

/-- The parts without an empty one at the end. -/
def dropEnd : List (List α) → List (List α)
  | [] => []
  | part :: parts => if part = [] ∧ parts = [] then [] else part :: dropEnd parts

omit [DecidableEq α] in
@[simp] theorem dropEnd_cons_cons (part part' : List α) (parts : List (List α)) :
    dropEnd (part :: part' :: parts) = part :: dropEnd (part' :: parts) := by
  simp [dropEnd]

/-- The fields are the parts between the delimiters, without an empty one at the end. -/
theorem split_eq (s : List α) : split delim s = dropEnd (s.splitOn delim) := by
  induction hn : s.length using Nat.strong_induction_on generalizing s with
  | _ n ih =>
    rcases not_mem_or_exists_append_cons delim s with hmem | ⟨item, rest, hmem, rfl⟩
    · rw [List.splitOn_eq_singleton hmem]
      by_cases hne : s = []
      · simp [hne, dropEnd]
      · simp [split_of_not_mem hmem hne, dropEnd, hne]
    · have hrest := ih rest.length (by simp [← hn]; omega) rest rfl
      rw [split_append_cons hmem, List.splitOn_append_cons_self_of_not_mem hmem, hrest]
      obtain ⟨part, parts, hparts⟩ := List.exists_cons_of_ne_nil (List.splitOn_ne_nil delim rest)
      rw [hparts, dropEnd_cons_cons]

theorem split_pair_iff {s key value : List α} :
    split delim s = [key, value] ↔
      s.splitOn delim = [key, value] ∧ value ≠ [] ∨ s.splitOn delim = [key, value, []] := by
  rw [split_eq]
  rcases s.splitOn delim with _ | ⟨a, _ | ⟨b, _ | ⟨c, _ | ⟨d, parts⟩⟩⟩⟩
  · simp [dropEnd]
  · by_cases ha : a = [] <;> simp [dropEnd, ha]
  · by_cases hb : b = []
    · simp +contextual [dropEnd, hb, eq_comm]
    · simp only [dropEnd, hb, if_false, and_true, List.cons.injEq, reduceCtorEq,
        and_false, or_false]
      exact ⟨fun h => ⟨h, h.2 ▸ hb⟩, And.left⟩
  · by_cases hc : c = [] <;> simp [dropEnd, hc]
  · simp [dropEnd]

/-- No field, one field, or the first two parts are the first two fields. -/
theorem split_cases (delim : α) (s : List α) :
    (s = [] ∧ split delim s = []) ∨
    (∃ item, split delim s = [item] ∧ (s = item ∨ s = item ++ [delim]) ∧
      (s.splitOn delim = [item] ∨ s.splitOn delim = [item, []])) ∨
    ∃ a b rest rest', split delim s = a :: b :: rest ∧ s.splitOn delim = a :: b :: rest' := by
  have hjoin : [delim].intercalate (s.splitOn delim) = s := List.intercalate_splitOn delim
  rw [split_eq]
  generalize s.splitOn delim = parts at hjoin ⊢
  rcases parts with _ | ⟨a, _ | ⟨b, parts⟩⟩
  · exact .inl ⟨by simpa using hjoin.symm, rfl⟩
  · by_cases ha : a = []
    · exact .inl ⟨by simpa [ha] using hjoin.symm, by simp [dropEnd, ha]⟩
    · exact .inr (.inl ⟨a, by simp [dropEnd, ha], .inl (by simpa using hjoin.symm), .inl rfl⟩)
  · by_cases hb : b = [] ∧ parts = []
    · obtain ⟨rfl, rfl⟩ := hb
      refine .inr (.inl ⟨a, by simp [dropEnd], .inr ?_, .inr rfl⟩)
      simpa [List.intercalate, List.intersperse] using hjoin.symm
    · exact .inr (.inr ⟨a, b, dropEnd parts, parts, by simp [dropEnd, hb], rfl⟩)

end Split

/-! ### The last element with a value -/

section Last

/-- The last element of a list that has a value, by the relation `P`, has this one. -/
def IsLast (P : α → β → Prop) (xs : List α) (y : β) : Prop :=
  ∃ front x back, xs = front ++ x :: back ∧ P x y ∧ ∀ x' ∈ back, ∀ y', ¬P x' y'

variable {P : α → β → Prop} {xs : List α} {x : α} {y y' : β}

theorem not_isLast_nil : ¬IsLast P [] y := by
  rintro ⟨front, x, back, hxs, -, -⟩
  simp at hxs

theorem isLast_concat : IsLast P (xs ++ [x]) y ↔ P x y ∨ (∀ y', ¬P x y') ∧ IsLast P xs y := by
  constructor
  · rintro ⟨front, x', back, hxs, hP, hback⟩
    rcases List.eq_nil_or_concat back with rfl | ⟨back, x'', rfl⟩
    · obtain ⟨-, hx⟩ := List.append_inj' hxs rfl
      exact .inl ((List.singleton_inj.1 hx) ▸ hP)
    · rw [List.concat_eq_append, ← List.cons_append, ← List.append_assoc] at hxs
      obtain ⟨hxs, hx⟩ := List.append_inj' hxs rfl
      rw [List.singleton_inj.1 hx]
      exact .inr ⟨hback x'' (by simp), front, x', back, hxs, hP,
        fun z hz => hback z (by simp [hz])⟩
  · rintro (hP | ⟨hx, front, x', back, rfl, hP, hback⟩)
    · exact ⟨xs, x, [], rfl, hP, by simp⟩
    · refine ⟨front, x', back ++ [x], by simp, hP, fun z hz => ?_⟩
      rcases List.mem_append.1 hz with hz | hz
      · exact hback z hz
      · exact List.mem_singleton.1 hz ▸ hx

theorem IsLast.unique (hP : ∀ x y y', P x y → P x y' → y = y') (h : IsLast P xs y)
    (h' : IsLast P xs y') : y = y' := by
  induction xs using List.reverseRecOn with
  | nil => exact absurd h not_isLast_nil
  | append_singleton xs x ih =>
    rw [isLast_concat] at h h'
    rcases h with h | ⟨hx, h⟩ <;> rcases h' with h' | ⟨hx', h'⟩
    · exact hP x y y' h h'
    · exact absurd h (hx' y)
    · exact absurd h' (hx y')
    · exact ih h h'

/-- An empty part at the end that has no value makes no difference. -/
theorem isLast_dropEnd {P : List α → β → Prop} (hP : ∀ y, ¬P [] y) (parts : List (List α)) :
    IsLast P (dropEnd parts) y ↔ IsLast P parts y := by
  have hforms : dropEnd parts = parts ∨ parts = dropEnd parts ++ [[]] := by
    induction parts with
    | nil => exact .inl rfl
    | cons part parts ih =>
      by_cases h : part = [] ∧ parts = []
      · exact .inr (by simp [dropEnd, h])
      · rw [dropEnd, if_neg h, List.cons_append]
        exact ih.imp (congrArg (part :: ·)) (congrArg (part :: ·))
  have hconcat : ∀ parts', parts = parts' ++ [[]] → (IsLast P parts' y ↔ IsLast P parts y) := by
    rintro parts' rfl
    rw [isLast_concat, or_iff_right (hP y), and_iff_right hP]
  rcases hforms with h | h
  · rw [h]
  · rw [hconcat _ h]

end Last

end Fields
