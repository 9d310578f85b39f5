import Mathlib.Logic.Function.Basic
import Mathlib.Tactic.TypeStar

/-!
# Systems that take labelled steps

A system is a partial step function: `step d m` is the state after the step `d`, or `none` where
that step is not possible.  `Reach` are the states that can be reached by steps that meet a
condition, and `Reach.invariant` is the induction over them.
-/

namespace Effect

variable {D M : Type*} (step : D → M → Option M)

/-- The states that can be reached from `m₀` by steps that meet the condition `ok`. -/
inductive Reach (ok : M → D → Prop) (m₀ : M) : M → Prop
  | refl : Reach ok m₀ m₀
  | tail {m m' : M} (d : D) : Reach ok m₀ m → ok m d → step d m = some m' → Reach ok m₀ m'

/-- Take the steps of a list, one after the other. -/
def play : List D → M → Option M
  | [], m => some m
  | d :: ds, m => (step d m).bind (play ds)

variable {step} {ok ok' : M → D → Prop} {m₀ m : M}

namespace Reach

/-- What holds in the beginning and survives every step holds in every reachable state. -/
theorem invariant {I : M → Prop} (h : Reach step ok m₀ m) (h₀ : I m₀)
    (hstep : ∀ m d m', I m → ok m d → step d m = some m' → I m') : I m := by
  induction h with
  | refl => exact h₀
  | tail d _ hok hd ih => exact hstep _ d _ ih hok hd

theorem mono (h : Reach step ok m₀ m) (hok : ∀ m d, ok m d → ok' m d) : Reach step ok' m₀ m := by
  induction h with
  | refl => exact .refl
  | tail d _ hd hs ih => exact .tail d ih (hok _ d hd) hs

theorem head {m₁ : M} (d : D) (hok : ok m₀ d) (hd : step d m₀ = some m₁)
    (h : Reach step ok m₁ m) : Reach step ok m₀ m := by
  induction h with
  | refl => exact .tail d .refl hok hd
  | tail e _ he hs ih => exact .tail e ih he hs

/-- Playing a list of steps reaches the state at its end. -/
theorem of_play {ds : List D} (h : play step ds m₀ = some m) :
    Reach step (fun _ _ => True) m₀ m := by
  induction ds generalizing m₀ with
  | nil =>
    obtain rfl := Option.some.inj h
    exact .refl
  | cons d ds ih =>
    obtain ⟨m₁, hd, hds⟩ := Option.bind_eq_some_iff.1 h
    exact head d trivial hd (ih hds)

/-- Playing steps that meet a condition reaches a state by such steps. -/
theorem of_play_if [∀ m d, Decidable (ok m d)] {ds : List D}
    (h : play (fun d m => if ok m d then step d m else none) ds m₀ = some m) :
    Reach step ok m₀ m := by
  induction ds generalizing m₀ with
  | nil =>
    obtain rfl := Option.some.inj h
    exact .refl
  | cons d ds ih =>
    obtain ⟨m₁, hd, hds⟩ := Option.bind_eq_some_iff.1 h
    by_cases hok : ok m₀ d
    · exact head d hok (by simpa only [if_pos hok] using hd) (ih hds)
    · simp only [if_neg hok, reduceCtorEq] at hd

end Reach

/-- Where every step is, seen through `π`, a step of another system or none, a list of steps is
matched by a list of steps of the other system. -/
theorem exists_play_of_refines {D' M' : Type*} {step' : D' → M' → Option M'} {π : M → M'}
    (hstep : ∀ d m m', step d m = some m' →
      π m' = π m ∨ ∃ d', step' d' (π m) = some (π m'))
    {ds : List D} (h : play step ds m₀ = some m) : ∃ ds', play step' ds' (π m₀) = some (π m) := by
  induction ds generalizing m₀ with
  | nil =>
    obtain rfl := Option.some.inj h
    exact ⟨[], rfl⟩
  | cons d ds ih =>
    obtain ⟨m₁, hd, hds⟩ := Option.bind_eq_some_iff.1 h
    obtain ⟨ds', hplay⟩ := ih hds
    rcases hstep d m₀ m₁ hd with heq | ⟨d', hd'⟩
    · exact ⟨ds', heq ▸ hplay⟩
    · refine ⟨d' :: ds', ?_⟩
      rw [play, hd']
      exact hplay

/-- Where every step of a list keeps an invariant and lowers a measure, the list is not longer than
the measure was. -/
theorem play_bounded {I : M → Prop} {w : M → Nat} {ds : List D} (h : play step ds m₀ = some m)
    (h₀ : I m₀) (hstep : ∀ d ∈ ds, ∀ m m', I m → step d m = some m' → I m' ∧ w m' < w m) :
    I m ∧ ds.length + w m ≤ w m₀ := by
  induction ds generalizing m₀ with
  | nil =>
    obtain rfl := Option.some.inj h
    exact ⟨h₀, Nat.le_of_eq (Nat.zero_add _)⟩
  | cons d ds ih =>
    obtain ⟨m₁, hd, hds⟩ := Option.bind_eq_some_iff.1 h
    obtain ⟨h₁, hlt⟩ := hstep d List.mem_cons_self m₀ m₁ h₀ hd
    obtain ⟨hI, hle⟩ := ih hds h₁ fun d' hd' => hstep d' (List.mem_cons_of_mem _ hd')
    refine ⟨hI, ?_⟩
    rw [List.length_cons]
    omega

end Effect
