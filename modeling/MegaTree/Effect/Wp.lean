import MegaTree.Effect.Prog

/-!
# Weakest preconditions

`wp h p Q X s` says that, started in `s` and whatever the handler leaves open, the program `p`
misuses no operation, returns only values and states that satisfy `Q`, and fails only with errors
in `X`.  Because a `Prog` is a well-founded tree this is total correctness: the run under any one
choice ends in `Q` or fails in `X` (`Prog.wp_run`).
-/

namespace Effect

namespace Prog

variable {G : Sig} {E α β C S : Type} {h : Handler G C S}

/-- The weakest precondition of `p` for the postcondition `Q` and the allowed failures `X`. -/
def wp (h : Handler G C S) : Prog G E α → (α → S → Prop) → (E → Prop) → S → Prop
  | ret a, Q, _, s => Q a s
  | fail e, _, X, _ => X e
  | call o k, Q, X, s => ∀ c, ∃ r s', h c o s = some (r, s') ∧ (k r).wp h Q X s'

@[simp] theorem wp_ret (a : α) (Q : α → S → Prop) (X : E → Prop) (s : S) :
    (ret a : Prog G E α).wp h Q X s ↔ Q a s := Iff.rfl

@[simp] theorem wp_fail (e : E) (Q : α → S → Prop) (X : E → Prop) (s : S) :
    (fail e : Prog G E α).wp h Q X s ↔ X e := Iff.rfl

theorem wp_call {o : G.Op} {k : G.Res o → Prog G E α} {Q : α → S → Prop} {X : E → Prop} {s : S} :
    (call o k).wp h Q X s ↔ ∀ c, ∃ r s', h c o s = some (r, s') ∧ (k r).wp h Q X s' := Iff.rfl

theorem wp_mono {p : Prog G E α} {Q Q' : α → S → Prop} {X X' : E → Prop} {s : S}
    (hp : p.wp h Q X s) (hQ : ∀ a t, Q a t → Q' a t) (hX : ∀ e, X e → X' e) :
    p.wp h Q' X' s := by
  induction p generalizing s with
  | ret a => exact hQ a s hp
  | fail e => exact hX e hp
  | call o k ih =>
    intro c
    obtain ⟨r, s', hr, hk⟩ := hp c
    exact ⟨r, s', hr, ih r hk⟩

theorem wp_bind {p : Prog G E α} {f : α → Prog G E β} {Q : β → S → Prop} {X : E → Prop} {s : S} :
    (p.bind f).wp h Q X s ↔ p.wp h (fun a t => (f a).wp h Q X t) X s := by
  induction p generalizing s with
  | ret a => rfl
  | fail e => rfl
  | call o k ih =>
    simp only [call_bind, wp_call]
    exact forall_congr' fun c => exists_congr fun r => exists_congr fun s' =>
      and_congr_right fun _ => ih r

@[simp] theorem wp_op {o : G.Op} {Q : G.Res o → S → Prop} {X : E → Prop} {s : S} :
    (op o : Prog G E _).wp h Q X s ↔ ∀ c, ∃ r s', h c o s = some (r, s') ∧ Q r s' := Iff.rfl

theorem wp_lift {x : Except E α} {Q : α → S → Prop} {X : E → Prop} {s : S} :
    (lift x : Prog G E α).wp h Q X s ↔ (∀ a, x = .ok a → Q a s) ∧ ∀ e, x = .error e → X e := by
  cases x <;> simp [lift]

@[simp] theorem wp_ensure {b : Bool} {e : E} {Q : Unit → S → Prop} {X : E → Prop} {s : S} :
    (ensure b e : Prog G E Unit).wp h Q X s ↔ if b then Q () s else X e := by
  cases b <;> simp [ensure]

theorem wp_ite {b : Prop} [Decidable b] {p q : Prog G E α} {Q : α → S → Prop} {X : E → Prop}
    {s : S} (hp : b → p.wp h Q X s) (hq : ¬b → q.wp h Q X s) :
    (if b then p else q).wp h Q X s := by
  by_cases hb : b
  · rw [if_pos hb]
    exact hp hb
  · rw [if_neg hb]
    exact hq hb

/-- Every execution keeps the weakest precondition of what is left to do. -/
theorem wp_exec {p p' : Prog G E α} {Q : α → S → Prop} {X : E → Prop} {s s' : S}
    (hp : p.wp h Q X s) (he : Exec h p s p' s') : p'.wp h Q X s' := by
  induction he with
  | refl => exact hp
  | call c hc _ ih =>
    obtain ⟨r', t, ht, hk⟩ := hp c
    rw [hc] at ht
    obtain ⟨rfl, rfl⟩ := Prod.mk.inj (Option.some.inj ht)
    exact ih hk

/-- The run under any one choice ends in `Q` or fails in `X`. -/
theorem wp_run {p : Prog G E α} {Q : α → S → Prop} {X : E → Prop} {s : S}
    (hp : p.wp h Q X s) (c : C) :
    (∃ a s', p.run h c s = .ok (a, s') ∧ Q a s') ∨ ∃ e, p.run h c s = .error (.failed e) ∧ X e := by
  induction p generalizing s with
  | ret a => exact .inl ⟨a, s, rfl, hp⟩
  | fail e => exact .inr ⟨e, rfl, hp⟩
  | call o k ih =>
    obtain ⟨r, s', hr, hk⟩ := hp c
    simp only [run, hr]
    exact ih r hk

/-- A program that fails in every run does not satisfy a specification without failures. -/
theorem not_wp_of_fails {p : Prog G E α} {Q : α → S → Prop} {X : E → Prop} {s : S} (c : C)
    (hp : p.wp h (fun _ _ => False) X s) : ¬ p.wp h Q (fun _ => False) s := by
  intro hq
  rcases wp_run hp c with ⟨_, _, -, hf⟩ | ⟨e, he, -⟩
  · exact hf
  · rcases wp_run hq c with ⟨a, s', ha, -⟩ | ⟨_, -, hf⟩
    · rw [he] at ha
      cases ha
    · exact hf

end Prog

end Effect
