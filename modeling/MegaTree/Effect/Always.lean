import MegaTree.Effect.Prog

/-!
# Whatever the replies

`Always P Q X p` says that `p` calls only operations in `P`, returns only values in `Q` and fails
only with errors in `X`, whatever the operations reply.  It needs no handler and no state, so it
holds under every meaning of the operations, also when other programs run in between
(`Always.exec`).

What a program always returns can be used to rewrite what follows it (`Always.bind_eq_self`).
-/

namespace Effect

namespace Prog

variable {G : Sig} {E α β C S : Type} {p : Prog G E α} {P : G.Op → Prop} {Q Q' : α → Prop}
  {X : E → Prop}

/-- The operations in `P` are the only calls of a program, and the values in `Q` and the errors in
`X` are its only ends. -/
def Always (P : G.Op → Prop) (Q : α → Prop) (X : E → Prop) : Prog G E α → Prop
  | ret a => Q a
  | fail e => X e
  | call o k => P o ∧ ∀ r, (k r).Always P Q X

theorem Always.mono (hp : p.Always P Q X) (hQ : ∀ a, Q a → Q' a) : p.Always P Q' X := by
  induction p with
  | ret a => exact hQ a hp
  | fail e => exact hp
  | call o k ih => exact ⟨hp.1, fun r => ih r (hp.2 r)⟩

/-- The rule for sequencing, with what the first part always returns in the middle. -/
theorem Always.bind {f : α → Prog G E β} {R : β → Prop} (hp : p.Always P Q X)
    (hf : ∀ a, Q a → (f a).Always P R X) : (p.bind f).Always P R X := by
  induction p with
  | ret a => exact hf a hp
  | fail e => exact hp
  | call o k ih => exact ⟨hp.1, fun r => ih r (hp.2 r)⟩

theorem Always.op {o : G.Op} {Q : G.Res o → Prop} (ho : P o) (h : ∀ r, Q r) :
    (Prog.op o : Prog G E (G.Res o)).Always P Q X := ⟨ho, h⟩

theorem Always.lift {x : Except E α} (hok : ∀ a, x = .ok a → Q a) (herr : ∀ e, x = .error e → X e) :
    (Prog.lift x : Prog G E α).Always P Q X := by
  cases x with
  | ok a => exact hok a rfl
  | error e => exact herr e rfl

theorem Always.ensure {b : Bool} {e : E} (he : X e) :
    (Prog.ensure b e : Prog G E Unit).Always P (fun _ => b = true) X := by
  cases b with
  | false => exact he
  | true => rfl

theorem Always.ite {b : Prop} [Decidable b] {q : Prog G E α} (hp : b → p.Always P Q X)
    (hq : ¬ b → q.Always P Q X) : (if b then p else q).Always P Q X := by
  by_cases hb : b
  · rw [if_pos hb]
    exact hp hb
  · rw [if_neg hb]
    exact hq hb

/-- Every execution keeps it. -/
theorem Always.exec {h : Handler G C S} {p' : Prog G E α} {s s' : S} (hp : p.Always P Q X)
    (he : Exec h p s p' s') : p'.Always P Q X := by
  induction he with
  | refl => exact hp
  | call c _ _ ih => exact ih (hp.2 _)

/-- A continuation that returns every value that is always returned does nothing. -/
theorem Always.bind_eq_self {f : α → Prog G E α} (hp : p.Always P Q X)
    (hf : ∀ a, Q a → f a = .ret a) :
    p.bind f = p := by
  induction p with
  | ret a => exact hf a hp
  | fail e => rfl
  | call o k ih => rw [call_bind, funext fun r => ih r (hp.2 r)]

end Prog

end Effect
