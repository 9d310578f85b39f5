import MegaTree.Effect.Transition
import MegaTree.Effect.Wp

/-!
# Programs interleaved with an environment

A `Machine` executes the operations of one client program, and between two operations its
environment may take any number of steps.  A deterministic-looking handler `h` (the *reference*) is
refined by the machine when a relation `R` between their states survives every step of both
(`Machine.Simulates`).  Then whatever is known of the program alone, against the reference, carries
over to every interleaved run: `Machine.Simulates.run`.

The simulation only has to handle operations that the reference allows, so the precondition of the
program is what makes the client steps match.

* `Machine.Run ok` : runs from one configuration to another whose client steps satisfy `ok`;
  `Machine.Run.invariant` is the induction over them.
* `Machine.play` : the run of a given schedule, which can be evaluated; `Machine.drive` : the run in
  which the environment only acts when the client waits.
* `Machine.step` : the steps of whole configurations, for conditions on the step that comes next.
* `Prog.Uses` : the operations a program can call; `Machine.Run.of_uses` turns them into `ok`.
-/

namespace Effect

variable {G : Sig} {E α β C D S M : Type}

namespace Prog

/-- Every operation that the program can call satisfies `P`. -/
def Uses (P : G.Op → Prop) : Prog G E α → Prop
  | ret _ => True
  | fail _ => True
  | call o k => P o ∧ ∀ r, (k r).Uses P

variable {P : G.Op → Prop}

theorem uses_bind {p : Prog G E α} {f : α → Prog G E β} (hp : p.Uses P)
    (hf : ∀ a, (f a).Uses P) : (p.bind f).Uses P := by
  induction p with
  | ret a => exact hf a
  | fail e => trivial
  | call o k ih => exact ⟨hp.1, fun r => ih r (hp.2 r)⟩

theorem uses_op {o : G.Op} (h : P o) : (op o : Prog G E _).Uses P := ⟨h, fun _ => trivial⟩

theorem uses_lift (x : Except E α) : (lift x : Prog G E α).Uses P := by
  cases x <;> trivial

theorem uses_ensure (b : Bool) (e : E) : (ensure b e : Prog G E Unit).Uses P := by
  cases b <;> trivial

/-- Whether there is nothing left to do. -/
def returns : Prog G E α → Bool
  | ret _ => true
  | fail _ => false
  | call _ _ => false

theorem of_returns {p : Prog G E α} (h : p.returns = true) : ∃ a, p = ret a := by
  cases p with
  | ret a => exact ⟨a, rfl⟩
  | fail e => cases h
  | call o k => cases h

end Prog

/-- A machine: its client calls operations, and its environment takes steps of its own.  The
choices `C` and `D` resolve what a step leaves open; `none` means that the step is not possible. -/
structure Machine (G : Sig) (C D M : Type) where
  /-- The steps of the client. -/
  client : Handler G C M
  /-- The steps of the environment. -/
  env : D → M → Option M

namespace Machine

open Prog

variable (A : Machine G C D M)

/-- `Run ok p m p' m'` : the configuration `(p, m)` can reach `(p', m')`, and every operation was
called in a state where `ok` holds. -/
inductive Run (ok : M → G.Op → Prop) : Prog G E α → M → Prog G E α → M → Prop
  | refl (p : Prog G E α) (m : M) : Run ok p m p m
  | client {o : G.Op} {k : G.Res o → Prog G E α} {m m₁ m₂ : M} {r : G.Res o} {p : Prog G E α}
      (c : C) : ok m o → A.client c o m = some (r, m₁) → Run ok (k r) m₁ p m₂ →
      Run ok (.call o k) m p m₂
  | env {q p : Prog G E α} {m m₁ m₂ : M} (d : D) : A.env d m = some m₁ → Run ok q m₁ p m₂ →
      Run ok q m p m₂

variable {A} {ok ok' : M → G.Op → Prop} {p q r : Prog G E α} {m m₁ m₂ : M}

theorem Run.trans (h₁ : A.Run ok p m q m₁) (h₂ : A.Run ok q m₁ r m₂) : A.Run ok p m r m₂ := by
  induction h₁ with
  | refl => exact h₂
  | client c hok hc _ ih => exact .client c hok hc (ih h₂)
  | env d hd _ ih => exact .env d hd (ih h₂)

theorem Run.mono (h : A.Run ok p m q m₁) (hok : ∀ m o, ok m o → ok' m o) :
    A.Run ok' p m q m₁ := by
  induction h with
  | refl => exact .refl _ _
  | client c h hc _ ih => exact .client c (hok _ _ h) hc ih
  | env d hd _ ih => exact .env d hd ih

/-- The operations of a run are operations that the program can call. -/
theorem Run.of_uses {P : G.Op → Prop} (h : A.Run ok p m q m₁) (hp : p.Uses P)
    (hP : ∀ m o, ok m o → P o → ok' m o) : A.Run ok' p m q m₁ := by
  induction h with
  | refl => exact .refl _ _
  | client c h hc _ ih => exact .client c (hP _ _ h hp.1) hc (ih (hp.2 _))
  | env d hd _ ih => exact .env d hd (ih hp)

/-- What survives the steps of the client and of the environment holds along every run. -/
theorem Run.invariant {I : M → Prop} (h : A.Run ok p m q m₁) (h₀ : I m)
    (hclient : ∀ m o c r m', I m → ok m o → A.client c o m = some (r, m') → I m')
    (henv : ∀ m d m', I m → A.env d m = some m' → I m') : I m₁ := by
  induction h with
  | refl => exact h₀
  | client c hok hc _ ih => exact ih (hclient _ _ c _ _ h₀ hok hc)
  | env d hd _ ih => exact ih (henv _ d _ h₀ hd)

/-- A run of the first part of a sequence is a run of the sequence. -/
theorem Run.bind {p q : Prog G E α} {m m₁ : M} (h : A.Run ok p m q m₁) (f : α → Prog G E β) :
    A.Run ok (p.bind f) m (q.bind f) m₁ := by
  induction h with
  | refl => exact .refl _ _
  | client c h hc _ ih => exact .client c h hc ih
  | env d hd _ ih => exact .env d hd ih

/-- A run that returns from a sequence has returned from its first part. -/
theorem Run.of_bind {p : Prog G E α} {f : α → Prog G E β} {b : β}
    (h : A.Run ok (p.bind f) m (.ret b) m₁) :
    ∃ a m', A.Run ok p m (.ret a) m' ∧ A.Run ok (f a) m' (.ret b) m₁ := by
  generalize hq : p.bind f = q at h
  generalize hb : Prog.ret b = r at h
  induction h generalizing p with
  | refl q m =>
    subst hb
    cases p with
    | ret a => exact ⟨a, m, .refl _ _, hq ▸ .refl _ _⟩
    | fail e => cases hq
    | call o k => cases hq
  | @client o k m m' m₁ r p' c hok hc hrest ih =>
    subst hb
    cases p with
    | ret a =>
      refine ⟨a, m, .refl _ _, ?_⟩
      rw [show f a = .call o k from hq]
      exact .client c hok hc hrest
    | fail e => cases hq
    | call o' k' =>
      cases hq
      obtain ⟨a, m'', hp, hf⟩ := ih rfl rfl
      exact ⟨a, m'', .client c hok hc hp, hf⟩
  | env d hd _ ih =>
    obtain ⟨a, m'', hp, hf⟩ := ih hq hb
    exact ⟨a, m'', .env d hd hp, hf⟩

/-- A run that returns has called the operation that comes next. -/
theorem Run.of_call {o : G.Op} {k : G.Res o → Prog G E α} {b : α}
    (h : A.Run ok (.call o k) m (.ret b) m₁) : ∃ m' c r m'', A.Run ok (.call o k) m (.call o k) m' ∧
      ok m' o ∧ A.client c o m' = some (r, m'') ∧ A.Run ok (k r) m'' (.ret b) m₁ := by
  generalize hq : Prog.call o k = q at h
  generalize hb : Prog.ret b = r at h
  induction h with
  | refl => subst hb; cases hq
  | client c hok hc hrest _ =>
    cases hq
    subst hb
    exact ⟨_, c, _, _, .refl _ _, hok, hc, hrest⟩
  | env d hd _ ih =>
    obtain ⟨m', c, r, m'', hrun, hok, hc, hrest⟩ := ih hq hb
    subst hq
    exact ⟨m', c, r, m'', .env d hd hrun, hok, hc, hrest⟩

/-- What the environment keeps holds as long as a program that has returned is left alone. -/
theorem Run.returned {I : M → Prop} {a b : α}
    (h : A.Run ok (.ret a : Prog G E α) m (.ret b) m₁) (h₀ : I m)
    (henv : ∀ m d m', I m → A.env d m = some m' → I m') : b = a ∧ I m₁ := by
  generalize hq : (Prog.ret a : Prog G E α) = q at h
  generalize hb : (Prog.ret b : Prog G E α) = r at h
  induction h with
  | refl =>
    subst hq
    cases hb
    exact ⟨rfl, h₀⟩
  | client => cases hq
  | env d hd _ ih => exact ih (henv _ d _ h₀ hd) hq hb

/-! ### Simulation -/

/-- The relation `R` between the states of the machine and of the reference survives every step:
an operation that the reference allows is matched by the reference with the same reply. -/
structure Simulates (A : Machine G C D M) (ok : M → G.Op → Prop) {C' : Type}
    (h : Handler G C' S) (R : M → S → Prop) : Prop where
  client : ∀ {m m' s o r} (c : C), R m s → ok m o → A.client c o m = some (r, m') →
    (∀ c', (h c' o s).isSome) → ∃ c' s', h c' o s = some (r, s') ∧ R m' s'
  env : ∀ {m m' s} (d : D), R m s → A.env d m = some m' → R m' s

/-- Fewer runs are simulated as well. -/
theorem Simulates.weaken {C' : Type} {h : Handler G C' S} {R : M → S → Prop}
    (hA : A.Simulates ok h R) (hok : ∀ m o, ok' m o → ok m o) : A.Simulates ok' h R where
  client c hR ho := hA.client c hR (hok _ _ ho)
  env := hA.env

/-- A run of a program is matched by an execution against the reference, and what is left of the
program keeps its precondition. -/
theorem Simulates.run {C' : Type} {h : Handler G C' S} {R : M → S → Prop} {Q : α → S → Prop}
    {X : E → Prop} {s : S} (hA : A.Simulates ok h R) (hrun : A.Run ok p m q m₁) (hR : R m s)
    (hp : p.wp h Q X s) : ∃ s', Exec h p s q s' ∧ R m₁ s' ∧ q.wp h Q X s' := by
  induction hrun generalizing s with
  | refl => exact ⟨s, .refl _ _, hR, hp⟩
  | client c hok hc _ ih =>
    have hall : ∀ c', (h c' _ s).isSome := fun c' => by
      obtain ⟨r', s', hr, -⟩ := hp c'
      rw [hr]; rfl
    obtain ⟨c', s', hs, hR'⟩ := hA.client c hR hok hc hall
    obtain ⟨r', t, ht, hk⟩ := hp c'
    rw [hs] at ht
    obtain ⟨rfl, rfl⟩ := Prod.mk.inj (Option.some.inj ht)
    obtain ⟨u, he, hu⟩ := ih hR' hk
    exact ⟨u, .call c' hs he, hu⟩
  | env d hd _ ih => exact ih (hA.env d hR hd) hp

/-- A run whose steps satisfy `ok` also satisfies what follows from it and from the relation. -/
theorem Simulates.run_and {C' : Type} {h : Handler G C' S} {R : M → S → Prop} {Q : α → S → Prop}
    {X : E → Prop} {s : S} (hA : A.Simulates ok h R)
    (hok : ∀ m s o, ok m o → R m s → (∀ c, (h c o s).isSome) → ok' m o) (hrun : A.Run ok p m q m₁)
    (hR : R m s) (hp : p.wp h Q X s) : A.Run ok' p m q m₁ := by
  induction hrun generalizing s with
  | refl => exact .refl _ _
  | client c hco hc _ ih =>
    have hall : ∀ c', (h c' _ s).isSome := fun c' => by
      obtain ⟨r', s', hr, -⟩ := hp c'
      rw [hr]; rfl
    obtain ⟨c', s', hs, hR'⟩ := hA.client c hR hco hc hall
    obtain ⟨r', t, ht, hk⟩ := hp c'
    rw [hs] at ht
    obtain ⟨rfl, rfl⟩ := Prod.mk.inj (Option.some.inj ht)
    exact .client c (hok _ _ _ hco hR hall) hc (ih hR' hk)
  | env d hd _ ih => exact .env d hd (ih (hA.env d hR hd) hp)

/-- What the relation to the reference implies for allowed operations holds along every run. -/
theorem Simulates.run_mono {C' : Type} {h : Handler G C' S} {R : M → S → Prop} {Q : α → S → Prop}
    {X : E → Prop} {s : S} (hA : A.Simulates ok h R)
    (hok : ∀ m s o, R m s → (∀ c, (h c o s).isSome) → ok' m o) (hrun : A.Run ok p m q m₁)
    (hR : R m s) (hp : p.wp h Q X s) : A.Run ok' p m q m₁ :=
  hA.run_and (fun m s o _ => hok m s o) hrun hR hp

/-! ### Refinement -/

/-- The machine `A` refines the machine `B`: seen through `π`, a step of its client is such a step of
`B`, and a step of its environment is one of `B` or none. -/
structure Refines {C' D' M' : Type} (A : Machine G C D M) (B : Machine G C' D' M') (π : M → M') :
    Prop where
  client : ∀ {m m' c o r}, A.client c o m = some (r, m') →
    ∃ c', B.client c' o (π m) = some (r, π m')
  env : ∀ {m m' d}, A.env d m = some m' → π m' = π m ∨ ∃ d', B.env d' (π m) = some (π m')

/-- A run of a refinement is a run of the machine that it refines. -/
theorem Run.refine {C' D' M' : Type} {B : Machine G C' D' M'} {π : M → M'} {okB : M' → G.Op → Prop}
    (hA : A.Refines B π) (h : A.Run (fun m o => okB (π m) o) p m q m₁) :
    B.Run okB p (π m) q (π m₁) := by
  induction h with
  | refl => exact .refl _ _
  | client c hok hc _ ih =>
    obtain ⟨c', hc'⟩ := hA.client hc
    exact .client c' hok hc' ih
  | env d hd _ ih =>
    rcases hA.env hd with he | ⟨d', hd'⟩
    · rw [← he]
      exact ih
    · exact .env d' hd' ih

/-! ### Configurations -/

/-- The steps of a configuration: `inl c` is a step of the client and `inr d` a step of the
environment.  A client that fails takes the environment with it. -/
def step (A : Machine G C D M) : C ⊕ D → Prog G E α × M → Option (Prog G E α × M)
  | .inl c, (.call o k, m) => (A.client c o m).map fun x => (k x.1, x.2)
  | .inr d, (.call o k, m) => (A.env d m).map fun m' => (.call o k, m')
  | .inr d, (.ret a, m) => (A.env d m).map fun m' => (.ret a, m')
  | _, _ => none

theorem step_cases {d : C ⊕ D} {x x' : Prog G E α × M} (h : A.step d x = some x') :
    (∃ c o k r, d = .inl c ∧ x.1 = .call o k ∧ A.client c o x.2 = some (r, x'.2) ∧ x'.1 = k r) ∨
    ∃ e, d = .inr e ∧ (∀ err, x.1 ≠ .fail err) ∧ A.env e x.2 = some x'.2 ∧ x'.1 = x.1 := by
  obtain ⟨p, m⟩ := x
  cases d with
  | inl c =>
    cases p with
    | ret a => cases h
    | fail e => cases h
    | call o k =>
      obtain ⟨⟨r, m'⟩, hc, rfl⟩ := Option.map_eq_some_iff.1 h
      exact .inl ⟨c, o, k, r, rfl, rfl, hc, rfl⟩
  | inr d =>
    cases p with
    | fail e => cases h
    | ret a =>
      obtain ⟨m', hd, rfl⟩ := Option.map_eq_some_iff.1 h
      exact .inr ⟨d, rfl, nofun, hd, rfl⟩
    | call o k =>
      obtain ⟨m', hd, rfl⟩ := Option.map_eq_some_iff.1 h
      exact .inr ⟨d, rfl, nofun, hd, rfl⟩

/-- The steps of the configurations make up a run. -/
theorem Run.of_reach {okd : Prog G E α × M → C ⊕ D → Prop} {x : Prog G E α × M}
    (h : Reach A.step okd (p, m) x) : A.Run (fun _ _ => True) p m x.1 x.2 := by
  induction h with
  | refl => exact .refl _ _
  | tail d _ _ hd ih =>
    rcases step_cases hd with ⟨c, o, k, r, -, hx, hc, hx'⟩ | ⟨e, -, -, he, hx'⟩
    · rw [hx] at ih
      exact ih.trans (.client c trivial hc (hx' ▸ .refl _ _))
    · exact ih.trans (.env e he (hx' ▸ .refl _ _))

/-! ### Playing a schedule -/

/-- Play a schedule: `inl c` is a step of the client and `inr d` a step of the environment. -/
def play (A : Machine G C D M) : List (C ⊕ D) → Prog G E α → M → Option (Prog G E α × M)
  | [], p, m => some (p, m)
  | .inl c :: es, .call o k, m =>
    match A.client c o m with
    | some (r, m') => play A es (k r) m'
    | none => none
  | .inl _ :: _, _, _ => none
  | .inr d :: es, p, m =>
    match A.env d m with
    | some m' => play A es p m'
    | none => none

theorem Run.of_play {es : List (C ⊕ D)} (h : A.play es p m = some (q, m₁)) :
    A.Run (fun _ _ => True) p m q m₁ := by
  induction es generalizing p m with
  | nil =>
    obtain ⟨rfl, rfl⟩ := Prod.mk.inj (Option.some.inj h)
    exact .refl _ _
  | cons e es ih =>
    cases e with
    | inl c =>
      cases p with
      | ret a => cases h
      | fail e => cases h
      | call o k =>
        rw [play] at h
        cases hc : A.client c o m with
        | none => rw [hc] at h; cases h
        | some x =>
          rw [hc] at h
          exact .client c trivial hc (ih h)
    | inr d =>
      rw [play] at h
      cases hd : A.env d m with
      | none => rw [hd] at h; cases h
      | some m' =>
        rw [hd] at h
        exact .env d hd (ih h)

/-- Play the client for at most so many steps, with the choices that `choose` makes; whenever it has
to wait, the environment takes the steps that `serve` tells. -/
def drive (A : Machine G C D M) (choose : G.Op → M → C) (serve : M → List D) :
    Nat → Prog G E α → M → Prog G E α × M
  | 0, p, m => (p, m)
  | n + 1, .call o k, m =>
    match A.client (choose o m) o m with
    | some (r, m') => drive A choose serve n (k r) m'
    | none =>
      match (serve m).foldlM (fun m d => A.env d m) m with
      | some m' => drive A choose serve n (.call o k) m'
      | none => (.call o k, m)
  | _ + 1, p, m => (p, m)

theorem Run.of_foldlM {ds : List D} (h : ds.foldlM (fun m d => A.env d m) m = some m₁) :
    A.Run ok p m p m₁ := by
  induction ds generalizing m with
  | nil =>
    obtain rfl := Option.some.inj h
    exact .refl _ _
  | cons d ds ih =>
    obtain ⟨m', hd, hrest⟩ := Option.bind_eq_some_iff.1 h
    exact .env d hd (ih hrest)

theorem Run.of_drive (choose : G.Op → M → C) (serve : M → List D) (n : Nat) :
    A.Run (fun _ _ => True) p m (A.drive choose serve n p m).1 (A.drive choose serve n p m).2 := by
  induction n generalizing p m with
  | zero => exact .refl _ _
  | succ n ih =>
    cases p with
    | ret a => exact .refl _ _
    | fail e => exact .refl _ _
    | call o k =>
      rw [drive]
      cases hc : A.client (choose o m) o m with
      | some x => exact .client _ trivial hc ih
      | none =>
        cases hd : (serve m).foldlM (fun m d => A.env d m) m with
        | some m' => exact (Run.of_foldlM hd).trans ih
        | none => exact .refl _ _

/-- The machine whose client only takes the steps that pass a check. -/
def restrict (A : Machine G C D M) (b : M → G.Op → Bool) : Machine G C D M :=
  ⟨fun c o m => if b m o then A.client c o m else none, A.env⟩

/-- In the run of a restricted machine every step of the client has passed the check. -/
theorem Run.of_restrict {b : M → G.Op → Bool} (h : (A.restrict b).Run ok p m q m₁) :
    A.Run (fun m o => b m o = true ∧ ok m o) p m q m₁ := by
  induction h with
  | refl => exact .refl _ _
  | client c hok hc _ ih =>
    obtain ⟨hb, hc⟩ := Option.ite_none_right_eq_some.1 hc
    exact .client c ⟨hb, hok⟩ hc ih
  | env d hd _ ih => exact .env d hd ih

end Machine

end Effect
