import Mathlib.Logic.Relation
import Mathlib.Tactic.TypeStar

/-!
# Programs over an abstract set of operations

A program that talks to some piece of state only through a fixed set of operations is a tree: it
returns, it fails, or it calls one operation and continues with the reply.  The same program can
then be given several meanings: run against one state by a deterministic handler, or interleaved
with an environment that changes the state between two calls.

## Main definitions

* `Sig` : a set of operations with the type of the reply of each.
* `Prog Σ E α` : programs over `Σ` that return an `α` or fail with an `E`; a lawful monad.
* `Handler Σ C S` : the meaning of the operations on states `S`.  The choice `C` resolves what the
  operation leaves open; the reply `none` means that the operation was misused.
* `Prog.run` : the run of a program under one choice function.
* `Prog.Exec` : the runs of a program under every choice, with the states on the way.
-/

namespace Effect

/-- A set of operations, each with the type of its reply. -/
structure Sig where
  /-- The operations. -/
  Op : Type
  /-- The reply to an operation. -/
  Res : Op → Type

/-- Programs over the operations of `G` that return an `α` or fail with an `E`. -/
inductive Prog (G : Sig) (E α : Type) : Type
  /-- Return a value. -/
  | ret (a : α)
  /-- Fail. -/
  | fail (e : E)
  /-- Call an operation and continue with its reply. -/
  | call (o : G.Op) (k : G.Res o → Prog G E α)

/-- How a run can end without a value: the program failed, or it misused an operation. -/
inductive Halt (E : Type)
  /-- The program itself failed. -/
  | failed (e : E)
  /-- An operation was called where it has no meaning. -/
  | stuck
  deriving DecidableEq, Repr

/-- The meaning of the operations: under the choice `c`, `h c o s` is the reply and the next
state, or `none` where the operation may not be called. -/
abbrev Handler (G : Sig) (C S : Type) := C → (o : G.Op) → S → Option (G.Res o × S)

namespace Prog

variable {G : Sig} {E α β γ C S : Type}

/-- Sequencing. -/
def bind : Prog G E α → (α → Prog G E β) → Prog G E β
  | ret a, f => f a
  | fail e, _ => fail e
  | call o k, f => call o fun r => (k r).bind f

instance : Monad (Prog G E) where
  pure := ret
  bind := bind

/-- Call one operation. -/
def op (o : G.Op) : Prog G E (G.Res o) := call o ret

/-- Continue with the value of `x`, or fail with its error. -/
def lift : Except E α → Prog G E α
  | .ok a => ret a
  | .error e => fail e

/-- Fail with `e` unless `b` holds. -/
def ensure (b : Bool) (e : E) : Prog G E Unit := if b then ret () else fail e

@[simp] theorem pure_eq (a : α) : (pure a : Prog G E α) = ret a := rfl
@[simp] theorem bind_eq (p : Prog G E α) (f : α → Prog G E β) : p >>= f = p.bind f := rfl
@[simp] theorem ret_bind (a : α) (f : α → Prog G E β) : (ret a).bind f = f a := rfl
@[simp] theorem fail_bind (e : E) (f : α → Prog G E β) : (fail e).bind f = fail e := rfl
@[simp] theorem call_bind (o : G.Op) (k : G.Res o → Prog G E α) (f : α → Prog G E β) :
    (call o k).bind f = call o fun r => (k r).bind f := rfl

theorem bind_ret (p : Prog G E α) : p.bind ret = p := by
  induction p with
  | ret a => rfl
  | fail e => rfl
  | call o k ih => simp only [call_bind, ih]

theorem bind_assoc (p : Prog G E α) (f : α → Prog G E β) (g : β → Prog G E γ) :
    (p.bind f).bind g = p.bind fun a => (f a).bind g := by
  induction p with
  | ret a => rfl
  | fail e => rfl
  | call o k ih => simp only [call_bind, ih]

instance : LawfulMonad (Prog G E) :=
  LawfulMonad.mk' _ (fun p => bind_ret p) (fun _ _ => rfl) bind_assoc

/-! ### Running a program alone -/

/-- Run a program against a state, resolving every choice with `c`. -/
def run (h : Handler G C S) (c : C) : Prog G E α → S → Except (Halt E) (α × S)
  | ret a, s => .ok (a, s)
  | fail e, _ => .error (.failed e)
  | call o k, s =>
    match h c o s with
    | some (r, s') => (k r).run h c s'
    | none => .error .stuck

variable {h : Handler G C S} {c : C}

@[simp] theorem run_ret (a : α) (s : S) : (ret a : Prog G E α).run h c s = .ok (a, s) := rfl
@[simp] theorem run_fail (e : E) (s : S) :
    (fail e : Prog G E α).run h c s = .error (.failed e) := rfl

theorem run_bind (p : Prog G E α) (f : α → Prog G E β) (s : S) :
    (p.bind f).run h c s = match p.run h c s with
      | .ok (a, s') => (f a).run h c s'
      | .error e => .error e := by
  induction p generalizing s with
  | ret a => rfl
  | fail e => rfl
  | call o k ih =>
    simp only [call_bind, run]
    cases h c o s with
    | none => rfl
    | some x => exact ih x.1 x.2

/-! ### Executions under every choice -/

/-- `Exec h p s p' s'` : started in `s`, the program `p` can have `p'` left to do in state `s'`. -/
inductive Exec (h : Handler G C S) : Prog G E α → S → Prog G E α → S → Prop
  | refl (p : Prog G E α) (s : S) : Exec h p s p s
  | call {o : G.Op} {k : G.Res o → Prog G E α} {s s₁ s₂ : S} {r : G.Res o} {p : Prog G E α}
      (c : C) : h c o s = some (r, s₁) → Exec h (k r) s₁ p s₂ → Exec h (.call o k) s p s₂

theorem Exec.trans {p q r : Prog G E α} {s t u : S} (h₁ : Exec h p s q t)
    (h₂ : Exec h q t r u) : Exec h p s r u := by
  induction h₁ with
  | refl => exact h₂
  | call c hc _ ih => exact .call c hc (ih h₂)

/-- Executions of both parts are an execution of the sequence. -/
theorem Exec.bind {p : Prog G E α} {q : Prog G E β} {f : α → Prog G E β} {s t u : S} {a : α}
    (h₁ : Exec h p s (ret a) t) (h₂ : Exec h (f a) t q u) : Exec h (p.bind f) s q u := by
  generalize hr : (ret a : Prog G E α) = r at h₁
  induction h₁ with
  | refl => subst hr; exact h₂
  | call c hc _ ih => exact .call c hc (ih h₂ hr)

/-- An execution of a sequence that returns runs both parts to their ends. -/
theorem Exec.of_bind {p : Prog G E α} {f : α → Prog G E β} {s u : S} {b : β}
    (he : Exec h (p.bind f) s (ret b) u) :
    ∃ a t, Exec h p s (ret a) t ∧ Exec h (f a) t (ret b) u := by
  induction p generalizing s with
  | ret a => exact ⟨a, s, .refl _ _, he⟩
  | fail e => cases he
  | call o k ih =>
    rw [call_bind] at he
    cases he with
    | call c hc he =>
      obtain ⟨a, t, h₁, h₂⟩ := ih _ he
      exact ⟨a, t, .call c hc h₁, h₂⟩

/-- The run under one choice is an execution. -/
theorem Exec.of_run {p : Prog G E α} {a : α} {s s' : S} (hr : p.run h c s = .ok (a, s')) :
    Exec h p s (ret a) s' := by
  induction p generalizing s with
  | ret b =>
    obtain ⟨rfl, rfl⟩ := Prod.mk.inj (Except.ok.inj hr)
    exact .refl _ _
  | fail e => cases hr
  | call o k ih =>
    rw [run] at hr
    cases hs : h c o s with
    | none => rw [hs] at hr; cases hr
    | some x =>
      rw [hs] at hr
      exact .call c hs (ih x.1 hr)

/-- A run that ends with `f` is an execution that ends with `f`. -/
theorem exists_exec {p : Prog G E α} {s : S} {f : α × S → Bool}
    (hr : (p.run h c s).toOption.any f = true) :
    ∃ a s', Exec h p s (ret a) s' ∧ f (a, s') = true := by
  cases hp : p.run h c s with
  | error e => rw [hp] at hr; cases hr
  | ok x =>
    rw [hp] at hr
    exact ⟨x.1, x.2, .of_run hp, hr⟩

end Prog

end Effect
