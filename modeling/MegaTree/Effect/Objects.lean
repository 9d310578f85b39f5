import MegaTree.Effect.Wp
import Mathlib.Logic.Function.Basic

/-!
# Programs over several objects

A program may work on several objects with the same operations.  It calls them by names `ι`, and
`place` says which object a name stands for: two names for one object are aliases, and then what
is done under one name shows under the other.

* `Sig.named`, `Handler.named` : the operations on named objects and their meaning.
* `Prog.on i p` : the program `p` on the object `i`.
* `Prog.wp_on` : the rule for it.
-/

namespace Effect

/-- The operations of `G` on objects with names `ι`. -/
def Sig.named (G : Sig) (ι : Type) : Sig := ⟨ι × G.Op, fun o => G.Res o.2⟩

variable {G : Sig} {E α C S ι κ : Type}

/-- An operation acts on the object that its name stands for. -/
def Handler.named [DecidableEq κ] (h : Handler G C S) (place : ι → κ) :
    Handler (G.named ι) C (κ → S) := fun c o s =>
  (h c o.2 (s (place o.1))).map fun x => (x.1, Function.update s (place o.1) x.2)

namespace Prog

/-- Run a program on one object. -/
def on (i : ι) : Prog G E α → Prog (G.named ι) E α
  | ret a => ret a
  | fail e => fail e
  | call o k => call (G := G.named ι) (i, o) fun r => (k r).on i

variable [DecidableEq κ] {h : Handler G C S} {place : ι → κ} {i : ι} {Q : α → (κ → S) → Prop}
  {X : E → Prop} {s : κ → S}

/-- Only the object that the name stands for changes. -/
theorem wp_on {p : Prog G E α} (hp : p.wp h (fun a t => Q a (Function.update s (place i) t)) X
    (s (place i))) : (p.on i).wp (h.named place) Q X s := by
  induction p generalizing s with
  | ret a =>
    change Q a _ at hp
    rwa [Function.update_eq_self] at hp
  | fail e => exact hp
  | call o k ih =>
    intro c
    obtain ⟨r, t, hr, hk⟩ := hp c
    refine ⟨r, Function.update s (place i) t, ?_, ih r ?_⟩
    · simp only [Handler.named, hr, Option.map_some]
    · simpa only [Function.update_self, Function.update_idem] using hk

end Prog

end Effect
