import MegaTree.Store.Basic

/-!
# The store up to a relation between contents

A cache that may lose some changes of the contents refines a store whose contents may change: before
each operation every file may get other contents that count as the same (`Store.stepUpTo`).  A write
of `mergeChild` is then only allowed where it makes no difference that counts.

* `Similarity` : which relations between contents can be used.
* `wpUpTo_op` : a rule for one operation, from the rule on the store for all changed contents.
* `Prog.wp_of_upTo` : what holds up to a relation holds on the store itself.
-/

namespace MegaTree

open Effect

/-- Contents that count as the same have the same nodes. -/
structure Similarity (E : FileData → FileData → Prop) : Prop where
  refl : ∀ d, E d d
  symm : ∀ {d d'}, E d d' → E d' d
  trans : ∀ {d₁ d₂ d₃}, E d₁ d₂ → E d₂ d₃ → E d₁ d₃
  nodes : ∀ {d d'}, E d d' → ∀ s : ShortId, (d'.nodeCache[s]?).isSome = (d.nodeCache[s]?).isSome

theorem similarity_eq : Similarity Eq where
  refl _ := rfl
  symm h := h.symm
  trans h h' := h.trans h'
  nodes h _ := by rw [h]

/-- A change of the contents along `E`. -/
structure Change (E : FileData → FileData → Prop) where
  /-- The new contents. -/
  run : LongId → FileData → FileData
  rel : ∀ f d, E d (run f d)

variable {E : FileData → FileData → Prop} {σ : Store}

/-- The store after its contents have changed. -/
def Store.change (σ : Store) (δ : Change E) : Store :=
  { σ with files := fun f => (σ.files f).map (δ.run f) }

/-- A write of `mergeChild` that makes no difference. -/
def Unseen (E : FileData → FileData → Prop) (σ : Store) : CacheOp → Prop
  | .setNode f s n .merge => ∀ d, σ.files f = some d → E d (d.setNode s n)
  | _ => True

open Classical in
/-- The contents may change along `E` before each operation. -/
noncomputable def Store.stepUpTo (E : FileData → FileData → Prop) (c : Choice × Change E)
    (o : CacheOp) (σ : Store) : Option (o.Res × Store) :=
  if Unseen E (σ.change c.2) o then Store.step c.1 o (σ.change c.2) else none

theorem isSome_change (σ : Store) (δ : Change E) (f : LongId) :
    ((σ.change δ).files f).isSome = (σ.files f).isSome :=
  Option.isSome_map

theorem Live.change {L : List Token} (h : Live σ L) (δ : Change E) : Live (σ.change δ) L where
  idle := h.idle
  users := h.users
  marked := h.marked
  ready := h.ready
  dirty := h.dirty
  stored t ht := (isSome_change ..).trans (h.stored t ht)

theorem wpUpTo_op {o : CacheOp} {Q : o.Res → Store → Prop} {X : Err → Prop}
    (h : ∀ δ : Change E, Unseen E (σ.change δ) o ∧ Spec (perform o) Q X (σ.change δ)) :
    (perform o).wp (Store.stepUpTo E) Q X σ := by
  rintro ⟨c, δ⟩
  obtain ⟨hu, hp⟩ := h δ
  obtain ⟨r, σ', hr, hQ⟩ := hp c
  exact ⟨r, σ', (if_pos hu).trans hr, hQ⟩

/-- The change that changes nothing. -/
def Change.id (hE : Similarity E) : Change E := ⟨fun _ d => d, fun _ d => hE.refl d⟩

theorem change_id (hE : Similarity E) : σ.change (.id hE) = σ := by
  cases σ
  simp [Store.change, Change.id]

/-- Without changes the store is one of the stores that may change. -/
theorem wp_of_upTo (hE : Similarity E) {α : Type} {p : TreeM α} {Q : α → Store → Prop}
    {X : Err → Prop} (h : p.wp (Store.stepUpTo E) Q X σ) : Spec p Q X σ := by
  induction p generalizing σ with
  | ret a => exact h
  | fail e => exact h
  | call o k ih =>
    intro c
    obtain ⟨r, σ', hr, hk⟩ := h (c, .id hE)
    unfold Store.stepUpTo at hr
    split_ifs at hr with hu
    rw [change_id] at hr
    exact ⟨r, σ', hr, ih r hk⟩

end MegaTree
