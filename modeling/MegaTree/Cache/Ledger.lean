import MegaTree.Cache.Lifetime
import MegaTree.Tree.Composed

/-!
# Created nodes are counted

`createChildNode` creates a node in one step and raises `current_cache_size` in the next one.  The
reference `Ledger` counts the nodes between the two, and asks that a node is only created in a file
that was seen loaded.

* `KeepsLedger R p` : whatever `p` may do to the pins, it leaves no node uncounted, and keeps `R`.
* `ledger_life` : so every session does.
-/

namespace MegaTree

open Effect

/-- The pins of a client, and whether it has created a node that it has yet to count. -/
abbrev Ledger := PinState × Bool

namespace Ledger

/-- Whether a node is uncounted after an operation. -/
def uncounted (o : CacheOp) (σ : PinState) (b : Bool) : Option Bool :=
  match o with
  | .createNode f _ => if b = false ∧ σ.ready f = true then some true else none
  | .countNode => if b = true then some false else none
  | _ => if b = false then some false else none

/-- The meaning of the operations. -/
def step (c : PinChoice) (o : CacheOp) (x : Ledger) : Option (o.Res × Ledger) :=
  (uncounted o x.1 x.2).bind fun b => (PinState.step c o x.1).map fun y => (y.1, (y.2, b))

theorem uncounted_of_ordinary {o : CacheOp} (ho : o.Ordinary) (σ : PinState) :
    uncounted o σ false = some false := by
  cases o with
  | createNode => exact ho.elim
  | countNode => exact ho.elim
  | _ => rfl

end Ledger

/-- Whenever `p` respects the pins and `R` holds, it keeps the ledger and leaves `R'`. -/
def KeepsLedger (R R' : PinState → Prop) (α : Type) (p : TreeM α) : Prop :=
  ∀ (Q : α → PinState → Prop) (σ : PinState), R σ → PinSpec p Q σ →
    p.wp Ledger.step (fun a x => Q a x.1 ∧ x.2 = false ∧ R' x.1) (fun _ => True) (σ, false)

/-- The file was seen loaded. -/
def IsReady (f : LongId) (σ : PinState) : Prop := σ.ready f = true

/-- Nothing is asked of the pins. -/
def AnyPins : PinState → Prop := fun _ => True

namespace KeepsLedger

variable {R R' R'' : PinState → Prop} {α β : Type} {p : TreeM α} {k : α → TreeM β} {f f' : LongId}
  {h : NodeHandle} {n : Node} {cfg : Config} {child : ChildNr} {s : ShortId} {m : Bool}

/-! ### Rules -/

theorem ret (a : α) : KeepsLedger R R α (pure a) := fun _ _ hR hQ => ⟨hQ, rfl, hR⟩

theorem fail (e : Err) : KeepsLedger R R' α (Prog.fail e) := fun _ _ _ _ => trivial

theorem bind (hp : KeepsLedger R R' α p) (hk : ∀ a, KeepsLedger R' R'' β (k a)) :
    KeepsLedger R R'' β (p >>= k) := by
  intro Q σ hR hQ
  refine Prog.wp_bind.2 (Prog.wp_mono (hp _ σ hR (Prog.wp_bind.1 hQ)) ?_ fun _ => id)
  rintro a ⟨σ', n⟩ ⟨hQ', rfl, hR'⟩
  exact hk a Q σ' hR' hQ'

theorem forget (hp : KeepsLedger R R' α p) : KeepsLedger R AnyPins α p := fun Q σ hR hQ =>
  Prog.wp_mono (hp Q σ hR hQ) (fun _ _ hx => ⟨hx.1, hx.2.1, trivial⟩) fun _ => id

theorem op {o : CacheOp} (ho : ∀ σ, Ledger.uncounted o σ false = some false)
    (hR : ∀ c r σ σ', PinState.step c o σ = some (r, σ') → R σ → R' σ') :
    KeepsLedger R R' o.Res (perform o) := by
  intro Q σ hR' hQ c
  obtain ⟨r, σ', hstep, hQ'⟩ := hQ c
  exact ⟨r, (σ', false), by simp [Ledger.step, ho, hstep], hQ', rfl, hR c r σ σ' hstep hR'⟩

theorem settledOp (o : CacheOp) (ho : ∀ σ, Ledger.uncounted o σ false = some false) :
    KeepsLedger AnyPins AnyPins o.Res (perform o) := op ho fun _ _ _ _ _ _ => trivial

theorem anyOp (o : CacheOp) (ho : o.Ordinary) : KeepsLedger AnyPins AnyPins o.Res (perform o) :=
  settledOp o (Ledger.uncounted_of_ordinary ho)

theorem ite {b : Prop} [Decidable b] {q : TreeM α} (hp : KeepsLedger R R' α p)
    (hq : KeepsLedger R R' α q) : KeepsLedger R R' α (if b then p else q) := by
  split_ifs
  · exact hp
  · exact hq

theorem lift (x : Except Err α) : KeepsLedger R R α (Prog.lift x) := by
  cases x with
  | ok a => exact ret a
  | error e => exact fail e

theorem ensure (b : Bool) (e : Err) : KeepsLedger R R Unit (Prog.ensure b e) := by
  cases b with
  | true => exact ret ()
  | false => exact fail e

/-- A node is created in a file that was seen loaded, and counted. -/
theorem createNode {k : Unit → TreeM β} (hk : ∀ a, KeepsLedger AnyPins R' β (k a)) :
    KeepsLedger (IsReady f) R' β (do
      perform (.createNode f s)
      let a ← perform .countNode
      k a) := by
  intro Q σ hready hQ c
  obtain ⟨⟨⟩, σ', hstep, hQ⟩ := hQ c
  refine ⟨(), (σ', true), ?_, fun c' => ?_⟩
  · change σ.ready f = true at hready
    simp [Ledger.step, Ledger.uncounted, hready, hstep]
  · obtain ⟨⟨⟩, σ'', hstep', hQ⟩ := hQ c'
    exact ⟨(), (σ'', false), by simp [Ledger.step, Ledger.uncounted, hstep'],
      hk () Q σ'' trivial hQ⟩

/-! ### Node creation -/

/-- An operation that leaves the pins as they are. -/
theorem keepOp {o : CacheOp} (ho : o.Ordinary)
    (hs : ∀ c r σ σ', PinState.step c o σ = some (r, σ') → σ' = σ) :
    KeepsLedger R R o.Res (perform o) :=
  op (Ledger.uncounted_of_ordinary ho) fun c r σ σ' h hR => by rwa [hs c r σ σ' h]

theorem get : KeepsLedger R R _ h.get :=
  bind (lift _) fun _ => keepOp (o := .getNode _ _) trivial fun c r σ σ' hs => by
    obtain ⟨-, hs⟩ := Option.ite_none_right_eq_some.1 hs
    exact (Prod.mk.inj (Option.some.inj hs)).2.symm

theorem setChild : KeepsLedger R R _ (h.setChild child) := by
  refine bind get fun n => bind (lift _) fun x => bind (keepOp (o := .setNode _ _ _ _) ?_ ?_)
    fun _ => ret _
  · cases h.modified <;> trivial
  · intro c r σ σ' hs
    obtain ⟨-, hs⟩ := Option.ite_none_right_eq_some.1 hs
    exact (Prod.mk.inj (Option.some.inj hs)).2.symm

theorem removeUser : KeepsLedger (IsReady f) (IsReady f) _ (perform (.removeUser f')) := by
  refine op (fun _ => rfl) fun c r σ σ' hs hR => ?_
  obtain ⟨-, hs⟩ := Option.ite_none_right_eq_some.1 hs
  rw [← (Prod.mk.inj (Option.some.inj hs)).2]
  exact hR

theorem createNodeFile : KeepsLedger AnyPins (IsReady f) _ (createNodeFile f) := by
  have hcreate : KeepsLedger AnyPins (IsReady f) _ (perform (.createNodeFile f)) := by
    refine op (fun _ => rfl) fun c r σ σ' hs _ => ?_
    rw [← (Prod.mk.inj (Option.some.inj hs)).2]
    simp [IsReady, PinState.see]
  exact bind hcreate fun _ => keepOp (o := .cacheMaintenance) trivial fun c r σ σ' hs =>
    (Prod.mk.inj (Option.some.inj hs)).2.symm

/-- The file of the new node was seen loaded. -/
theorem openChildFile : KeepsLedger AnyPins (IsReady f') _ (openChildFile f f') := by
  have hget : KeepsLedger AnyPins (fun σ => 0 < σ.users f') _ (perform (.getNodeFile f')) := by
    refine op (fun _ => rfl) fun c r σ σ' hs _ => ?_
    rw [← (Prod.mk.inj (Option.some.inj hs)).2]
    simp [PinState.add]
  refine bind (anyOp (.hasChildFile _ _) trivial) fun known => ite ?_ ?_
  · refine bind hget fun _ => op (o := .waitUntilLoaded f') (fun _ => rfl) fun c r σ σ' hs hR => ?_
    rw [← (Prod.mk.inj (Option.some.inj hs)).2, if_pos hR]
    simp [IsReady, PinState.see]
  · refine bind createNodeFile fun _ => keepOp (o := .setChildFile _ _) trivial
      fun c r σ σ' hs => ?_
    obtain ⟨-, hs⟩ := Option.ite_none_right_eq_some.1 hs
    exact (Prod.mk.inj (Option.some.inj hs)).2.symm

theorem createChildNode : KeepsLedger AnyPins AnyPins _ (createChildNode cfg h child) := by
  refine bind get fun n => bind (ensure _ _) fun _ => bind (lift _) fun childId => ?_
  refine bind (anyOp (.getNodeFile _) trivial) fun _ => ?_
  refine bind (anyOp (.waitUntilLoaded _) trivial) fun _ => ?_
  refine bind (anyOp (.isLoaded _) trivial) fun _ => bind (ensure _ _) fun _ => ?_
  refine bind openChildFile fun _ => bind removeUser fun _ => bind setChild fun _ => ?_
  exact createNode fun _ => bind (anyOp (.removeUser _) trivial) fun _ => ret _

theorem createRoot : KeepsLedger AnyPins AnyPins _ (createRoot cfg) :=
  bind createNodeFile fun _ => createNode fun _ =>
    bind (anyOp (.removeUser _) trivial) fun _ => ret _

theorem flushFiles {fs : List LongId} : KeepsLedger AnyPins AnyPins _ (flushFiles fs) := by
  induction fs with
  | nil => exact ret _
  | cons f fs ih => exact bind (settledOp (.flushFile f) fun _ => rfl) fun _ => ih

theorem flushCache : KeepsLedger AnyPins AnyPins _ flushCache :=
  bind (settledOp .flushBegin fun _ => rfl) fun _ => bind flushFiles fun _ =>
    settledOp .flushWait fun _ => rfl

theorem composed : Composed (KeepsLedger AnyPins AnyPins) where
  ret := ret
  fail := fail
  bind := bind
  op := anyOp
  createChildNode _ _ _ := createChildNode
  createRoot _ := createRoot
  flushCache := flushCache

end KeepsLedger

/-- In every session each node that is created is counted in the next step. -/
theorem ledger_life {cfg : Config} {create : Bool} {calls : List Call} :
    (life cfg create calls).wp Ledger.step (fun _ x => x.2 = false) (fun _ => True)
      (.init, false) := by
  have hset : KeepsLedger AnyPins AnyPins _ (life cfg create calls) :=
    KeepsLedger.composed.life fun f s n => KeepsLedger.settledOp
      (.setNode f s n .merge) fun _ => rfl
  exact Prog.wp_mono (hset _ .init trivial pin_life) (fun _ _ hx => hx.2.1) fun _ => id

end MegaTree
