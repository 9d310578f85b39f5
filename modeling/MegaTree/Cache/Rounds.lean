import MegaTree.Cache.Ledger

/-!
# `flushCache` visits every file

Between the steps of `flushCache` callbacks run, but no other operation of the client.  The reference
`Round` is a `Ledger` that also has the files that `flushCache` has yet to visit.

* `KeepsRounds p` : `p` only calls the operations of `flushCache` inside of it, and visits all files.
* `rounds_life` : so every session does.
-/

namespace MegaTree

open Effect

/-- A ledger, and inside `flushCache` the files that it has yet to visit. -/
abbrev Round := Ledger × Option (List LongId)

namespace Round

/-- The files that are yet to be visited after an operation with its reply. -/
def todo (t : Option (List LongId)) : (o : CacheOp) → o.Res → Option (Option (List LongId))
  | .flushBegin, fs => if t = none then some (some fs) else none
  | .flushFile f, _ =>
    match t with
    | some (g :: fs) => if f = g then some (some fs) else none
    | _ => none
  | .flushWait, _ => if t = some [] then some none else none
  | _, _ => if t = none then some none else none

/-- The meaning of the operations. -/
def step (c : PinChoice) (o : CacheOp) (z : Round) : Option (o.Res × Round) :=
  (Ledger.step c o z.1).bind fun y => (todo z.2 o y.1).map fun t => (y.1, (y.2, t))

/-- What is known of an operation that is called outside of `flushCache`. -/
theorem todo_none {o : CacheOp} (h : ∀ r, todo none o r = some none) {t t' : Option (List LongId)}
    {r : o.Res} (ht : todo t o r = some t') : t = none ∧ t' = none := by
  cases o with
  | flushBegin => cases h []
  | flushFile f => cases h ()
  | flushWait => cases h ()
  | _ =>
    obtain ⟨rfl, ht⟩ := Option.ite_none_right_eq_some.1 ht
    exact ⟨rfl, (Option.some.inj ht).symm⟩

theorem todo_flushFile {f : LongId} {r : Unit} {t t' : Option (List LongId)}
    (ht : todo t (.flushFile f) r = some t') : ∃ fs, t = some (f :: fs) ∧ t' = some fs := by
  match t, ht with
  | some (g :: fs), ht =>
    obtain ⟨rfl, he⟩ := Option.ite_none_right_eq_some.1 ht
    exact ⟨fs, rfl, (Option.some.inj he).symm⟩

theorem todo_flushWait {r : Unit} {t t' : Option (List LongId)}
    (ht : todo t .flushWait r = some t') : t = some [] ∧ t' = none := by
  obtain ⟨rfl, he⟩ := Option.ite_none_right_eq_some.1 ht
  exact ⟨rfl, (Option.some.inj he).symm⟩

end Round

/-- Whatever `p` may do to the ledger, it is never left inside `flushCache`. -/
def KeepsRounds (α : Type) (p : TreeM α) : Prop :=
  ∀ (Q : α → Ledger → Prop) (y : Ledger), p.wp Ledger.step Q (fun _ => True) y →
    p.wp Round.step (fun a z => Q a z.1 ∧ z.2 = none) (fun _ => True) (y, none)

namespace KeepsRounds

variable {α β : Type} {p : TreeM α} {k : α → TreeM β} {h : NodeHandle} {cfg : Config}
  {child : ChildNr} {f f' : LongId} {fs : List LongId}

theorem ret (a : α) : KeepsRounds α (pure a) := fun _ _ hQ => ⟨hQ, rfl⟩

theorem fail (e : Err) : KeepsRounds α (Prog.fail e) := fun _ _ _ => trivial

theorem bind (hp : KeepsRounds α p) (hk : ∀ a, KeepsRounds β (k a)) : KeepsRounds β (p >>= k) := by
  intro Q y hQ
  refine Prog.wp_bind.2 (Prog.wp_mono (hp _ y (Prog.wp_bind.1 hQ)) ?_ fun _ => id)
  rintro a ⟨y', t⟩ ⟨hQ', rfl⟩
  exact hk a Q y' hQ'

theorem op {o : CacheOp} (ho : ∀ r, Round.todo none o r = some none) :
    KeepsRounds o.Res (perform o) := by
  intro Q y hQ c
  obtain ⟨r, y', hstep, hQ'⟩ := hQ c
  exact ⟨r, (y', none), by simp [Round.step, hstep, ho], hQ', rfl⟩

theorem anyOp (o : CacheOp) (ho : o.Ordinary) : KeepsRounds o.Res (perform o) := by
  refine op fun r => ?_
  cases o with
  | createNode => exact ho.elim
  | countNode => exact ho.elim
  | flushBegin => exact ho.elim
  | flushFile => exact ho.elim
  | flushWait => exact ho.elim
  | _ => rfl

theorem ite {b : Prop} [Decidable b] {q : TreeM α} (hp : KeepsRounds α p)
    (hq : KeepsRounds α q) : KeepsRounds α (if b then p else q) := by
  split_ifs
  · exact hp
  · exact hq

theorem lift (x : Except Err α) : KeepsRounds α (Prog.lift x) := by
  cases x with
  | ok a => exact ret a
  | error e => exact fail e

theorem ensure (b : Bool) (e : Err) : KeepsRounds Unit (Prog.ensure b e) := by
  cases b with
  | true => exact ret ()
  | false => exact fail e

theorem get : KeepsRounds _ h.get := bind (lift _) fun _ => op (o := .getNode _ _) fun _ => rfl

theorem setChild : KeepsRounds _ (h.setChild child) :=
  bind get fun _ => bind (lift _) fun _ => bind (op (o := .setNode _ _ _ _) fun _ => rfl)
    fun _ => ret _

theorem createNodeFile : KeepsRounds _ (createNodeFile f) :=
  bind (op (o := .createNodeFile _) fun _ => rfl) fun _ => op (o := .cacheMaintenance) fun _ => rfl

theorem openChildFile : KeepsRounds _ (openChildFile f f') := by
  refine bind (op (o := .hasChildFile _ _) fun _ => rfl) fun known => ite ?_ ?_
  · exact bind (op (o := .getNodeFile _) fun _ => rfl) fun _ =>
      op (o := .waitUntilLoaded _) fun _ => rfl
  · exact bind createNodeFile fun _ => op (o := .setChildFile _ _) fun _ => rfl

theorem createChildNode : KeepsRounds _ (createChildNode cfg h child) := by
  refine bind get fun n => bind (ensure _ _) fun _ => bind (lift _) fun childId => ?_
  refine bind (op (o := .getNodeFile _) fun _ => rfl) fun _ => ?_
  refine bind (op (o := .waitUntilLoaded _) fun _ => rfl) fun _ => ?_
  refine bind (op (o := .isLoaded _) fun _ => rfl) fun _ => bind (ensure _ _) fun _ => ?_
  refine bind openChildFile fun _ => bind (op (o := .removeUser _) fun _ => rfl) fun _ => ?_
  refine bind setChild fun _ => bind (op (o := .createNode _ _) fun _ => rfl) fun _ => ?_
  refine bind (op (o := .countNode) fun _ => rfl) fun _ => ?_
  exact bind (op (o := .removeUser _) fun _ => rfl) fun _ => ret _

theorem createRoot : KeepsRounds _ (createRoot cfg) := by
  refine bind createNodeFile fun _ => bind (op (o := .createNode _ _) fun _ => rfl) fun _ => ?_
  refine bind (op (o := .countNode) fun _ => rfl) fun _ => ?_
  exact bind (op (o := .removeUser _) fun _ => rfl) fun _ => ret _

/-- The loop of `flushCache` visits the files of its list. -/
theorem flushFiles {Q : Unit → Ledger → Prop} {y : Ledger}
    (hQ : (flushFiles fs).wp Ledger.step Q (fun _ => True) y) :
    (flushFiles fs).wp Round.step (fun a z => Q a z.1 ∧ z.2 = some []) (fun _ => True)
      (y, some fs) := by
  induction fs generalizing y with
  | nil => exact ⟨hQ, rfl⟩
  | cons f fs ih =>
    refine Prog.wp_bind.2 fun c => ?_
    obtain ⟨⟨⟩, y', hstep, hQ'⟩ := Prog.wp_bind.1 hQ c
    exact ⟨(), (y', some fs), by simp [Round.step, hstep, Round.todo], ih hQ'⟩

theorem flushCache : KeepsRounds _ flushCache := by
  intro Q y hQ
  refine Prog.wp_bind.2 fun c => ?_
  obtain ⟨fs, y', hstep, hQ'⟩ := Prog.wp_bind.1 hQ c
  refine ⟨fs, (y', some fs), by simp [Round.step, hstep, Round.todo], ?_⟩
  refine Prog.wp_bind.2 (Prog.wp_mono (flushFiles (Prog.wp_bind.1 hQ')) ?_ fun _ => id)
  rintro ⟨⟩ ⟨y'', t⟩ ⟨hwait, rfl⟩ c'
  obtain ⟨⟨⟩, y₃, hstep', hQ''⟩ := hwait c'
  exact ⟨(), (y₃, none), by simp [Round.step, hstep', Round.todo], hQ'', rfl⟩

theorem composed : Composed KeepsRounds where
  ret := ret
  fail := fail
  bind := bind
  op := anyOp
  createChildNode _ _ _ := createChildNode
  createRoot _ := createRoot
  flushCache := flushCache

end KeepsRounds

/-- In every session `flushCache` visits every file that it finds. -/
theorem rounds_life {cfg : Config} {create : Bool} {calls : List Call} :
    (life cfg create calls).wp Round.step (fun _ z => z.1.2 = false ∧ z.2 = none) (fun _ => True)
      ((.init, false), none) :=
  KeepsRounds.composed.life (fun f s n => KeepsRounds.op (o := .setNode f s n .merge) fun _ => rfl)
    (fun _ y => y.2 = false) _ ledger_life

end MegaTree
