import MegaTree.Cache.EvictCallback
import MegaTree.Core.FunctionCaller

/-!
# The wait for a file

`waitUntilLoaded` waits for the state of a file with a spin lock and a flag: a thread that finds
another state clears the flag, gives the lock back and sleeps until the flag is set; `setNodeState`
stores the state and sets the flag.  All threads share the one flag, so that a thread can clear it
before others have seen that it was set.

* `FileWait.step` : every access of a thread to the lock, the state and the flag is a step.
* `LoadedFile` : the file as the cache sees it, where the wait is one step.
* `FileWait.Good` : the invariant.  Beside a thread that sleeps, the flag is set or about to be set
  when the file is loaded.
* `waitUntilLoaded_wakes` : the threads refine `LoadedFile`, come to rest in every schedule, and
  then only those sleep whose file is not loaded.
-/

namespace MegaTree

open Effect

/-! ### The threads -/

/-- Where a thread is in `waitUntilLoaded`: before it takes the lock; before the test of the state;
in `Cond::wait`, before it clears the flag, before it gives the lock back, in the loop, and before
it takes the lock again; at the end of the scope of the lock; behind the loop, with the lock; and at
its end. -/
inductive WaitStage where
  | locking
  | testing
  | clearing
  | unlocking
  | sleeping
  | relocking
  | leaving
  | loaded
  | returned
  deriving DecidableEq

/-- Where a thread is that calls `setNodeState`, with the calls that are to come: before it takes
the lock; before it stores the state; before `notify_all`; and before it gives the lock back.
`deserialize` ends with the same steps. -/
inductive SetStage where
  | locking (calls : List NodeState)
  | storing (state : NodeState) (calls : List NodeState)
  | notifying (calls : List NodeState)
  | unlocking (calls : List NodeState)
  deriving DecidableEq

/-- `node_state`, `node_state_condition` and `node_state_mutex` of a file, with the threads that
wait for it and the threads that set its state. -/
structure FileWait (N M : ℕ) where
  nodeState : NodeState
  cond : Bool
  lock : Option (Fin N ⊕ Fin M)
  waiters : Fin N → WaitStage
  setters : Fin M → SetStage

namespace FileWait

variable {N M : ℕ}

/-- A step of a thread in `waitUntilLoaded`.  While it sleeps it reads the flag again and again; a
read that finds it clear is no step, as the try for a lock that is taken is none. -/
def waiterStep (i : Fin N) (x : FileWait N M) : Option (FileWait N M) :=
  match x.waiters i with
  | .locking =>
    if x.lock.isNone then
      some { x with lock := some (.inl i), waiters := Function.update x.waiters i .testing }
    else none
  | .testing =>
    if x.nodeState = .loaded then some { x with waiters := Function.update x.waiters i .loaded }
    else some { x with waiters := Function.update x.waiters i .clearing }
  | .clearing => some { x with cond := false, waiters := Function.update x.waiters i .unlocking }
  | .unlocking => some { x with lock := none, waiters := Function.update x.waiters i .sleeping }
  | .sleeping =>
    if x.cond then some { x with waiters := Function.update x.waiters i .relocking } else none
  | .relocking =>
    if x.lock.isNone then
      some { x with lock := some (.inl i), waiters := Function.update x.waiters i .leaving }
    else none
  | .leaving => some { x with lock := none, waiters := Function.update x.waiters i .locking }
  | .loaded => some { x with lock := none, waiters := Function.update x.waiters i .returned }
  | .returned => none

/-- A step of a thread in `setNodeState`. -/
def setterStep (j : Fin M) (x : FileWait N M) : Option (FileWait N M) :=
  match x.setters j with
  | .locking [] => none
  | .locking (state :: calls) =>
    if x.lock.isNone then
      some { x with
        lock := some (.inr j)
        setters := Function.update x.setters j (.storing state calls) }
    else none
  | .storing state calls =>
    some { x with nodeState := state, setters := Function.update x.setters j (.notifying calls) }
  | .notifying calls =>
    some { x with cond := true, setters := Function.update x.setters j (.unlocking calls) }
  | .unlocking calls =>
    some { x with lock := none, setters := Function.update x.setters j (.locking calls) }

def step : Fin N ⊕ Fin M → FileWait N M → Option (FileWait N M)
  | .inl i => waiterStep i
  | .inr j => setterStep j

/-- A new file, with the threads that will wait for it and the calls of `setNodeState` to come. -/
def start (N : ℕ) (state : NodeState) (calls : Fin M → List NodeState) : FileWait N M :=
  ⟨state, false, none, fun _ => .locking, fun j => .locking (calls j)⟩

end FileWait

/-! ### The file with a wait in one step -/

/-- The state of a file, and the threads whose wait for it has ended. -/
structure LoadedFile (N : ℕ) where
  nodeState : NodeState
  returned : Fin N → Bool

/-- What can happen to it. -/
inductive LoadedFile.Op (N : ℕ) where
  | set (state : NodeState)
  | ret (i : Fin N)

def LoadedFile.step {N : ℕ} : LoadedFile.Op N → LoadedFile N → Option (LoadedFile N)
  | .set state, x => some { x with nodeState := state }
  | .ret i, x =>
    if x.nodeState = .loaded then some { x with returned := Function.update x.returned i true }
    else none

/-- The wait of the client of the cache is that one step. -/
theorem LoadedFile.ret_iff_client {N : ℕ} {cfg : Config} {c : CacheChoice} {m : CacheState}
    {f : LongId} {file : NodeFile} (hf : m.files f = some file) {x : LoadedFile N}
    (hx : x.nodeState = file.nodeState) (i : Fin N) :
    (∃ y, LoadedFile.step (.ret i) x = some y) ↔
      ∃ m', CacheState.client cfg c (.waitUntilLoaded f) m = some ((), m') := by
  simp only [LoadedFile.step, CacheState.client, hf, hx, Option.bind_some]
  split_ifs with hs
  · exact ⟨fun _ => ⟨m, rfl⟩, fun _ => ⟨_, rfl⟩⟩
  · simp

/-- Has the thread found the file loaded? -/
def WaitStage.isReturned : WaitStage → Bool
  | loaded | returned => true
  | locking | testing | clearing | unlocking | sleeping | relocking | leaving => false

/-- Does the thread have the lock? -/
def WaitStage.holds : WaitStage → Bool
  | testing | clearing | unlocking | leaving | loaded => true
  | locking | sleeping | relocking | returned => false

def SetStage.holds : SetStage → Bool
  | storing _ _ | notifying _ | unlocking _ => true
  | locking _ => false

/-- A bound for the steps until a waiting thread has returned or sleeps.  For one that sleeps beside
the set flag these are a whole turn. -/
def WaitStage.work (cond : Bool) : WaitStage → ℕ
  | .sleeping => if cond then 8 else 0
  | .relocking => 7
  | .leaving => 6
  | .locking => 5
  | .testing => 4
  | .clearing => 3
  | .unlocking => 2
  | .loaded => 1
  | .returned => 0

/-- The same for a thread that calls `setNodeState`, where a notification may send `N` threads on a
turn. -/
def SetStage.work (N : ℕ) : SetStage → ℕ
  | .locking calls => (8 * N + 4) * calls.length
  | .storing _ calls => (8 * N + 4) * calls.length + 8 * N + 3
  | .notifying calls => (8 * N + 4) * calls.length + 8 * N + 2
  | .unlocking calls => (8 * N + 4) * calls.length + 1

theorem WaitStage.work_le (z : WaitStage) (c : Bool) :
    z.work false ≤ z.work c ∧ z.work true ≤ z.work c + 8 := by
  cases z <;> cases c <;> decide

namespace FileWait

variable {N M : ℕ} {x y : FileWait N M} {i : Fin N} {j : Fin M} {t : Fin N ⊕ Fin M}

/-- The file as others see it: a wait ends with the test that finds the file loaded. -/
def atomic (x : FileWait N M) : LoadedFile N := ⟨x.nodeState, fun i => (x.waiters i).isReturned⟩

/-! ### The steps -/

/-- What a step can be. -/
inductive Moved (x : FileWait N M) : Fin N ⊕ Fin M → FileWait N M → Prop
  | lock (i : Fin N) (z : WaitStage) (hl : x.lock = none)
      (hi : x.waiters i = .locking ∧ z = .testing ∨ x.waiters i = .relocking ∧ z = .leaving) :
      Moved x (.inl i)
        { x with lock := some (.inl i), waiters := Function.update x.waiters i z }
  | test (i : Fin N) (z : WaitStage) (hi : x.waiters i = .testing)
      (hz : x.nodeState = .loaded ∧ z = .loaded ∨ x.nodeState ≠ .loaded ∧ z = .clearing) :
      Moved x (.inl i) { x with waiters := Function.update x.waiters i z }
  | clear (i : Fin N) (hi : x.waiters i = .clearing) : Moved x (.inl i)
      { x with cond := false, waiters := Function.update x.waiters i .unlocking }
  | unlock (i : Fin N) (z : WaitStage)
      (hi : x.waiters i = .unlocking ∧ z = .sleeping ∨ x.waiters i = .leaving ∧ z = .locking ∨
        x.waiters i = .loaded ∧ z = .returned) :
      Moved x (.inl i) { x with lock := none, waiters := Function.update x.waiters i z }
  | wake (i : Fin N) (hi : x.waiters i = .sleeping) (hc : x.cond = true) :
      Moved x (.inl i) { x with waiters := Function.update x.waiters i .relocking }
  | call (j : Fin M) (state : NodeState) (calls : List NodeState) (hl : x.lock = none)
      (hj : x.setters j = .locking (state :: calls)) : Moved x (.inr j) { x with
        lock := some (.inr j)
        setters := Function.update x.setters j (.storing state calls) }
  | store (j : Fin M) (state : NodeState) (calls : List NodeState)
      (hj : x.setters j = .storing state calls) : Moved x (.inr j) { x with
        nodeState := state
        setters := Function.update x.setters j (.notifying calls) }
  | notify (j : Fin M) (calls : List NodeState) (hj : x.setters j = .notifying calls) :
      Moved x (.inr j)
        { x with cond := true, setters := Function.update x.setters j (.unlocking calls) }
  | done (j : Fin M) (calls : List NodeState) (hj : x.setters j = .unlocking calls) :
      Moved x (.inr j)
        { x with lock := none, setters := Function.update x.setters j (.locking calls) }

theorem moved_of_step (h : step t x = some y) : Moved x t y := by
  cases t with
  | inl i =>
    simp only [step, waiterStep] at h
    split at h
    · next hi =>
      obtain ⟨hl, h⟩ := Option.ite_none_right_eq_some.1 h
      obtain rfl := Option.some.inj h
      exact .lock i .testing (Option.isNone_iff_eq_none.1 hl) (.inl ⟨hi, rfl⟩)
    · next hi =>
      split_ifs at h with hs <;> obtain rfl := Option.some.inj h
      · exact .test i .loaded hi (.inl ⟨hs, rfl⟩)
      · exact .test i .clearing hi (.inr ⟨hs, rfl⟩)
    · next hi =>
      obtain rfl := Option.some.inj h
      exact .clear i hi
    · next hi =>
      obtain rfl := Option.some.inj h
      exact .unlock i .sleeping (.inl ⟨hi, rfl⟩)
    · next hi =>
      obtain ⟨hc, h⟩ := Option.ite_none_right_eq_some.1 h
      obtain rfl := Option.some.inj h
      exact .wake i hi hc
    · next hi =>
      obtain ⟨hl, h⟩ := Option.ite_none_right_eq_some.1 h
      obtain rfl := Option.some.inj h
      exact .lock i .leaving (Option.isNone_iff_eq_none.1 hl) (.inr ⟨hi, rfl⟩)
    · next hi =>
      obtain rfl := Option.some.inj h
      exact .unlock i .locking (.inr (.inl ⟨hi, rfl⟩))
    · next hi =>
      obtain rfl := Option.some.inj h
      exact .unlock i .returned (.inr (.inr ⟨hi, rfl⟩))
    · cases h
  | inr j =>
    simp only [step, setterStep] at h
    split at h
    · cases h
    · next state calls hj =>
      obtain ⟨hl, h⟩ := Option.ite_none_right_eq_some.1 h
      obtain rfl := Option.some.inj h
      exact .call j state calls (Option.isNone_iff_eq_none.1 hl) hj
    · next state calls hj =>
      obtain rfl := Option.some.inj h
      exact .store j state calls hj
    · next calls hj =>
      obtain rfl := Option.some.inj h
      exact .notify j calls hj
    · next calls hj =>
      obtain rfl := Option.some.inj h
      exact .done j calls hj

/-- A step of the threads is one of the file, or none. -/
theorem atomic_step (h : step t x = some y) :
    y.atomic = x.atomic ∨ ∃ o, LoadedFile.step o x.atomic = some y.atomic := by
  have hsame : ∀ {i z}, z.isReturned = (x.waiters i).isReturned →
      (fun k => (Function.update x.waiters i z k).isReturned) =
        fun k => (x.waiters k).isReturned := by
    intro i z hz
    funext k
    by_cases hk : k = i
    · subst hk
      rw [Function.update_self, hz]
    · rw [Function.update_of_ne hk]
  cases moved_of_step h with
  | lock i z hl hi =>
    refine .inl (congrArg (LoadedFile.mk _) (hsame ?_))
    rcases hi with ⟨hi, rfl⟩ | ⟨hi, rfl⟩ <;> rw [hi] <;> rfl
  | test i z hi hz =>
    rcases hz with ⟨hs, rfl⟩ | ⟨-, rfl⟩
    · refine .inr ⟨.ret i, (if_pos hs).trans (congrArg some ?_)⟩
      refine congrArg (LoadedFile.mk _) (funext fun k => ?_)
      by_cases hk : k = i
      · subst hk
        simp only [Function.update_self, WaitStage.isReturned]
      · simp only [Function.update_of_ne hk, atomic]
    · exact .inl (congrArg (LoadedFile.mk _) (hsame (by rw [hi]; rfl)))
  | clear i hi => exact .inl (congrArg (LoadedFile.mk _) (hsame (by rw [hi]; rfl)))
  | unlock i z hi =>
    refine .inl (congrArg (LoadedFile.mk _) (hsame ?_))
    rcases hi with ⟨hi, rfl⟩ | ⟨hi, rfl⟩ | ⟨hi, rfl⟩ <;> rw [hi] <;> rfl
  | wake i hi hc => exact .inl (congrArg (LoadedFile.mk _) (hsame (by rw [hi]; rfl)))
  | call | notify | done => exact .inl rfl
  | store j state calls hj => exact .inr ⟨.set state, rfl⟩

/-! ### The invariant -/

/-- The threads that have the lock, by their stages. -/
def holds (x : FileWait N M) : Fin N ⊕ Fin M → Bool :=
  Sum.elim (WaitStage.holds ∘ x.waiters) (SetStage.holds ∘ x.setters)

/-- A thread has the lock that it holds.  One that goes to sleep has seen that the file was not
loaded and has cleared the flag; when the file is loaded beside a thread that sleeps, the flag is
set or is going to be. -/
structure Good (x : FileWait N M) : Prop where
  holder : ∀ t, x.holds t = true ↔ x.lock = some t
  unloaded : ∀ i, x.waiters i = .clearing ∨ x.waiters i = .unlocking → x.nodeState ≠ .loaded
  cleared : ∀ i, x.waiters i = .unlocking → x.cond = false
  woken : ∀ i, x.waiters i = .sleeping → x.nodeState = .loaded →
    x.cond = true ∨ ∃ j calls, x.setters j = .notifying calls

theorem Good.start (state : NodeState) (calls : Fin M → List NodeState) :
    Good (start N state calls) where
  holder t := by cases t <;> exact iff_of_false (fun h => by cases h) fun h => by cases h
  unloaded := by rintro i (h | h) <;> cases h
  cleared := fun i h => by cases h
  woken := fun i h => by cases h

/-- A step takes the lock, gives it back, or leaves it where it is. -/
theorem holds_moved (h : Moved x t y) : ∃ b, y.holds = Function.update x.holds t b ∧
    (x.lock = none ∧ y.lock = some t ∧ b = true ∨ x.holds t = true ∧ y.lock = none ∧ b = false ∨
      x.holds t = b ∧ y.lock = x.lock) := by
  have hw : ∀ {i z}, Sum.elim (WaitStage.holds ∘ Function.update x.waiters i z)
      (SetStage.holds ∘ x.setters) = Function.update x.holds (.inl i) z.holds := by
    intro i z
    rw [Function.comp_update, holds, Sum.update_elim_inl]
  have hs : ∀ {j z}, Sum.elim (WaitStage.holds ∘ x.waiters)
      (SetStage.holds ∘ Function.update x.setters j z) =
        Function.update x.holds (.inr j) z.holds := by
    intro j z
    rw [Function.comp_update, holds, Sum.update_elim_inr]
  have hi : ∀ {i z}, x.waiters i = z → x.holds (.inl i) = z.holds :=
    fun h => congrArg WaitStage.holds h
  have hj : ∀ {j z}, x.setters j = z → x.holds (.inr j) = z.holds :=
    fun h => congrArg SetStage.holds h
  cases h with
  | lock i z hl h =>
    refine ⟨_, hw, .inl ⟨hl, rfl, ?_⟩⟩
    rcases h with ⟨-, rfl⟩ | ⟨-, rfl⟩ <;> rfl
  | test i z h hz =>
    refine ⟨_, hw, .inr (.inr ⟨(hi h).trans ?_, rfl⟩)⟩
    rcases hz with ⟨-, rfl⟩ | ⟨-, rfl⟩ <;> rfl
  | clear i h => exact ⟨_, hw, .inr (.inr ⟨(hi h).trans rfl, rfl⟩)⟩
  | unlock i z h =>
    refine ⟨_, hw, .inr (.inl ?_)⟩
    rcases h with ⟨h, rfl⟩ | ⟨h, rfl⟩ | ⟨h, rfl⟩ <;> exact ⟨hi h, rfl, rfl⟩
  | wake i h hc => exact ⟨_, hw, .inr (.inr ⟨(hi h).trans rfl, rfl⟩)⟩
  | call j state calls hl h => exact ⟨_, hs, .inl ⟨hl, rfl, rfl⟩⟩
  | store j state calls h => exact ⟨_, hs, .inr (.inr ⟨(hj h).trans rfl, rfl⟩)⟩
  | notify j calls h => exact ⟨_, hs, .inr (.inr ⟨(hj h).trans rfl, rfl⟩)⟩
  | done j calls h => exact ⟨_, hs, .inr (.inl ⟨hj h, rfl, rfl⟩)⟩

theorem Good.holder_moved (hx : Good x) (h : Moved x t y) (t' : Fin N ⊕ Fin M) :
    y.holds t' = true ↔ y.lock = some t' := by
  obtain ⟨b, hb, h⟩ := holds_moved h
  have ht := hx.holder t
  have ht' := hx.holder t'
  rw [hb, Function.update_apply]
  rcases h with ⟨hl, hl', rfl⟩ | ⟨hh, hl', rfl⟩ | ⟨rfl, hl'⟩ <;> grind

/-- Only one thread has the lock. -/
theorem Good.holds_unique (hx : Good x) {t t' : Fin N ⊕ Fin M} (h : x.holds t = true)
    (h' : x.holds t' = true) : t = t' :=
  Option.some.inj (((hx.holder t).1 h).symm.trans ((hx.holder t').1 h'))

/-- Beside a thread in `setNodeState` no thread is between the test of the state and the loop. -/
theorem Good.not_unlocking (hx : Good x) (hj : (x.setters j).holds = true) :
    ¬ (x.waiters i = .clearing ∨ x.waiters i = .unlocking) := by
  intro hi
  have hholds : x.holds (.inl i) = true := by
    change (x.waiters i).holds = true
    rcases hi with hi | hi <;> rw [hi] <;> rfl
  cases hx.holds_unique (t := .inr j) hj hholds

/-- A notification that is due stays due while another thread calls `setNodeState`. -/
theorem exists_notifying {z : SetStage} (hj : ∀ calls, x.setters j ≠ .notifying calls)
    (h : ∃ j' calls, x.setters j' = .notifying calls) :
    ∃ j' calls, Function.update x.setters j z j' = .notifying calls := by
  obtain ⟨j', calls, hj'⟩ := h
  refine ⟨j', calls, (Function.update_of_ne ?_ _ _).trans hj'⟩
  rintro rfl
  exact hj calls hj'

theorem Good.moved (hx : Good x) (h : Moved x t y) : Good y := by
  have hset : ∀ {j z}, x.setters j = z → z.holds = true → ∀ k,
      ¬ (x.waiters k = .clearing ∨ x.waiters k = .unlocking) :=
    fun hj hz k => hx.not_unlocking (hj ▸ hz)
  refine ⟨hx.holder_moved h, fun k hk => ?_, fun k hk => ?_, fun k hk hs => ?_⟩
  · have hbefore := hx.unloaded k
    cases h with
    | lock | test | clear | unlock | wake => grind [Function.update_apply]
    | call | notify | done => exact hbefore hk
    | store j state calls hj => exact absurd hk (hset hj rfl k)
  · have hbefore := hx.cleared k
    cases h with
    | lock | test | clear | unlock | wake => grind [Function.update_apply]
    | call | store | done => exact hbefore hk
    | notify j calls hj => exact absurd (.inr hk) (hset hj rfl k)
  · have hbefore := hx.woken k
    cases h with
    | lock | test | wake => grind [Function.update_apply]
    | clear i hi => exact absurd hs (hx.unloaded i (.inl hi))
    | unlock i z hi =>
      have hunloaded := hx.unloaded i
      grind [Function.update_apply]
    | call j state calls hl hj =>
      refine (hbefore hk hs).imp_right (exists_notifying fun calls h => ?_)
      rw [hj] at h
      cases h
    | store j state calls hj => exact .inr ⟨j, calls, Function.update_self ..⟩
    | notify j calls hj => exact .inl rfl
    | done j calls hj =>
      refine (hbefore hk hs).imp_right (exists_notifying fun calls h => ?_)
      rw [hj] at h
      cases h

/-! ### The work that is left -/

def work (x : FileWait N M) : ℕ :=
  ∑ i, (x.waiters i).work x.cond + ∑ j, (x.setters j).work N

theorem work_start (state : NodeState) (calls : Fin M → List NodeState) :
    (start N state calls).work = 5 * N + (8 * N + 4) * ∑ j, (calls j).length := by
  simp only [work, start, WaitStage.work, SetStage.work, Finset.sum_const, Finset.card_univ,
    Fintype.card_fin, smul_eq_mul, Finset.mul_sum]
  omega

theorem Moved.work_lt (h : Moved x t y) (hx : Good x) : y.work < x.work := by
  have hw : ∀ {c : Bool} (i z),
      ∑ k, (Function.update x.waiters i z k).work c + (x.waiters i).work c =
        ∑ k, (x.waiters k).work c + z.work c := fun i z => sum_update (WaitStage.work _) _ i z
  have hs : ∀ j z, ∑ k, (Function.update x.setters j z k).work N + (x.setters j).work N =
      ∑ k, (x.setters k).work N + z.work N := sum_update (SetStage.work N) x.setters
  cases h with
  | lock i z hl hi =>
    have := hw (c := x.cond) i z
    rcases hi with ⟨hi, rfl⟩ | ⟨hi, rfl⟩
    all_goals
      simp only [hi, WaitStage.work, work] at this ⊢
      omega
  | test i z hi hz =>
    have := hw (c := x.cond) i z
    rcases hz with ⟨-, rfl⟩ | ⟨-, rfl⟩
    all_goals
      simp only [hi, WaitStage.work, work] at this ⊢
      omega
  | clear i hi =>
    have := hw (c := false) i .unlocking
    have hle : ∑ k, (x.waiters k).work false ≤ ∑ k, (x.waiters k).work x.cond :=
      Finset.sum_le_sum fun k _ => ((x.waiters k).work_le x.cond).1
    simp only [hi, WaitStage.work, work] at this hle ⊢
    omega
  | unlock i z hi =>
    have := hw (c := x.cond) i z
    rcases hi with ⟨hi, rfl⟩ | ⟨hi, rfl⟩ | ⟨hi, rfl⟩
    · simp only [hi, hx.cleared i hi, WaitStage.work, work, Bool.false_eq_true, if_false] at this ⊢
      omega
    all_goals
      simp only [hi, WaitStage.work, work] at this ⊢
      omega
  | wake i hi hc =>
    have := hw (c := x.cond) i .relocking
    simp only [hi, hc, WaitStage.work, work, if_true] at this ⊢
    omega
  | call j state calls hl hj =>
    have := hs j (.storing state calls)
    simp only [hj, SetStage.work, work, List.length_cons] at this ⊢
    rw [Nat.mul_add_one] at this
    omega
  | store j state calls hj =>
    have := hs j (.notifying calls)
    simp only [hj, SetStage.work, work] at this ⊢
    omega
  | notify j calls hj =>
    have := hs j (.unlocking calls)
    have hle : ∑ k, (x.waiters k).work true ≤ ∑ k, (x.waiters k).work x.cond + 8 * N := by
      refine (Finset.sum_le_sum fun k _ => ((x.waiters k).work_le x.cond).2).trans_eq ?_
      rw [Finset.sum_add_distrib, Finset.sum_const, Finset.card_univ, Fintype.card_fin, smul_eq_mul,
        Nat.mul_comm N]
    simp only [hj, SetStage.work, work] at this ⊢
    omega
  | done j calls hj =>
    have := hs j (.locking calls)
    simp only [hj, SetStage.work, work] at this ⊢
    omega

/-! ### Rest -/

/-- When no thread can go on, every call of `setNodeState` has returned, and a thread that has not
found the file loaded sleeps. -/
theorem Good.rest (hx : Good x) (hrest : ∀ t, step t x = none) :
    (∀ j, x.setters j = .locking []) ∧
      ∀ i, x.waiters i = .returned ∨ x.waiters i = .sleeping ∧ x.nodeState ≠ .loaded := by
  have hlock : x.lock = none := by
    cases hl : x.lock with
    | none => rfl
    | some t =>
      have ht := (hx.holder t).2 hl
      have hnot := hrest t
      cases t with
      | inl i =>
        change (x.waiters i).holds = true at ht
        simp only [step, waiterStep] at hnot
        cases hi : x.waiters i <;> rw [hi] at ht hnot <;> grind [WaitStage.holds]
      | inr j =>
        change (x.setters j).holds = true at ht
        simp only [step, setterStep] at hnot
        cases hj : x.setters j <;> rw [hj] at ht hnot <;> grind [SetStage.holds]
  have hset : ∀ j, x.setters j = .locking [] := by
    intro j
    have hnot := hrest (.inr j)
    simp only [step, setterStep] at hnot
    split at hnot
    · assumption
    all_goals simp [hlock] at hnot
  refine ⟨hset, fun i => ?_⟩
  have hnot := hrest (.inl i)
  simp only [step, waiterStep] at hnot
  cases hi : x.waiters i with
  | returned => exact .inl rfl
  | sleeping =>
    refine .inr ⟨rfl, fun hs => ?_⟩
    obtain hc | ⟨j, calls, hj⟩ := hx.woken i hi hs
    · simp [hi, hc] at hnot
    · rw [hset j] at hj
      cases hj
  | testing =>
    rw [hi] at hnot
    dsimp only at hnot
    split_ifs at hnot
  | locking | clearing | unlocking | relocking | leaving | loaded => simp [hi, hlock] at hnot

end FileWait

/-! ### The wait ends -/

/-- In every schedule the threads come to rest, and as others see it each wait is one step.  At rest
only those sleep whose file is not loaded: no notification is lost, although the threads share the
flag. -/
theorem waitUntilLoaded_wakes {N M : ℕ} {state : NodeState} {calls : Fin M → List NodeState}
    {x : FileWait N M} (es : List (Fin N ⊕ Fin M))
    (h : play FileWait.step es (.start N state calls) = some x) :
    es.length ≤ 5 * N + (8 * N + 4) * ∑ j, (calls j).length ∧
      (∃ ops, play LoadedFile.step ops ⟨state, fun _ => false⟩ = some x.atomic) ∧
      ((∀ t, FileWait.step t x = none) → (∀ j, x.setters j = .locking []) ∧
        ∀ i, x.waiters i = .returned ∨ x.waiters i = .sleeping ∧ x.nodeState ≠ .loaded) := by
  obtain ⟨hx, hle⟩ : x.Good ∧ es.length + x.work ≤ (FileWait.start N state calls).work :=
    play_bounded h (.start state calls) fun t _ y z hy hz =>
      have hmoved := FileWait.moved_of_step hz
      ⟨hy.moved hmoved, hmoved.work_lt hy⟩
  rw [FileWait.work_start] at hle
  refine ⟨by omega, ?_, hx.rest⟩
  exact exists_play_of_refines (fun t y z => FileWait.atomic_step) h

/-- Two threads wait while the state changes twice.  The second clears the flag before the first has
seen that it was set, and both wake up when the file is loaded. -/
theorem waitUntilLoaded_wakes_two :
    let calls : Fin 1 → List NodeState := fun _ => [.evicting, .loaded]
    let sleeps (i : Fin 2) : List (Fin 2 ⊕ Fin 1) := List.replicate 4 (.inl i)
    let wakes (i : Fin 2) : List (Fin 2 ⊕ Fin 1) := List.replicate 6 (.inl i)
    let sets : List (Fin 2 ⊕ Fin 1) := List.replicate 4 (.inr 0)
    let es := sleeps 0 ++ sets ++ sleeps 1 ++ sets ++ wakes 0 ++ wakes 1
    ∃ x, play FileWait.step es (.start 2 .loading calls) = some x ∧
      es.length ≤ 5 * 2 + (8 * 2 + 4) * ∑ j, (calls j).length ∧
      (∃ ops, play LoadedFile.step ops ⟨.loading, fun _ => false⟩ = some x.atomic) ∧
      ∀ i, x.waiters i = .returned := by
  intro calls sleeps wakes sets es
  have htest : (play FileWait.step es (.start 2 .loading calls)).elim false
      (fun x => decide (x.nodeState = .loaded) &&
        decide (∀ t, (FileWait.step t x).isNone = true)) = true := by decide +kernel
  obtain ⟨x, hplay, htest⟩ := elim_eq_true htest
  obtain ⟨hs, hrest⟩ := Bool.and_eq_true_iff.1 htest
  obtain ⟨hlen, hops, hwoken⟩ := waitUntilLoaded_wakes es hplay
  refine ⟨x, hplay, hlen, hops, fun i => ?_⟩
  have hnone t := Option.isNone_iff_eq_none.1 (of_decide_eq_true hrest t)
  rcases (hwoken hnone).2 i with hi | ⟨-, hne⟩
  · exact hi
  · exact absurd (of_decide_eq_true hs) hne

end MegaTree
