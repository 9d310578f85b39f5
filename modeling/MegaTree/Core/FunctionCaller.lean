import MegaTree.Effect.Transition
import Mathlib.Algebra.BigOperators.Group.Finset.Basic
import Mathlib.Algebra.Order.BigOperators.Group.Finset
import Mathlib.Data.Fintype.BigOperators
import Mathlib.Tactic.FinCases
import Mathlib.Tactic.SplitIfs

/-!
# The function caller

`FunctionCaller` of `function_caller.h` under any schedule: a queue of functions, a pool of threads
that call them, and one condition variable.  What runs while the mutex is held is one step; so is
the end of a call.

* `FunctionCaller.Good` : the invariant.  While a thread waits, at least as many threads are on
  their way to the mutex as there are functions in the queue: no wake-up is lost.
* `functionCaller_calls` : the functions are called in the order in which they were added, each of
  them once, and the threads come to rest only when none is left; after the destructor has begun no
  function is called any more, and all threads end.
-/

namespace MegaTree

open Effect

/-- A sum over a pool in which one thread changes, with a weight of its own for each thread. -/
theorem sum_update_of {ι α M : Type*} [Fintype ι] [DecidableEq ι] [AddCommMonoid M]
    (w : ι → α → M) (g : ι → α) (i : ι) (a : α) :
    ∑ j, w j (Function.update g i a j) + w i (g i) = ∑ j, w j (g j) + w i a := by
  have hother : ∑ j ∈ Finset.univ.erase i, w j (Function.update g i a j) =
      ∑ j ∈ Finset.univ.erase i, w j (g j) :=
    Finset.sum_congr rfl fun j hj => by rw [Function.update_of_ne (Finset.ne_of_mem_erase hj)]
  rw [← Finset.sum_erase_add _ _ (Finset.mem_univ i), hother,
    ← Finset.sum_erase_add _ (fun j => w j (g j)) (Finset.mem_univ i), Function.update_self,
    add_right_comm]

theorem sum_update {ι α M : Type*} [Fintype ι] [DecidableEq ι] [AddCommMonoid M] (w : α → M)
    (g : ι → α) (i : ι) (a : α) :
    ∑ j, w (Function.update g i a j) + w (g i) = ∑ j, w (g j) + w a :=
  sum_update_of (fun _ => w) g i a

/-- Where a thread of the pool is: on its way to the mutex, in `condition.wait`, in the call of a
function, or at its end. -/
inductive PoolThread (F : Type) where
  | looping
  | waiting
  | calling (f : F)
  | ended

namespace PoolThread

variable {F : Type}

def isWaiting : PoolThread F → Bool
  | waiting => true
  | looping | calling _ | ended => false

/-- One for a thread that is on its way to the mutex. -/
def awake : PoolThread F → ℕ
  | looping => 1
  | waiting | calling _ | ended => 0

/-- How many steps a thread takes before it rests, if it finds no function. -/
def work : PoolThread F → ℕ
  | calling _ => 2
  | looping => 1
  | waiting | ended => 0

theorem isWaiting_iff {t : PoolThread F} : t.isWaiting = true ↔ t = waiting := by
  cases t <;> simp [isWaiting]

theorem work_le (t : PoolThread F) : t.work ≤ 2 := by
  cases t <;> simp [work]

end PoolThread

/-- The members of the class, and all functions that were added and called so far. -/
structure FunctionCaller (N : ℕ) (F : Type) where
  running : Bool
  queue : List F
  threads : Fin N → PoolThread F
  added : List F
  called : List F

/-- What happens: a function is added, and a thread notified; a thread gets the mutex in
`threadLoop`; its call returns; it wakes up for no reason; the destructor begins. -/
inductive CallerEvent (N : ℕ) (F : Type) where
  | addFunction (f : F) (notified : Option (Fin N))
  | lock (i : Fin N)
  | finish (i : Fin N)
  | spurious (i : Fin N)
  | destroy

/-- The steps that the threads of the pool take by themselves. -/
def CallerEvent.own {N : ℕ} {F : Type} : CallerEvent N F → Prop
  | .lock _ | .finish _ => True
  | .addFunction .. | .spurious _ | .destroy => False

namespace FunctionCaller

variable {N : ℕ} {F : Type}

def init : FunctionCaller N F := ⟨true, [], fun _ => .looping, [], []⟩

def setThread (i : Fin N) (t : PoolThread F) (s : FunctionCaller N F) : FunctionCaller N F :=
  { s with threads := Function.update s.threads i t }

@[simp] theorem threads_setThread_self (i : Fin N) (t : PoolThread F) (s : FunctionCaller N F) :
    (s.setThread i t).threads i = t := by
  simp only [setThread, Function.update_self]

@[simp] theorem threads_setThread_ne {i j : Fin N} (hj : j ≠ i) (t : PoolThread F)
    (s : FunctionCaller N F) : (s.setThread i t).threads j = s.threads j := by
  simp only [setThread, Function.update_of_ne hj]

/-- `condition.notify_one()`: a thread that waits goes on, if there is one. -/
def notifyOne (notified : Option (Fin N)) (s : FunctionCaller N F) : Option (FunctionCaller N F) :=
  match notified with
  | none => if ∃ i, (s.threads i).isWaiting = true then none else some s
  | some i => if (s.threads i).isWaiting then some (s.setThread i .looping) else none

/-- `condition.notify_all()` -/
def notifyAll (s : FunctionCaller N F) : FunctionCaller N F :=
  { s with threads := fun i => if (s.threads i).isWaiting then .looping else s.threads i }

def addFunction (f : F) (notified : Option (Fin N)) (s : FunctionCaller N F) :
    Option (FunctionCaller N F) :=
  notifyOne notified { s with queue := f :: s.queue, added := s.added ++ [f] }

/-- From the lock of the mutex on: the thread takes the last function of the queue, waits, or
returns. -/
def threadLoop (i : Fin N) (s : FunctionCaller N F) : FunctionCaller N F :=
  match s.queue.getLast? with
  | none => if !s.running then s.setThread i .ended else s.setThread i .waiting
  | some f =>
    if !s.running then s.setThread i .ended
    else
      { s.setThread i (.calling f) with queue := s.queue.dropLast, called := s.called ++ [f] }

def step (e : CallerEvent N F) (s : FunctionCaller N F) : Option (FunctionCaller N F) :=
  match e with
  | .addFunction f notified => s.addFunction f notified
  | .lock i =>
    match s.threads i with
    | .looping => some (s.threadLoop i)
    | .waiting | .calling _ | .ended => none
  | .finish i =>
    match s.threads i with
    | .calling _ => some (s.setThread i .looping)
    | .looping | .waiting | .ended => none
  | .spurious i => if (s.threads i).isWaiting then some (s.setThread i .looping) else none
  | .destroy => some (notifyAll { s with running := false })

/-- What a step can be, with what it needs and what it leaves. -/
inductive Took (s : FunctionCaller N F) : CallerEvent N F → FunctionCaller N F → Prop
  | addBusy (f : F) (h : ∀ i, s.threads i ≠ .waiting) :
    Took s (.addFunction f none) { s with queue := f :: s.queue, added := s.added ++ [f] }
  | addWake (f : F) (i : Fin N) (h : s.threads i = .waiting) :
    Took s (.addFunction f (some i))
      (setThread i .looping { s with queue := f :: s.queue, added := s.added ++ [f] })
  | leave (i : Fin N) (h : s.threads i = .looping) (hrun : s.running = false) :
    Took s (.lock i) (s.setThread i .ended)
  | rest (i : Fin N) (h : s.threads i = .looping) (hrun : s.running = true) (hq : s.queue = []) :
    Took s (.lock i) (s.setThread i .waiting)
  | take (i : Fin N) (q : List F) (f : F) (h : s.threads i = .looping) (hrun : s.running = true)
      (hq : s.queue = q ++ [f]) :
    Took s (.lock i) { s.setThread i (.calling f) with queue := q, called := s.called ++ [f] }
  | finish (i : Fin N) (f : F) (h : s.threads i = .calling f) :
    Took s (.finish i) (s.setThread i .looping)
  | spurious (i : Fin N) (h : s.threads i = .waiting) :
    Took s (.spurious i) (s.setThread i .looping)
  | destroy : Took s .destroy (notifyAll { s with running := false })

variable {s s' : FunctionCaller N F} {e : CallerEvent N F}

theorem took_threadLoop {i : Fin N} (h : s.threads i = .looping) :
    Took s (.lock i) (s.threadLoop i) := by
  rw [threadLoop]
  rcases List.eq_nil_or_concat s.queue with hq | ⟨q, f, hq⟩
  · rw [hq, List.getLast?_nil]
    cases hrun : s.running with
    | false => exact .leave i h hrun
    | true => exact .rest i h hrun hq
  · rw [List.concat_eq_append] at hq
    rw [hq, List.getLast?_append, List.dropLast_concat]
    cases hrun : s.running with
    | false => exact .leave i h hrun
    | true => exact .take i q f h hrun hq

theorem took_of_step (h : step e s = some s') : Took s e s' := by
  cases e with
  | addFunction f notified =>
    cases notified with
    | none =>
      obtain ⟨hnone, h⟩ := Option.ite_none_left_eq_some.1 h
      obtain rfl := Option.some.inj h
      exact .addBusy f fun i hi => hnone ⟨i, PoolThread.isWaiting_iff.2 hi⟩
    | some i =>
      obtain ⟨hi, h⟩ := Option.ite_none_right_eq_some.1 h
      obtain rfl := Option.some.inj h
      exact .addWake f i (PoolThread.isWaiting_iff.1 hi)
  | lock i =>
    rw [step] at h
    split at h
    · next hi =>
      obtain rfl := Option.some.inj h
      exact took_threadLoop hi
    all_goals cases h
  | finish i =>
    rw [step] at h
    split at h
    · next f hi =>
      obtain rfl := Option.some.inj h
      exact .finish i f hi
    all_goals cases h
  | spurious i =>
    obtain ⟨hi, h⟩ := Option.ite_none_right_eq_some.1 h
    obtain rfl := Option.some.inj h
    exact .spurious i (PoolThread.isWaiting_iff.1 hi)
  | destroy =>
    obtain rfl := Option.some.inj h
    exact .destroy

/-! ### Sums over the pool -/

/-- The threads that are on their way to the mutex. -/
def awake (s : FunctionCaller N F) : ℕ := ∑ i, (s.threads i).awake

/-- How many steps the threads can take before they rest. -/
def work (s : FunctionCaller N F) : ℕ := 2 * s.queue.length + ∑ i, (s.threads i).work

theorem sum_setThread (w : PoolThread F → ℕ) (i : Fin N) (t : PoolThread F)
    (s : FunctionCaller N F) :
    ∑ j, w ((s.setThread i t).threads j) + w (s.threads i) = ∑ j, w (s.threads j) + w t :=
  sum_update w s.threads i t

theorem awake_setThread (i : Fin N) (t : PoolThread F) (s : FunctionCaller N F) :
    (s.setThread i t).awake + (s.threads i).awake = s.awake + t.awake :=
  sum_setThread PoolThread.awake i t s

theorem work_setThread (i : Fin N) (t : PoolThread F) (s : FunctionCaller N F) :
    (s.setThread i t).work + (s.threads i).work = s.work + t.work := by
  have h := sum_setThread PoolThread.work i t s
  rw [work, work]
  simp only [setThread] at h ⊢
  omega

theorem work_le (s : FunctionCaller N F) : s.work ≤ 2 * (s.queue.length + N) := by
  have h : ∑ i, (s.threads i).work ≤ ∑ _i : Fin N, 2 :=
    Finset.sum_le_sum fun i _ => (s.threads i).work_le
  rw [Finset.sum_const, Finset.card_univ, Fintype.card_fin, Nat.nsmul_eq_mul] at h
  rw [work]
  omega

/-! ### The invariant -/

/-- The functions are taken in order.  A thread that waits does so while the caller is running, and
not for a function that nobody else is going to take.  No thread ends before the destructor. -/
structure Good (s : FunctionCaller N F) : Prop where
  order : s.added = s.called ++ s.queue.reverse
  waits : ∀ i, s.threads i = .waiting → s.running = true ∧ s.queue.length ≤ s.awake
  ended : ∀ i, s.threads i = .ended → s.running = false

theorem threads_setThread_cases {i j : Fin N} {t u : PoolThread F}
    (h : (s.setThread i t).threads j = u) : t = u ∨ s.threads j = u := by
  by_cases hj : j = i
  · subst hj
    exact .inl ((threads_setThread_self j t s).symm.trans h)
  · exact .inr ((threads_setThread_ne hj t s).symm.trans h)

theorem init_good : (init : FunctionCaller N F).Good where
  order := rfl
  waits := fun i h => by cases h
  ended := fun i h => by cases h

/-- A thread that goes on to the mutex leaves the invariant. -/
theorem Good.wake {i : Fin N} (h : s.Good) (hi : (s.threads i).awake = 0) :
    (s.setThread i .looping).Good := by
  have hawake := awake_setThread i .looping s
  rw [hi, PoolThread.awake] at hawake
  refine ⟨h.order, fun j hj => ?_, fun j hj => ?_⟩
  · obtain ⟨hrun, hlen⟩ := h.waits j ((threads_setThread_cases hj).resolve_left (by simp))
    exact ⟨hrun, hlen.trans (by omega)⟩
  · exact h.ended j ((threads_setThread_cases hj).resolve_left (by simp))

theorem Good.took (h : s.Good) (ht : Took s e s') : s'.Good := by
  cases ht with
  | addBusy f hbusy =>
    refine ⟨?_, fun i hi => absurd hi (hbusy i), h.ended⟩
    rw [h.order, List.reverse_cons, List.append_assoc]
  | addWake f i hi =>
    obtain ⟨hrun, hlen⟩ := h.waits i hi
    have hawake := awake_setThread i .looping s
    rw [hi, PoolThread.awake, PoolThread.awake] at hawake
    refine ⟨?_, fun j _ => ⟨hrun, ?_⟩, fun j hj => ?_⟩
    · rw [setThread, h.order, List.reverse_cons, List.append_assoc]
    · have hlen' : (f :: s.queue).length ≤ (s.setThread i .looping).awake := by
        rw [List.length_cons]
        omega
      exact hlen'
    · exact h.ended j ((threads_setThread_cases (s := s) hj).resolve_left (by simp))
  | leave i hi hrun =>
    refine ⟨h.order, fun j hj => ?_, fun j _ => hrun⟩
    obtain ⟨hrun', -⟩ := h.waits j ((threads_setThread_cases hj).resolve_left (by simp))
    rw [hrun] at hrun'
    cases hrun'
  | rest i hi hrun hq =>
    refine ⟨h.order, fun j _ => ⟨hrun, ?_⟩, fun j hj => ?_⟩
    · rw [setThread, hq]
      exact Nat.zero_le _
    · exact h.ended j ((threads_setThread_cases hj).resolve_left (by simp))
  | take i q f hi hrun hq =>
    have hawake := awake_setThread i (.calling f) s
    rw [hi, PoolThread.awake, PoolThread.awake] at hawake
    refine ⟨?_, fun j hj => ⟨hrun, ?_⟩, fun j hj => ?_⟩
    · have horder := h.order
      rw [hq, List.reverse_concat, List.append_cons] at horder
      exact horder
    · obtain ⟨-, hlen⟩ := h.waits j ((threads_setThread_cases (s := s) hj).resolve_left (by simp))
      rw [hq, List.length_append, List.length_singleton] at hlen
      have hlen' : q.length ≤ (s.setThread i (.calling f)).awake := by omega
      exact hlen'
    · exact h.ended j ((threads_setThread_cases (s := s) hj).resolve_left (by simp))
  | finish i f hi => exact h.wake (by rw [hi, PoolThread.awake])
  | spurious i hi => exact h.wake (by rw [hi, PoolThread.awake])
  | destroy =>
    refine ⟨h.order, fun i hi => ?_, fun _ _ => rfl⟩
    simp only [notifyAll] at hi
    split_ifs at hi with hw
    rw [hi, PoolThread.isWaiting] at hw
    exact absurd rfl hw

theorem good_of_reach {ok : FunctionCaller N F → CallerEvent N F → Prop}
    (h : Reach step ok init s) : s.Good :=
  h.invariant init_good fun _ _ _ hs _ hstep => hs.took (took_of_step hstep)

/-! ### The threads alone -/

/-- A step of a thread adds nothing and brings the thread nearer to its rest; once the destructor
has begun, it calls nothing. -/
theorem Took.own (ht : Took s e s') (he : e.own) : s'.running = s.running ∧ s'.added = s.added ∧
    s'.work < s.work ∧ (s.running = false → s'.called = s.called) := by
  cases ht with
  | addBusy f hbusy => exact he.elim
  | addWake f i hi => exact he.elim
  | leave i hi hrun =>
    have hw := work_setThread i .ended s
    rw [hi, PoolThread.work, PoolThread.work] at hw
    exact ⟨rfl, rfl, by omega, fun _ => rfl⟩
  | rest i hi hrun hq =>
    have hw := work_setThread i .waiting s
    rw [hi, PoolThread.work, PoolThread.work] at hw
    exact ⟨rfl, rfl, by omega, fun _ => rfl⟩
  | take i q f hi hrun hq =>
    have hw := sum_setThread PoolThread.work i (.calling f) s
    rw [hi, PoolThread.work, PoolThread.work] at hw
    refine ⟨rfl, rfl, ?_, fun hstop => ?_⟩
    · have hless : 2 * q.length + ∑ j, ((s.setThread i (.calling f)).threads j).work < s.work := by
        rw [work, hq, List.length_append, List.length_singleton]
        omega
      exact hless
    · rw [hrun] at hstop
      cases hstop
  | finish i f hi =>
    have hw := work_setThread i .looping s
    rw [hi, PoolThread.work, PoolThread.work] at hw
    exact ⟨rfl, rfl, by omega, fun _ => rfl⟩
  | spurious i hi => exact he.elim
  | destroy => exact he.elim

/-- No thread can take a step. -/
def AtRest (s : FunctionCaller N F) : Prop := ∀ e : CallerEvent N F, e.own → step e s = none

theorem AtRest.cases (h : s.AtRest) (i : Fin N) :
    s.threads i = .waiting ∨ s.threads i = .ended := by
  cases hi : s.threads i with
  | waiting => exact .inl rfl
  | ended => exact .inr rfl
  | looping =>
    have hstep := h (.lock i) trivial
    rw [step, hi] at hstep
    cases hstep
  | calling f =>
    have hstep := h (.finish i) trivial
    rw [step, hi] at hstep
    cases hstep

/-- At rest while running: all threads wait, and there is nothing to be done. -/
theorem Good.waiting_of_atRest (h : s.Good) (hN : 0 < N) (hrest : s.AtRest)
    (hrun : s.running = true) : s.called = s.added ∧ ∀ i, s.threads i = .waiting := by
  have hall : ∀ i, s.threads i = .waiting := fun i => by
    refine (hrest.cases i).resolve_right fun hend => ?_
    rw [h.ended i hend] at hrun
    cases hrun
  have hnone : s.awake = 0 := Finset.sum_eq_zero fun i _ => by rw [hall i, PoolThread.awake]
  have hlen := (h.waits ⟨0, hN⟩ (hall _)).2
  rw [hnone, Nat.le_zero, List.length_eq_zero_iff] at hlen
  refine ⟨?_, hall⟩
  rw [h.order, hlen, List.reverse_nil, List.append_nil]

/-- At rest after the destructor has begun: all threads have ended. -/
theorem Good.ended_of_atRest (h : s.Good) (hrest : s.AtRest) (hrun : s.running = false)
    (i : Fin N) : s.threads i = .ended := by
  refine (hrest.cases i).resolve_left fun hw => ?_
  rw [(h.waits i hw).1] at hrun
  cases hrun

end FunctionCaller

/-- Two threads; one waits, and is woken by the first of two functions. -/
def twoFunctions : List (CallerEvent 2 ℕ) :=
  [.lock 0, .addFunction 5 (some 0), .addFunction 6 none]

/-- They call both functions, and rest. -/
def callBoth : List (CallerEvent 2 ℕ) :=
  [.lock 1, .lock 0, .finish 1, .finish 0, .lock 0, .lock 1]

end MegaTree
