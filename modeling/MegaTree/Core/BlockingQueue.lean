import MegaTree.Effect.Transition
import Mathlib.Data.List.Perm.Basic
import Mathlib.Data.Nat.Notation
import Mathlib.Logic.Relation
import Mathlib.Tactic.SplitIfs

/-!
# The blocking queue

`BlockingQueue` of `blocking_queue.h` under any schedule of any threads.  What runs while the mutex
is held is one step.  A call that waits is on the list of its condition; it is woken by a
notification, by `unblockAll` or for no reason, and goes on when it gets the mutex again.  `enqueue`
looks at the queue again then, `dequeue` does not.

* `BlockingQueue.moves_of_step` : all that a step does to the items.
* `blockingQueue_fifo` : the queue is a bounded FIFO, as long as no `dequeue` goes on while there is
  nothing in the queue.
* `one_consumer_fifo` : so it is with one consumer that is woken by notifications only.
-/

namespace MegaTree

open Effect

variable {θ T : Type}

/-! ### The items -/

/-- `queue_`, what has been enqueued, and what has been returned to which thread. -/
structure Channel (θ T : Type) where
  queue : List T
  enqueued : List T
  returned : List (θ × T)

namespace Channel

def pushBack (item : T) (c : Channel θ T) : Channel θ T :=
  { c with queue := c.queue ++ [item], enqueued := c.enqueued ++ [item] }

/-- `front()` and `pop_front()`, for the thread `t`; there is no front of an empty queue. -/
def popFront (t : θ) (c : Channel θ T) : Option (Channel θ T) :=
  match c.queue with
  | [] => none
  | item :: rest => some { c with queue := rest, returned := c.returned ++ [(t, item)] }

/-- An item comes or goes. -/
inductive Move (maxSize : ℕ) (c : Channel θ T) : Channel θ T → Prop
  | push (item : T) (h : maxSize = 0 ∨ c.queue.length < maxSize) : Move maxSize c (c.pushBack item)
  | pop (t : θ) {c' : Channel θ T} (h : c.popFront t = some c') : Move maxSize c c'

/-- The queue is not too long.  What has been returned, and then what is in the queue, is what has
been enqueued. -/
structure Fifo (maxSize : ℕ) (c : Channel θ T) : Prop where
  bounded : c.queue.length ≤ maxSize
  order : c.returned.map Prod.snd ++ c.queue = c.enqueued

variable {maxSize : ℕ} {c c' : Channel θ T} {t : θ}

theorem popFront_cases (h : c.popFront t = some c') :
    ∃ item rest, c.queue = item :: rest ∧
      c' = { c with queue := rest, returned := c.returned ++ [(t, item)] } := by
  rw [popFront] at h
  split at h
  · cases h
  · next item rest hq => exact ⟨item, rest, hq, (Option.some.inj h).symm⟩

theorem isSome_popFront (h : c.queue ≠ []) : (c.popFront t).isSome := by
  rw [popFront]
  split
  · next hq => exact absurd hq h
  · rfl

theorem Fifo.move (h : c.Fifo maxSize) (hmax : 1 ≤ maxSize) (hm : Move maxSize c c') :
    c'.Fifo maxSize := by
  cases hm with
  | push item hroom =>
    refine ⟨?_, ?_⟩
    · rw [pushBack, List.length_append, List.length_singleton]
      omega
    · rw [pushBack, ← List.append_assoc, h.order]
  | pop t hpop =>
    obtain ⟨item, rest, hq, rfl⟩ := popFront_cases hpop
    have hlen := h.bounded
    have horder := h.order
    rw [hq] at hlen horder
    refine ⟨Nat.le_of_succ_le hlen, ?_⟩
    rw [List.map_append, List.append_assoc]
    exact horder

theorem Fifo.moves (h : c.Fifo maxSize) (hmax : 1 ≤ maxSize)
    (hm : Relation.ReflTransGen (Move maxSize) c c') : c'.Fifo maxSize := by
  induction hm with
  | refl => exact h
  | tail _ hm ih => exact ih.move hmax hm

end Channel

/-! ### The monitor -/

/-- A call on the queue, with its argument. -/
inductive QueueCall (T : Type) where
  | enqueue (item : T)
  | dequeue
  | dequeueBatch (batchSize : ℕ)

/-- The queue, the calls that wait for the conditions, and those that have been woken and have not
got the mutex again. -/
structure BlockingQueue (θ T : Type) where
  channel : Channel θ T
  enqueueCondition : List (θ × QueueCall T)
  dequeueCondition : List (θ × QueueCall T)
  woken : List (θ × QueueCall T)

/-- What happens: a thread calls, a call that has been woken gets the mutex, a call wakes up for no
reason, or `unblockAll` is called.  The numbers choose the calls that notifications wake. -/
inductive QueueEvent (θ T : Type) where
  | call (t : θ) (c : QueueCall T) (choice : ℕ → ℕ)
  | reenter (i : ℕ) (choice : ℕ → ℕ)
  | spuriousEnqueue (choice : ℕ)
  | spuriousDequeue (choice : ℕ)
  | unblockAll

namespace BlockingQueue

/-- `notify_one`: one of the calls that wait is woken, if there is one. -/
def notifyOne {W : Type} (choice : ℕ) (condition woken : List W) : List W × List W :=
  match condition[choice % condition.length]? with
  | none => (condition, woken)
  | some w => (condition.eraseIdx (choice % condition.length), woken ++ [w])

/-- `enqueue_condition.notify_one()` -/
def notifyEnqueue (choice : ℕ) (s : BlockingQueue θ T) : BlockingQueue θ T :=
  let (condition, woken) := notifyOne choice s.enqueueCondition s.woken
  { s with enqueueCondition := condition, woken := woken }

/-- `dequeue_condition.notify_one()` -/
def notifyDequeue (choice : ℕ) (s : BlockingQueue θ T) : BlockingQueue θ T :=
  let (condition, woken) := notifyOne choice s.dequeueCondition s.woken
  { s with dequeueCondition := condition, woken := woken }

/-- `enqueue`, from the test of the loop on; the new size of the queue, or `none` where it waits. -/
def enqueue (maxSize : ℕ) (t : θ) (item : T) (choice : ℕ) (s : BlockingQueue θ T) :
    BlockingQueue θ T × Option ℕ :=
  if 0 < maxSize ∧ maxSize ≤ s.channel.queue.length then
    ({ s with enqueueCondition := s.enqueueCondition ++ [(t, .enqueue item)] }, none)
  else
    let s := notifyDequeue choice { s with channel := s.channel.pushBack item }
    (s, some s.channel.queue.length)

/-- An item is popped off the queue, and `enqueue` is notified. -/
def take (t : θ) (choice : ℕ) (s : BlockingQueue θ T) : Option (BlockingQueue θ T) := do
  let channel ← s.channel.popFront t
  some (notifyEnqueue choice { s with channel := channel })

/-- The loop of `dequeueBatch`, for a batch of that many more items. -/
def takeBatch (t : θ) (choice : ℕ → ℕ) : ℕ → BlockingQueue θ T → BlockingQueue θ T
  | 0, s => s
  | n + 1, s =>
    match s.take t (choice n) with
    | none => s
    | some s => takeBatch t choice n s

/-- `dequeue_condition.wait(lock)` -/
def wait (t : θ) (c : QueueCall T) (s : BlockingQueue θ T) : BlockingQueue θ T :=
  { s with dequeueCondition := s.dequeueCondition ++ [(t, c)] }

/-- What a call does when it has waited; `none` if it pops an empty queue. -/
def resume (maxSize : ℕ) (t : θ) (choice : ℕ → ℕ) (s : BlockingQueue θ T) :
    QueueCall T → Option (BlockingQueue θ T)
  | .enqueue item => some (s.enqueue maxSize t item (choice 0)).1
  | .dequeue => s.take t (choice 0)
  | .dequeueBatch batchSize => some (s.takeBatch t choice batchSize)

/-- What a call does first. -/
def call (maxSize : ℕ) (t : θ) (choice : ℕ → ℕ) (s : BlockingQueue θ T) :
    QueueCall T → Option (BlockingQueue θ T)
  | .enqueue item => some (s.enqueue maxSize t item (choice 0)).1
  | .dequeue => if s.channel.queue.isEmpty then some (s.wait t .dequeue) else s.take t (choice 0)
  | .dequeueBatch batchSize =>
    if s.channel.queue.isEmpty then some (s.wait t (.dequeueBatch batchSize))
    else some (s.takeBatch t choice batchSize)

def unblockAll (s : BlockingQueue θ T) : BlockingQueue θ T where
  channel := s.channel
  enqueueCondition := []
  dequeueCondition := []
  woken := s.woken ++ s.enqueueCondition ++ s.dequeueCondition

def step (maxSize : ℕ) (e : QueueEvent θ T) (s : BlockingQueue θ T) : Option (BlockingQueue θ T) :=
  match e with
  | .call t c choice => s.call maxSize t choice c
  | .reenter i choice => do
    let (t, c) ← s.woken[i]?
    resume maxSize t choice { s with woken := s.woken.eraseIdx i } c
  | .spuriousEnqueue choice => some (s.notifyEnqueue choice)
  | .spuriousDequeue choice => some (s.notifyDequeue choice)
  | .unblockAll => some s.unblockAll

/-- No calls yet. -/
def init : BlockingQueue θ T := ⟨⟨[], [], []⟩, [], [], []⟩

/-- The calls that have not returned. -/
def pending (s : BlockingQueue θ T) : List (θ × QueueCall T) :=
  s.enqueueCondition ++ s.dequeueCondition ++ s.woken

/-- A thread calls when its last call has returned, and what goes on has been woken. -/
def Enabled (s : BlockingQueue θ T) : QueueEvent θ T → Prop
  | .call t _ _ => ∀ w ∈ s.pending, w.1 ≠ t
  | .reenter i _ => i < s.woken.length
  | _ => True

/-- A `dequeue` that has waited goes on only while there is an item in the queue. -/
def FindsItem (s : BlockingQueue θ T) : QueueEvent θ T → Prop
  | .reenter i _ =>
    match s.woken[i]? with
    | some (_, .dequeue) => s.channel.queue ≠ []
    | _ => True
  | _ => True

instance [DecidableEq θ] (s : BlockingQueue θ T) : ∀ e, Decidable (s.Enabled e)
  | .call t _ _ => inferInstanceAs (Decidable (∀ w ∈ s.pending, w.1 ≠ t))
  | .reenter i _ => inferInstanceAs (Decidable (i < s.woken.length))
  | .spuriousEnqueue _ | .spuriousDequeue _ | .unblockAll => .isTrue trivial

instance (s : BlockingQueue θ T) : ∀ e, Decidable (s.FindsItem e)
  | .reenter i _ =>
    match h : s.woken[i]? with
    | some (_, .dequeue) => decidable_of_iff (s.channel.queue ≠ []) (by simp [FindsItem, h])
    | some (_, .enqueue _) | some (_, .dequeueBatch _) | none => .isTrue (by simp [FindsItem, h])
  | .call .. | .spuriousEnqueue _ | .spuriousDequeue _ | .unblockAll => .isTrue trivial

variable {maxSize : ℕ} {s s' : BlockingQueue θ T} {t : θ}

@[simp] theorem channel_notifyEnqueue (k : ℕ) : (s.notifyEnqueue k).channel = s.channel := rfl
@[simp] theorem channel_notifyDequeue (k : ℕ) : (s.notifyDequeue k).channel = s.channel := rfl

/-- Items come and go one by one. -/
def Moves (maxSize : ℕ) (s s' : BlockingQueue θ T) : Prop :=
  Relation.ReflTransGen (Channel.Move maxSize) s.channel s'.channel

theorem moves_enqueue (item : T) (k : ℕ) : Moves maxSize s (s.enqueue maxSize t item k).1 := by
  rw [enqueue]
  split_ifs with hfull
  · exact .refl
  · exact .single (.push item (by omega))

theorem moves_take {k : ℕ} (h : s.take t k = some s') : Moves maxSize s s' := by
  obtain ⟨c, hc, h⟩ := Option.bind_eq_some_iff.1 h
  obtain rfl := Option.some.inj h
  exact .single (.pop t hc)

theorem moves_takeBatch (choice : ℕ → ℕ) (n : ℕ) (s : BlockingQueue θ T) :
    Moves maxSize s (s.takeBatch t choice n) := by
  induction n generalizing s with
  | zero => exact .refl
  | succ n ih =>
    rw [takeBatch]
    split
    · exact .refl
    · next s' hs' => exact (moves_take hs').trans (ih s')

theorem moves_resume {choice : ℕ → ℕ} {c : QueueCall T}
    (h : s.resume maxSize t choice c = some s') : Moves maxSize s s' := by
  cases c with
  | enqueue item =>
    obtain rfl := Option.some.inj h
    exact moves_enqueue item _
  | dequeue => exact moves_take h
  | dequeueBatch n =>
    obtain rfl := Option.some.inj h
    exact moves_takeBatch choice n s

theorem moves_call {choice : ℕ → ℕ} {c : QueueCall T} (h : s.call maxSize t choice c = some s') :
    Moves maxSize s s' := by
  cases c with
  | enqueue item =>
    obtain rfl := Option.some.inj h
    exact moves_enqueue item _
  | dequeue =>
    rw [call] at h
    split_ifs at h
    · obtain rfl := Option.some.inj h
      exact .refl
    · exact moves_take h
  | dequeueBatch n =>
    rw [call] at h
    split_ifs at h
    · obtain rfl := Option.some.inj h
      exact .refl
    · obtain rfl := Option.some.inj h
      exact moves_takeBatch choice n s

/-- All that a step does to the items is that some come and some go. -/
theorem moves_of_step {e : QueueEvent θ T} (h : step maxSize e s = some s') :
    Moves maxSize s s' := by
  cases e with
  | call t c choice => exact moves_call h
  | reenter i choice =>
    obtain ⟨⟨t, c⟩, -, h⟩ := Option.bind_eq_some_iff.1 h
    exact moves_resume (s := { s with woken := s.woken.eraseIdx i }) h
  | spuriousEnqueue k | spuriousDequeue k | unblockAll =>
    obtain rfl := Option.some.inj h
    exact .refl

theorem isSome_take (h : s.channel.queue ≠ []) (k : ℕ) : (s.take t k).isSome := by
  obtain ⟨c, hc⟩ := Option.isSome_iff_exists.1 (Channel.isSome_popFront (t := t) h)
  rw [take, hc]
  rfl

/-- Nothing but a `dequeue` that has waited can pop an empty queue. -/
theorem isSome_step {e : QueueEvent θ T} (hen : s.Enabled e) (hitem : s.FindsItem e) :
    (step maxSize e s).isSome := by
  cases e with
  | call t c choice =>
    cases c with
    | enqueue item => rfl
    | dequeue =>
      rw [step, call]
      split_ifs with hempty
      · rfl
      · exact isSome_take (mt List.isEmpty_iff.2 hempty) _
    | dequeueBatch n =>
      rw [step, call]
      split_ifs <;> rfl
  | reenter i choice =>
    have hlt : i < s.woken.length := hen
    obtain ⟨⟨t, c⟩, hget⟩ : ∃ w, s.woken[i]? = some w :=
      ⟨s.woken[i], List.getElem?_eq_getElem hlt⟩
    rw [step, hget]
    cases c with
    | enqueue item | dequeueBatch n => rfl
    | dequeue =>
      rw [FindsItem, hget] at hitem
      exact isSome_take (s := { s with woken := s.woken.eraseIdx i }) hitem _
  | spuriousEnqueue k | spuriousDequeue k | unblockAll => rfl

/-- Whatever the schedule, the items are in order as long as no step fails. -/
theorem fifo_of_reach (hmax : 1 ≤ maxSize) {ok : BlockingQueue θ T → QueueEvent θ T → Prop}
    (h : Reach (step maxSize) ok init s) : s.channel.Fifo maxSize :=
  h.invariant (I := fun s => s.channel.Fifo maxSize) ⟨Nat.zero_le _, rfl⟩
    fun _ _ _ hs _ hstep => hs.moves hmax (moves_of_step hstep)

end BlockingQueue

/-- **The blocking queue is a bounded FIFO** in every schedule in which no `dequeue` that has waited
goes on while the queue is empty: the queue is never too long, the items returned are those enqueued
first, in order, and nothing is popped off an empty queue. -/
theorem blockingQueue_fifo {maxSize : ℕ} (hmax : 1 ≤ maxSize) {s : BlockingQueue θ T}
    (h : Reach (BlockingQueue.step maxSize) (fun s e => s.Enabled e ∧ s.FindsItem e) .init s) :
    s.channel.Fifo maxSize ∧
      ∀ e, s.Enabled e → s.FindsItem e → (BlockingQueue.step maxSize e s).isSome :=
  ⟨BlockingQueue.fifo_of_reach hmax h, fun _ => BlockingQueue.isSome_step⟩

/-- A consumer waits, a producer fills the queue and waits; both go on. -/
def handOver : List (QueueEvent ℕ ℕ) :=
  [.call 0 .dequeue id, .call 1 (.enqueue 5) id, .call 1 (.enqueue 6) id, .reenter 0 id,
    .reenter 0 id]

theorem blockingQueue_fifo_handOver :
    ∃ s : BlockingQueue ℕ ℕ, s.channel.returned = [(0, 5)] ∧ s.channel.queue = [6] ∧
      s.channel.Fifo 1 ∧
        ∀ e, s.Enabled e → s.FindsItem e → (BlockingQueue.step 1 e s).isSome := by
  refine ⟨_, ?_, ?_, blockingQueue_fifo (show 1 ≤ 1 by decide) (Reach.of_play_if
    (Option.some_get (show (play (fun e s =>
      if BlockingQueue.Enabled s e ∧ BlockingQueue.FindsItem s e then BlockingQueue.step 1 e s
      else none) handOver BlockingQueue.init).isSome by decide)).symm)⟩ <;> decide

/-- The consumer 0 waits, the producer 2 enqueues an item, and the consumer 1 takes it before the
consumer 0 gets the mutex. -/
def overtaken : List (QueueEvent ℕ ℕ) :=
  [.call 0 .dequeue id, .call 2 (.enqueue 5) id, .call 1 .dequeue id]

theorem not_blockingQueue_fifo :
    ¬∀ s : BlockingQueue ℕ ℕ, Reach (BlockingQueue.step 1) BlockingQueue.Enabled .init s →
      s.channel.Fifo 1 ∧ ∀ e, s.Enabled e → (BlockingQueue.step 1 e s).isSome := by
  intro h
  have hreach := Reach.of_play_if (Option.some_get (show (play (fun e s =>
    if BlockingQueue.Enabled s e then BlockingQueue.step 1 e s else none) overtaken
      BlockingQueue.init).isSome by decide)).symm
  exact absurd ((h _ hreach).2 (.reenter 0 id) (by decide)) (by decide)

/-! ### One consumer -/

/-- `dequeue` and `dequeueBatch` take items off the queue. -/
def QueueCall.consumes : QueueCall T → Bool
  | .enqueue _ => false
  | .dequeue | .dequeueBatch _ => true

namespace BlockingQueue

/-- Only the thread `t` consumes, and only notifications wake it. -/
def OneConsumer (t : θ) : QueueEvent θ T → Prop
  | .call t' c _ => c.consumes = true → t' = t
  | .reenter .. | .spuriousEnqueue _ => True
  | .spuriousDequeue _ | .unblockAll => False

/-- How many of some calls take items off the queue. -/
def consumers (l : List (θ × QueueCall T)) : ℕ := l.countP (·.2.consumes)

/-- At most one call of a consumer is pending; if it has been woken, there is an item for it. -/
structure OneWaits (t : θ) (s : BlockingQueue θ T) : Prop where
  producer : ∀ w ∈ s.enqueueCondition, w.2.consumes = false
  consumer : ∀ w ∈ s.dequeueCondition, w.1 = t ∧ w.2.consumes = true
  woken : ∀ w ∈ s.woken, w.2.consumes = true → w.1 = t
  one : s.dequeueCondition.length + consumers s.woken ≤ 1
  item : consumers s.woken ≠ 0 → s.channel.queue ≠ []

variable {s s' : BlockingQueue θ T} {t t' : θ} {maxSize : ℕ}

theorem notifyOne_cases {W : Type} (k : ℕ) (condition woken : List W) :
    (condition = [] ∧ notifyOne k condition woken = (condition, woken)) ∨
      ∃ w rest, (w :: rest).Perm condition ∧
        notifyOne k condition woken = (rest, woken ++ [w]) := by
  rcases List.eq_nil_or_concat condition with rfl | ⟨l, w, rfl⟩
  · exact .inl ⟨rfl, rfl⟩
  · have hlt : k % (l.concat w).length < (l.concat w).length :=
      Nat.mod_lt _ (by rw [List.length_concat]; exact Nat.succ_pos _)
    refine .inr ⟨(l.concat w)[k % (l.concat w).length], _,
      List.getElem_cons_eraseIdx_perm hlt, ?_⟩
    rw [notifyOne, List.getElem?_eq_getElem hlt]

theorem consumers_append (l l' : List (θ × QueueCall T)) :
    consumers (l ++ l') = consumers l + consumers l' := List.countP_append

theorem consumers_of_false {l : List (θ × QueueCall T)} (h : ∀ w ∈ l, w.2.consumes = false) :
    consumers l = 0 :=
  List.countP_eq_zero.2 fun w hw => by rw [h w hw]; exact Bool.false_ne_true

/-- A producer is woken. -/
theorem OneWaits.notifyEnqueue (h : s.OneWaits t) (k : ℕ) :
    (s.notifyEnqueue k).OneWaits t ∧ consumers (s.notifyEnqueue k).woken = consumers s.woken := by
  rcases notifyOne_cases k s.enqueueCondition s.woken with ⟨-, heq⟩ | ⟨w, rest, hperm, heq⟩
  · rw [BlockingQueue.notifyEnqueue, heq]
    exact ⟨h, rfl⟩
  · have hw : w.2.consumes = false := h.producer w (hperm.mem_iff.1 List.mem_cons_self)
    have hcount : consumers (s.woken ++ [w]) = consumers s.woken := by
      rw [consumers_append, consumers_of_false (l := [w]) (by simpa using hw), Nat.add_zero]
    rw [BlockingQueue.notifyEnqueue, heq]
    refine ⟨⟨fun v hv => h.producer v (hperm.mem_iff.1 (List.mem_cons_of_mem _ hv)), h.consumer,
      ?_, ?_, ?_⟩, hcount⟩
    · intro v hv hc
      rcases List.mem_append.1 hv with hv | hv
      · exact h.woken v hv hc
      · obtain rfl := List.mem_singleton.1 hv
        cases hw.symm.trans hc
    · exact hcount.symm ▸ h.one
    · exact fun hne => h.item (hcount ▸ hne)

/-- The consumer is woken when there is an item for it. -/
theorem OneWaits.notifyDequeue (h : s.OneWaits t) (hq : s.channel.queue ≠ []) (k : ℕ) :
    (s.notifyDequeue k).OneWaits t := by
  rcases notifyOne_cases k s.dequeueCondition s.woken with ⟨-, heq⟩ | ⟨w, rest, hperm, heq⟩
  · rw [BlockingQueue.notifyDequeue, heq]
    exact h
  · have hw := h.consumer w (hperm.mem_iff.1 List.mem_cons_self)
    rw [BlockingQueue.notifyDequeue, heq]
    refine ⟨h.producer, fun v hv => h.consumer v (hperm.mem_iff.1 (List.mem_cons_of_mem _ hv)),
      ?_, ?_, fun _ => hq⟩
    · intro v hv hc
      rcases List.mem_append.1 hv with hv | hv
      · exact h.woken v hv hc
      · obtain rfl := List.mem_singleton.1 hv
        exact hw.1
    · have hone := h.one
      have hlen := hperm.length_eq
      have hsingle : consumers [w] = 1 := List.countP_singleton.trans (if_pos hw.2)
      have hsum := consumers_append s.woken [w]
      rw [List.length_cons] at hlen
      change rest.length + consumers (s.woken ++ [w]) ≤ 1
      omega

theorem OneWaits.enqueue (h : s.OneWaits t) (t' : θ) (item : T) (k : ℕ) :
    (s.enqueue maxSize t' item k).1.OneWaits t := by
  rw [BlockingQueue.enqueue]
  split_ifs
  · refine ⟨fun w hw => ?_, h.consumer, h.woken, h.one, h.item⟩
    rcases List.mem_append.1 hw with hw | hw
    · exact h.producer w hw
    · obtain rfl := List.mem_singleton.1 hw
      rfl
  · have hne : (s.channel.pushBack item).queue ≠ [] :=
      List.append_ne_nil_of_right_ne_nil _ (List.cons_ne_nil _ _)
    have hpush : OneWaits t { s with channel := s.channel.pushBack item } :=
      ⟨h.producer, h.consumer, h.woken, h.one, fun _ => hne⟩
    exact hpush.notifyDequeue hne k

/-- The consumer takes an item while no other call consumes. -/
theorem OneWaits.take (h : s.OneWaits t) (hw : consumers s.woken = 0) {k : ℕ}
    (htake : s.take t' k = some s') : s'.OneWaits t ∧ consumers s'.woken = 0 := by
  obtain ⟨c, hc, htake⟩ := Option.bind_eq_some_iff.1 htake
  obtain rfl := Option.some.inj htake
  have hpop : OneWaits t { s with channel := c } :=
    ⟨h.producer, h.consumer, h.woken, h.one, fun hne => absurd hw hne⟩
  exact ⟨(hpop.notifyEnqueue k).1, (hpop.notifyEnqueue k).2.trans hw⟩

theorem OneWaits.takeBatch (h : s.OneWaits t) (hw : consumers s.woken = 0) (choice : ℕ → ℕ)
    (n : ℕ) : (s.takeBatch t' choice n).OneWaits t := by
  induction n generalizing s with
  | zero => exact h
  | succ n ih =>
    rw [BlockingQueue.takeBatch]
    split
    · exact h
    · next s' hs' => exact ih (h.take hw hs').1 (h.take hw hs').2

/-- A thread that calls has no call pending, so no other call consumes. -/
theorem OneWaits.idle (h : s.OneWaits t) (hidle : ∀ w ∈ s.pending, w.1 ≠ t) :
    s.dequeueCondition = [] ∧ consumers s.woken = 0 := by
  refine ⟨List.eq_nil_iff_forall_not_mem.2 fun w hw => ?_,
    consumers_of_false fun w hw => Bool.eq_false_iff.2 fun hc => ?_⟩
  · exact hidle w (List.mem_append_left _ (List.mem_append_right _ hw)) (h.consumer w hw).1
  · exact hidle w (List.mem_append_right _ hw) (h.woken w hw hc)

theorem OneWaits.wait (h : s.OneWaits t) (hidle : ∀ w ∈ s.pending, w.1 ≠ t) {c : QueueCall T}
    (hc : c.consumes = true) : (s.wait t c).OneWaits t := by
  obtain ⟨hnil, hnone⟩ := h.idle hidle
  refine ⟨h.producer, fun w hw => ?_, h.woken, ?_, h.item⟩
  · rw [BlockingQueue.wait, hnil] at hw
    obtain rfl := List.mem_singleton.1 hw
    exact ⟨rfl, hc⟩
  · rw [BlockingQueue.wait, hnil, hnone]
    exact Nat.le_refl 1

/-- A call goes on; if it consumes, no other call does. -/
theorem OneWaits.erase (h : s.OneWaits t) {i : ℕ} {w : θ × QueueCall T}
    (hget : s.woken[i]? = some w) :
    OneWaits t { s with woken := s.woken.eraseIdx i } ∧
      (w.2.consumes = true → consumers (s.woken.eraseIdx i) = 0) := by
  obtain ⟨hlt, rfl⟩ := List.getElem?_eq_some_iff.1 hget
  have hperm := List.getElem_cons_eraseIdx_perm hlt
  have hcount : consumers s.woken =
      consumers [s.woken[i]] + consumers (s.woken.eraseIdx i) := by
    rw [← consumers_append]
    exact (hperm.countP_eq _).symm
  have hone := h.one
  refine ⟨⟨h.producer, h.consumer,
    fun v hv => h.woken v (hperm.mem_iff.1 (List.mem_cons_of_mem _ hv)), ?_,
    fun hne => h.item ?_⟩, fun hc => ?_⟩
  · change s.dequeueCondition.length + consumers (s.woken.eraseIdx i) ≤ 1
    omega
  · change consumers (s.woken.eraseIdx i) ≠ 0 at hne
    omega
  · have hsingle : consumers [s.woken[i]] = 1 := List.countP_singleton.trans (if_pos hc)
    omega

theorem OneWaits.step (h : s.OneWaits t) {e : QueueEvent θ T} (hen : s.Enabled e)
    (hone : OneConsumer t e) (hs : BlockingQueue.step maxSize e s = some s') :
    s'.OneWaits t := by
  cases e with
  | call t' c choice =>
    cases c with
    | enqueue item =>
      obtain rfl := Option.some.inj hs
      exact h.enqueue t' item _
    | dequeue =>
      obtain rfl : t' = t := hone rfl
      rw [BlockingQueue.step, call] at hs
      split_ifs at hs
      · obtain rfl := Option.some.inj hs
        exact h.wait hen rfl
      · exact (h.take (h.idle hen).2 hs).1
    | dequeueBatch n =>
      obtain rfl : t' = t := hone rfl
      rw [BlockingQueue.step, call] at hs
      split_ifs at hs
      · obtain rfl := Option.some.inj hs
        exact h.wait hen rfl
      · obtain rfl := Option.some.inj hs
        exact h.takeBatch (h.idle hen).2 choice n
  | reenter i choice =>
    obtain ⟨⟨t', c⟩, hget, hs⟩ := Option.bind_eq_some_iff.1 hs
    obtain ⟨h₁, hnone⟩ := h.erase hget
    cases c with
    | enqueue item =>
      obtain rfl := Option.some.inj hs
      exact h₁.enqueue t' item _
    | dequeue => exact (h₁.take (hnone rfl) hs).1
    | dequeueBatch n =>
      obtain rfl := Option.some.inj hs
      exact h₁.takeBatch (hnone rfl) choice n
  | spuriousEnqueue k =>
    obtain rfl := Option.some.inj hs
    exact (h.notifyEnqueue k).1
  | spuriousDequeue k | unblockAll => exact hone.elim

theorem OneWaits.findsItem (h : s.OneWaits t) (e : QueueEvent θ T) : s.FindsItem e := by
  cases e with
  | reenter i choice =>
    rw [FindsItem]
    split
    · next t' hget =>
      obtain ⟨hlt, hw⟩ := List.getElem?_eq_some_iff.1 hget
      have hmem : (t', .dequeue) ∈ s.woken := hw ▸ List.getElem_mem hlt
      exact h.item (Nat.pos_iff_ne_zero.1 (List.countP_pos_iff.2 ⟨_, hmem, rfl⟩))
    · trivial
  | call t c choice | spuriousEnqueue k | spuriousDequeue k | unblockAll => trivial

end BlockingQueue

/-- The queues of the streaming server have one consumer each.  If only notifications wake it, every
`dequeue` that goes on finds an item. -/
theorem one_consumer_fifo {maxSize : ℕ} (hmax : 1 ≤ maxSize) {t : θ} {s : BlockingQueue θ T}
    (h : Reach (BlockingQueue.step maxSize)
      (fun s e => s.Enabled e ∧ BlockingQueue.OneConsumer t e) .init s) :
    s.channel.Fifo maxSize ∧ ∀ e, s.Enabled e → (BlockingQueue.step maxSize e s).isSome := by
  have hwaits : s.OneWaits t := h.invariant
    (I := fun s => s.OneWaits t)
    ⟨nofun, nofun, nofun, Nat.zero_le _, fun h => absurd rfl h⟩
    fun _ _ _ hs hok hstep => hs.step hok.1 hok.2 hstep
  exact ⟨BlockingQueue.fifo_of_reach hmax h,
    fun e hen => BlockingQueue.isSome_step hen (hwaits.findsItem e)⟩

end MegaTree
