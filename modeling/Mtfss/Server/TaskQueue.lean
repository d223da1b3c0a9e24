import Mathlib.Algebra.Order.BigOperators.Group.Finset
import Mathlib.Algebra.BigOperators.Group.Multiset.Basic
import Mathlib.Data.Multiset.AddSub
import Mathlib.Logic.Relation
import Mathlib.Tactic.Common

/-! `TaskQueue`, its two condition variables, and the workers of `ThreadPool`. -/

namespace Mtfss

/-- With `max_size` zero there is no bound. -/
structure TaskQueue (α : Type) where
  max_size : ℕ
  queue : List α
  shutdown : Bool

namespace TaskQueue

variable {α : Type}

def new (max_size : ℕ) : TaskQueue α := ⟨max_size, [], false⟩

/-- What `push` waits for on `not_full_`. -/
def mayPush (q : TaskQueue α) : Bool :=
  q.shutdown || q.max_size == 0 || decide (q.queue.length < q.max_size)

/-- What `pop` waits for on `not_empty_`. -/
def mayPop (q : TaskQueue α) : Bool := q.shutdown || !q.queue.isEmpty

/-- `push` after its wait, `none` when it returns false. -/
def push (q : TaskQueue α) (task : α) : Option (TaskQueue α) :=
  if q.shutdown then none else some { q with queue := q.queue ++ [task] }

/-- `pop` after its wait, `none` when it returns false. -/
def pop (q : TaskQueue α) : Option (α × TaskQueue α) :=
  if q.shutdown && q.queue.isEmpty then none
  else q.queue.head?.map (fun task => (task, { q with queue := q.queue.tail }))

def close (q : TaskQueue α) : TaskQueue α := { q with shutdown := true }

lemma push_eq_some {q q' : TaskQueue α} {task : α} :
    q.push task = some q' ↔ q.shutdown = false ∧ q' = { q with queue := q.queue ++ [task] } := by
  cases hs : q.shutdown with
  | true => simp [push, hs]
  | false =>
    simp only [push, hs, Bool.false_eq_true, if_false, Option.some.injEq, true_and]
    exact eq_comm

lemma pop_eq_some {q q' : TaskQueue α} {task : α} :
    q.pop = some (task, q') ↔ ∃ rest, q.queue = task :: rest ∧ q' = { q with queue := rest } := by
  obtain ⟨max_size, queue, shutdown⟩ := q
  cases queue with
  | nil => simp [pop]
  | cons task' rest =>
    simp only [pop, List.isEmpty_cons, Bool.and_false, Bool.false_eq_true, if_false,
      List.head?_cons,
      List.tail_cons, Option.map_some, Option.some.injEq, Prod.mk.injEq, List.cons.injEq]
    constructor
    · rintro ⟨rfl, rfl⟩
      exact ⟨rest, ⟨rfl, rfl⟩, rfl⟩
    · rintro ⟨_, ⟨rfl, rfl⟩, rfl⟩
      exact ⟨rfl, rfl⟩

lemma pop_eq_none {q : TaskQueue α} (h : q.mayPop = true) (hq : q.pop = none) :
    q.shutdown = true ∧ q.queue = [] := by
  obtain ⟨max_size, queue, shutdown⟩ := q
  cases queue <;> simp_all [pop, mayPop]

end TaskQueue

namespace Pool

/-- A call of `push`. -/
inductive Pusher (α : Type)
  | idle
  /-- before it has `mutex_` -/
  | entering (task : α)
  /-- at the predicate of the wait, with `mutex_` -/
  | testing (task : α)
  | asleep (task : α)
  | woken (task : α)
  /-- past the wait, with `mutex_` -/
  | passed (task : α)
  /-- before `not_empty_.notify_one()` -/
  | notifying
  | returned (accepted : Bool)
  | threw

/-- A worker in `worker_loop`. -/
inductive Worker (α : Type)
  | entering
  | testing
  | asleep
  | woken
  | passed
  /-- before `not_full_.notify_one()` -/
  | notifying (task : α)
  | running (task : α)
  /-- `pop` has returned false -/
  | left

/-- A call of `ThreadPool::shutdown`, or one of `TaskQueue::shutdown` alone. -/
inductive Closer
  | idle
  /-- before the `compare_exchange_strong` on `stopped_` -/
  | enter
  /-- in `TaskQueue::shutdown`, before it has `mutex_` -/
  | closing (pool : Bool)
  /-- with `mutex_` -/
  | setting (pool : Bool)
  | notifyEmpty (pool : Bool)
  | notifyFull (pool : Bool)
  /-- in the join loop, at worker `i` -/
  | joining (i : ℕ)
  | returned (joins : Bool)

inductive Thread
  | pusher (p : ℕ)
  | worker (i : ℕ)
  | closer (t : ℕ)
  deriving DecidableEq

/-- The threads and what they share. `accepted` are the tasks that `push` has accepted, `handed`
those that `pop` has handed out, `ran` those that have returned or thrown, each in their order. -/
structure State (α : Type) where
  queue : TaskQueue α
  owner : Option Thread
  stopped : Bool
  joined : ℕ → Bool
  pusher : ℕ → Pusher α
  worker : ℕ → Worker α
  closer : ℕ → Closer
  accepted : List α
  handed : List α
  ran : List α

namespace State

variable {α : Type}

def initial (max_size : ℕ) : State α where
  queue := .new max_size
  owner := none
  stopped := false
  joined _ := false
  pusher _ := .idle
  worker _ := .entering
  closer _ := .idle
  accepted := []
  handed := []
  ran := []

def setPusher (s : State α) (p : ℕ) (x : Pusher α) : State α :=
  { s with pusher := Function.update s.pusher p x }

def setWorker (s : State α) (i : ℕ) (x : Worker α) : State α :=
  { s with worker := Function.update s.worker i x }

def setCloser (s : State α) (t : ℕ) (x : Closer) : State α :=
  { s with closer := Function.update s.closer t x }

end State

def Pusher.wake {α : Type} : Pusher α → Pusher α
  | .asleep task => .woken task
  | x => x

def Worker.wake {α : Type} : Worker α → Worker α
  | .asleep => .woken
  | x => x

variable {α : Type}

/-- The steps of calls of `push`. -/
inductive PushStep (n : ℕ) (s : State α) (p : ℕ) : State α → Prop
  | call (task : α) : s.pusher p = .idle → PushStep n s p (s.setPusher p (.entering task))
  | lock {task : α} : s.pusher p = .entering task ∨ s.pusher p = .woken task → s.owner = none →
      PushStep n s p { s.setPusher p (.testing task) with owner := some (.pusher p) }
  | sleep {task : α} : s.pusher p = .testing task → s.queue.mayPush = false →
      PushStep n s p { s.setPusher p (.asleep task) with owner := none }
  | wake {task : α} : s.pusher p = .asleep task → PushStep n s p (s.setPusher p (.woken task))
  | pass {task : α} : s.pusher p = .testing task → s.queue.mayPush = true →
      PushStep n s p (s.setPusher p (.passed task))
  | refuse {task : α} : s.pusher p = .passed task → s.queue.push task = none →
      PushStep n s p { s.setPusher p (.returned false) with owner := none }
  | accept {task : α} {q : TaskQueue α} : s.pusher p = .passed task → s.queue.push task = some q →
      PushStep n s p { s.setPusher p .notifying with
        owner := none, queue := q, accepted := s.accepted ++ [task] }
  /-- the queue cannot grow -/
  | throw {task : α} : s.pusher p = .passed task →
      PushStep n s p { s.setPusher p .threw with owner := none }
  | notify {i : ℕ} : s.pusher p = .notifying → i < n → s.worker i = .asleep →
      PushStep n s p ((s.setPusher p (.returned true)).setWorker i .woken)
  | notifyNobody : s.pusher p = .notifying → (∀ i < n, s.worker i ≠ .asleep) →
      PushStep n s p (s.setPusher p (.returned true))

/-- The steps of worker `i`. -/
inductive WorkStep (s : State α) (i : ℕ) : State α → Prop
  | lock : s.worker i = .entering ∨ s.worker i = .woken → s.owner = none →
      WorkStep s i { s.setWorker i .testing with owner := some (.worker i) }
  | sleep : s.worker i = .testing → s.queue.mayPop = false →
      WorkStep s i { s.setWorker i .asleep with owner := none }
  | wake : s.worker i = .asleep → WorkStep s i (s.setWorker i .woken)
  | pass : s.worker i = .testing → s.queue.mayPop = true → WorkStep s i (s.setWorker i .passed)
  | leave : s.worker i = .passed → s.queue.pop = none →
      WorkStep s i { s.setWorker i .left with owner := none }
  | take {task : α} {q : TaskQueue α} : s.worker i = .passed → s.queue.pop = some (task, q) →
      WorkStep s i { s.setWorker i (.notifying task) with
        owner := none, queue := q, handed := s.handed ++ [task] }
  | notify {task task' : α} {p : ℕ} : s.worker i = .notifying task → s.pusher p = .asleep task' →
      WorkStep s i ((s.setWorker i (.running task)).setPusher p (.woken task'))
  | notifyNobody {task : α} : s.worker i = .notifying task →
      (∀ p task', s.pusher p ≠ .asleep task') → WorkStep s i (s.setWorker i (.running task))
  /-- the task returns, or throws and is caught -/
  | finish {task : α} : s.worker i = .running task →
      WorkStep s i { s.setWorker i .entering with ran := s.ran ++ [task] }

/-- The steps of calls of `shutdown`. -/
inductive CloseStep (n : ℕ) (s : State α) (t : ℕ) : State α → Prop
  | callPool : s.closer t = .idle → CloseStep n s t (s.setCloser t .enter)
  | callQueue : s.closer t = .idle → CloseStep n s t (s.setCloser t (.closing false))
  | first : s.closer t = .enter → s.stopped = false →
      CloseStep n s t { s.setCloser t (.closing true) with stopped := true }
  | late : s.closer t = .enter → s.stopped = true →
      CloseStep n s t (s.setCloser t (.returned false))
  | lock {pool : Bool} : s.closer t = .closing pool → s.owner = none →
      CloseStep n s t { s.setCloser t (.setting pool) with owner := some (.closer t) }
  | close {pool : Bool} : s.closer t = .setting pool →
      CloseStep n s t { s.setCloser t (.notifyEmpty pool) with
        owner := none, queue := s.queue.close }
  | notifyEmpty {pool : Bool} : s.closer t = .notifyEmpty pool →
      CloseStep n s t { s.setCloser t (.notifyFull pool) with worker := fun i => (s.worker i).wake }
  | notifyFull {pool : Bool} : s.closer t = .notifyFull pool →
      CloseStep n s t { s.setCloser t (if pool then .joining 0 else .returned false) with
        pusher := fun p => (s.pusher p).wake }
  | joined {i : ℕ} : s.closer t = .joining i → i < n → s.joined i = true →
      CloseStep n s t (s.setCloser t (.joining (i + 1)))
  /-- the join waits until the worker has left its loop -/
  | join {i : ℕ} : s.closer t = .joining i → i < n → s.joined i = false → s.worker i = .left →
      CloseStep n s t { s.setCloser t (.joining (i + 1)) with
        joined := Function.update s.joined i true }
  | done {i : ℕ} : s.closer t = .joining i → n ≤ i →
      CloseStep n s t (s.setCloser t (.returned true))

/-- The steps of a pool with `n` workers. -/
inductive Step (n : ℕ) (s s' : State α) : Prop
  | push (p : ℕ) : PushStep n s p s' → Step n s s'
  | work (i : ℕ) : i < n → WorkStep s i s' → Step n s s'
  | close (t : ℕ) : CloseStep n s t s' → Step n s s'

abbrev Run (n : ℕ) : State α → State α → Prop := Relation.ReflTransGen (Step n)

end Pool

end Mtfss
