import Mathlib.Logic.Function.Basic
import Mathlib.Logic.Relation
import Mathlib.Tactic.Common

/-! `main`, the Ctrl+C handler and the thread pool, from the start of the server to the end of its
destructors. -/

namespace Mtfss.Shutdown

/-- A worker in `worker_loop`: in `pop`, in a task, or past the loop. -/
inductive Worker
  | waiting
  | working
  | left
  deriving DecidableEq

/-- A call of `ThreadPool::shutdown`. -/
inductive PoolCall
  /-- before the `compare_exchange_strong` on `stopped_` -/
  | enter
  /-- before `queue_.shutdown()` -/
  | closing
  /-- in the join loop, at worker `i` -/
  | joining (i : ℕ)
  | returning
  deriving DecidableEq

/-- A call of `Server::stop`. -/
inductive StopCall
  | idle
  /-- before the `compare_exchange_strong` on `running_` -/
  | enter
  /-- before `closesocket(listen_socket_)` -/
  | socket
  | pool (call : PoolCall)
  | returned
  deriving DecidableEq

inductive Main
  /-- before `running_ = true` in `start()` -/
  | starting
  /-- at the test of `while (running_)` -/
  | testing
  | accepting
  | pushing
  /-- after `start()` has returned, before `g_server = nullptr` -/
  | started
  /-- in `~Server`, which calls `stop()` -/
  | server (call : StopCall)
  /-- in `~ThreadPool`, which calls `shutdown()` -/
  | pool (call : PoolCall)
  /-- the pool has been destroyed -/
  | gone
  /-- `std::terminate`: a worker was destroyed that had not been joined -/
  | terminated
  deriving DecidableEq

/-- What the threads share. `queued` is the number of tasks in the queue, `queueShut` its
`shutdown_`. -/
structure Shared where
  running : Bool
  socketOpen : Bool
  stopped : Bool
  queued : ℕ
  queueShut : Bool
  worker : ℕ → Worker
  joined : ℕ → Bool
  /-- `g_server` is set -/
  published : Bool

/-- One handler thread runs for each Ctrl+C. -/
structure State where
  shared : Shared
  main : Main
  handler : ℕ → StopCall

def Shared.initial : Shared where
  running := false
  socketOpen := true
  stopped := false
  queued := 0
  queueShut := false
  worker _ := .waiting
  joined _ := false
  published := true

def State.initial : State := ⟨.initial, .starting, fun _ => .idle⟩

/-- `ThreadPool::shutdown` with `n` workers. A join waits until the worker has left its loop. -/
def shutdown (n : ℕ) : PoolCall → Shared → Option (PoolCall × Shared)
  | .enter, s =>
    if s.stopped then some (.returning, s) else some (.closing, { s with stopped := true })
  | .closing, s => some (.joining 0, { s with queueShut := true })
  | .joining i, s =>
    if i < n then
      if s.joined i then some (.joining (i + 1), s)
      else if s.worker i = .left then
        some (.joining (i + 1), { s with joined := Function.update s.joined i true })
      else none
    else some (.returning, s)
  | .returning, _ => none

/-- `Server::stop` -/
def stop (n : ℕ) : StopCall → Shared → Option (StopCall × Shared)
  | .idle, _ => none
  | .enter, s =>
    if s.running then some (.socket, { s with running := false }) else some (.returned, s)
  | .socket, s => some (.pool .enter, { s with socketOpen := false })
  | .pool .returning, s => some (.returned, s)
  | .pool call, s => (shutdown n call s).map (fun (call', s') => (.pool call', s'))
  | .returned, _ => none

inductive Label
  /-- the next step of `main` -/
  | main
  /-- `accept` gives no connection -/
  | acceptFails
  /-- an exception leaves `start()`, or comes before it -/
  | unwinds
  /-- Ctrl+C -/
  | signal (h : ℕ)
  | handler (h : ℕ)
  | take (i : ℕ)
  | finish (i : ℕ)
  | leave (i : ℕ)
  deriving DecidableEq

/-- The bound of `task_queue_` -/
def maxQueued : ℕ := 64

def mainStep (n : ℕ) (s : Shared) : Main → Option (Main × Shared)
  | .starting => some (.testing, { s with running := true })
  | .testing => some (if s.running then .accepting else .started, s)
  | .accepting => if s.socketOpen then some (.pushing, s) else none
  | .pushing =>
    if s.queueShut then some (.testing, s)
    else if s.queued < maxQueued then some (.testing, { s with queued := s.queued + 1 })
    else none
  | .started => some (.server .enter, { s with published := false })
  | .server .returned => some (.pool .enter, s)
  | .server call => (stop n call s).map (fun (call', s') => (.server call', s'))
  | .pool .returning => some (if ∀ i < n, s.joined i = true then .gone else .terminated, s)
  | .pool call => (shutdown n call s).map (fun (call', s') => (.pool call', s'))
  | .gone | .terminated => none

def inStart : Main → Bool
  | .starting | .testing | .accepting | .pushing => true
  | _ => false

def threadStep (n : ℕ) (s : State) : Label → Option State
  | .main => (mainStep n s.shared s.main).map (fun (m, sh) => { s with shared := sh, main := m })
  | .acceptFails => if s.main = .accepting then some { s with main := .testing } else none
  | .unwinds => if inStart s.main then some { s with main := .server .enter } else none
  | .signal h =>
    if s.handler h = .idle ∧ s.shared.published then
      some { s with handler := Function.update s.handler h .enter }
    else none
  | .handler h =>
    (stop n (s.handler h) s.shared).map (fun (call, sh) =>
      { s with shared := sh, handler := Function.update s.handler h call })
  | .take i =>
    if i < n ∧ s.shared.worker i = .waiting ∧ 0 < s.shared.queued then
      some { s with shared := { s.shared with
        queued := s.shared.queued - 1
        worker := Function.update s.shared.worker i .working } }
    else none
  | .finish i =>
    if s.shared.worker i = .working then
      some { s with shared := { s.shared with
        worker := Function.update s.shared.worker i .waiting } }
    else none
  | .leave i =>
    if i < n ∧ s.shared.worker i = .waiting ∧ s.shared.queued = 0 ∧ s.shared.queueShut then
      some { s with shared := { s.shared with
        worker := Function.update s.shared.worker i .left } }
    else none

/-- A step of any thread, while the program runs. -/
def step (n : ℕ) (s : State) (label : Label) : Option State :=
  if s.main = .terminated then none else threadStep n s label

end Mtfss.Shutdown
