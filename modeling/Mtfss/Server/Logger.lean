import Mathlib.Logic.Relation
import Mtfss.System.Paths

/-! `Logger`: the calls of `log`, the worker thread in `process_queue`, and `~Logger`. -/

namespace Mtfss.Logger

inductive LogLevel
  | INFO
  | WARN
  | ERR
  | DEBUG
  deriving DecidableEq

def LogLevel.str : LogLevel → Bytes
  | .INFO => bytes "INFO "
  | .WARN => bytes "WARN "
  | .ERR => bytes "ERROR"
  | .DEBUG => bytes "DEBUG"

structure LogMessage where
  level : LogLevel
  file : Bytes
  line : ℤ
  message : Bytes
  timestamp : Bytes
  deriving DecidableEq

inductive Stream
  | cout
  | cerr
  deriving DecidableEq

def integer (n : ℤ) : Bytes := if n < 0 then bytes "-" ++ decimal n.natAbs else decimal n.natAbs

/-- What `process_queue` writes for a message, and where. -/
def LogMessage.output (msg : LogMessage) : Stream × Bytes :=
  (if msg.level = .ERR then .cerr else .cout,
    bytes "[" ++ msg.timestamp ++ bytes "] [" ++ msg.level.str ++ bytes "] [" ++
      msg.file ++ bytes ":" ++ integer msg.line ++ bytes "] " ++ msg.message ++ bytes "\n")

/-- A call of `log`. -/
inductive Caller
  | idle
  /-- before it has `mutex_` -/
  | entering (msg : LogMessage)
  /-- with `mutex_` -/
  | inside (msg : LogMessage)
  /-- before `cv_.notify_one()` -/
  | notifying (msg : LogMessage)
  | returned (msg : LogMessage)
  | threw

/-- The worker thread in `process_queue`. -/
inductive Worker
  /-- before the loop condition reads `running_` -/
  | heading
  /-- `running_` was false, before the loop condition reads the queue -/
  | draining
  /-- before it has `mutex_` -/
  | entering
  /-- at the predicate of the wait, with `mutex_` -/
  | testing
  /-- the predicate was false, before `mutex_` is released -/
  | tested
  | asleep
  | woken
  /-- past the wait, with `mutex_` -/
  | passed
  | writing (msg : LogMessage)
  | returned

inductive Destructor
  | notBegun
  /-- before `running_ = false` -/
  | setting
  /-- before `cv_.notify_all()` -/
  | notifying
  | joining
  | ended
  deriving DecidableEq

inductive Thread
  | caller (c : ℕ)
  | worker
  deriving DecidableEq

/-- `entered` are the messages that have been pushed, `output` what has been written, each in its
order. -/
structure State where
  running : Bool
  queue : List LogMessage
  owner : Option Thread
  caller : ℕ → Caller
  worker : Worker
  destructor : Destructor
  entered : List LogMessage
  output : List (Stream × Bytes)

def State.initial : State where
  running := true
  queue := []
  owner := none
  caller _ := .idle
  worker := .heading
  destructor := .notBegun
  entered := []
  output := []

def State.setCaller (s : State) (c : ℕ) (x : Caller) : State :=
  { s with caller := Function.update s.caller c x }

/-- What the worker waits for on `cv_`. -/
def State.mayGo (s : State) : Bool := !s.queue.isEmpty || !s.running

def Worker.wake : Worker → Worker
  | .asleep => .woken
  | x => x

/-- The steps of calls of `log`. -/
inductive CallStep (s : State) (c : ℕ) : State → Prop
  | call (level : LogLevel) (file : Bytes) (line : ℤ) (message timestamp : Bytes) :
      s.caller c = .idle →
      CallStep s c (s.setCaller c
        (.entering ⟨level, Paths.filename file, line, message, timestamp⟩))
  /-- the message cannot be made -/
  | fail : s.caller c = .idle → CallStep s c (s.setCaller c .threw)
  | lock {msg : LogMessage} : s.caller c = .entering msg → s.owner = none →
      CallStep s c { s.setCaller c (.inside msg) with owner := some (.caller c) }
  | push {msg : LogMessage} : s.caller c = .inside msg →
      CallStep s c { s.setCaller c (.notifying msg) with
        owner := none, queue := s.queue ++ [msg], entered := s.entered ++ [msg] }
  /-- the queue cannot grow -/
  | throw {msg : LogMessage} : s.caller c = .inside msg →
      CallStep s c { s.setCaller c .threw with owner := none }
  | notify {msg : LogMessage} : s.caller c = .notifying msg →
      CallStep s c { s.setCaller c (.returned msg) with worker := s.worker.wake }

inductive WorkStep (s : State) : State → Prop
  | goOn : s.worker = .heading → s.running = true → WorkStep s { s with worker := .entering }
  | stop : s.worker = .heading → s.running = false → WorkStep s { s with worker := .draining }
  | drain : s.worker = .draining → s.queue ≠ [] → WorkStep s { s with worker := .entering }
  | leave : s.worker = .draining → s.queue = [] → WorkStep s { s with worker := .returned }
  | lock : s.worker = .entering ∨ s.worker = .woken → s.owner = none →
      WorkStep s { s with worker := .testing, owner := some .worker }
  | fail : s.worker = .testing → s.mayGo = false → WorkStep s { s with worker := .tested }
  | sleep : s.worker = .tested → WorkStep s { s with worker := .asleep, owner := none }
  | wake : s.worker = .asleep → WorkStep s { s with worker := .woken }
  | pass : s.worker = .testing → s.mayGo = true → WorkStep s { s with worker := .passed }
  | quit : s.worker = .passed → s.running = false → s.queue = [] →
      WorkStep s { s with worker := .returned, owner := none }
  | take {msg : LogMessage} {rest : List LogMessage} : s.worker = .passed → s.queue = msg :: rest →
      WorkStep s { s with worker := .writing msg, owner := none, queue := rest }
  | write {msg : LogMessage} : s.worker = .writing msg →
      WorkStep s { s with worker := .heading, output := s.output ++ [msg.output] }

/-- The steps of `~Logger`. -/
inductive EndStep (s : State) : State → Prop
  | begin : s.destructor = .notBegun → EndStep s { s with destructor := .setting }
  | set : s.destructor = .setting → EndStep s { s with destructor := .notifying, running := false }
  | notify : s.destructor = .notifying →
      EndStep s { s with destructor := .joining, worker := s.worker.wake }
  | join : s.destructor = .joining → s.worker = .returned →
      EndStep s { s with destructor := .ended }

inductive Step (s s' : State) : Prop
  | call (c : ℕ) : CallStep s c s' → Step s s'
  | work : WorkStep s s' → Step s s'
  | finish : EndStep s s' → Step s s'

abbrev Run : State → State → Prop := Relation.ReflTransGen Step

end Mtfss.Logger
