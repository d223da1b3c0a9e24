import Mtfss.Server.Accounts
import Mtfss.Server.TaskQueue
import Mathlib.Data.Nat.Count

/-! The server at work: `start()`, the queue, the workers, and the sessions they run. -/

namespace Mtfss.Serving

open Effects Server

/-- Where `start()` stands. Connections are numbered as they are accepted. -/
inductive Main
  /-- before `running_ = true` -/
  | starting
  /-- at the test of `while (running_)` -/
  | testing
  | accepting
  /-- with a new connection, before the call of `push` -/
  | accepted (k : ℕ)
  | pushing (k : ℕ)
  /-- the queue has rejected the task -/
  | rejecting (k : ℕ)
  /-- before `closesocket(client_socket)` -/
  | dropping (k : ℕ)
  | returned
  /-- left by an exception, and the connection it had then -/
  | threw (k : Option ℕ)
  deriving DecidableEq

/-- The connection that `start()` has. -/
def Main.holds : Main → Option ℕ
  | .accepted k | .pushing k | .rejecting k | .dropping k => some k
  | _ => none

/-- A call of `handle_client`. -/
structure Session where
  code : Code (Exit ⊕ Bytes)
  self : Local
  tally : Tally

def Session.isOver (c : Session) : Bool :=
  match c.code with
  | .pure (.inl _) => true
  | .throw _ => true
  | _ => false

/-- The call is past the `++` it begins with, and has neither come to its `--` nor ended before. -/
def Session.isExecuting (c : Session) : Bool := !c.isOver && c.tally.active == 1

/-- `start()`, the pool with its queue of connections, the calls of `handle_client` by connection,
and how often `start()` has closed each. -/
structure State where
  main : Main
  accepted : ℕ
  pool : Pool.State ℕ
  session : ℕ → Option Session
  dropped : ℕ → ℕ
  store : Store

def State.initial (max_size : ℕ) (store : Store) : State where
  main := .starting
  accepted := 0
  pool := .initial max_size
  session _ := none
  dropped _ := 0
  store := { store with running := false, active := 0 }

/-- The steps of a server with `n` workers. -/
inductive Step (env : Env) (host : Endian) (n : ℕ) (s : State) : State → Prop
  | start : s.main = .starting →
      Step env host n s { s with main := .testing, store := { s.store with running := true } }
  | test : s.main = .testing →
      Step env host n s { s with main := if s.store.running then .accepting else .returned }
  | acceptFails : s.main = .accepting → Step env host n s { s with main := .testing }
  | acceptThrows : s.main = .accepting → Step env host n s { s with main := .threw none }
  | accept : s.main = .accepting →
      Step env host n s { s with main := .accepted s.accepted, accepted := s.accepted + 1 }
  /-- the connection cannot be logged, or the task not be made -/
  | acceptedThrows {k : ℕ} : s.main = .accepted k →
      Step env host n s { s with main := .threw (some k) }
  | callPush {k : ℕ} : s.main = .accepted k → s.pool.pusher k = .idle →
      Step env host n s { s with main := .pushing k, pool := s.pool.setPusher k (.entering k) }
  | push {k : ℕ} {pool : Pool.State ℕ} : s.main = .pushing k → s.pool.pusher k ≠ .idle →
      Pool.PushStep n s.pool k pool → Step env host n s { s with pool := pool }
  | pushed {k : ℕ} : s.main = .pushing k → s.pool.pusher k = .returned true →
      Step env host n s { s with main := .testing }
  | rejected {k : ℕ} : s.main = .pushing k → s.pool.pusher k = .returned false →
      Step env host n s { s with main := .rejecting k }
  | pushThrows {k : ℕ} : s.main = .pushing k → s.pool.pusher k = .threw →
      Step env host n s { s with main := .threw (some k) }
  | warn {k : ℕ} : s.main = .rejecting k → Step env host n s { s with main := .dropping k }
  | warnThrows {k : ℕ} : s.main = .rejecting k →
      Step env host n s { s with main := .threw (some k) }
  | drop {k : ℕ} : s.main = .dropping k → Step env host n s
      { s with main := .testing, dropped := Function.update s.dropped k (s.dropped k + 1) }
  | work {i : ℕ} {pool : Pool.State ℕ} : i < n →
      (∀ k, s.pool.worker i ≠ .notifying k ∧ s.pool.worker i ≠ .running k) →
      Pool.WorkStep s.pool i pool → Step env host n s { s with pool := pool }
  /-- a worker calls `handle_client`; whatever the client sends is in `input` -/
  | call {i k : ℕ} {pool : Pool.State ℕ} (input : Bytes) (eof : Bool) : i < n →
      s.pool.worker i = .notifying k → Pool.WorkStep s.pool i pool → Step env host n s
        { s with
          pool := pool
          session := Function.update s.session k
            (some ⟨handleClient host, .fresh k input eof, ⟨0, 0⟩⟩) }
  | session {i k : ℕ} {p q : Code (Exit ⊕ Bytes)} {l l' : Local} {t t' : Tally} {store : Store} :
      i < n → s.pool.worker i = .running k → s.session k = some ⟨p, l, t⟩ →
      LoopStep (Tally.after.watch (next env)) (round host) (p, ((l, t), s.store))
        (q, ((l', t'), store)) →
      Step env host n s
        { s with session := Function.update s.session k (some ⟨q, l', t'⟩), store := store }
  /-- what the call throws is caught -/
  | finish {i k : ℕ} {c : Session} {pool : Pool.State ℕ} : i < n → s.pool.worker i = .running k →
      s.session k = some c → c.isOver = true → Pool.WorkStep s.pool i pool →
      Step env host n s { s with pool := pool }
  | close {t : ℕ} {pool : Pool.State ℕ} : Pool.CloseStep n s.pool t pool →
      Step env host n s { s with pool := pool }
  /-- in `stop()` -/
  | stop : Step env host n s { s with store := { s.store with running := false } }

abbrev Run (env : Env) (host : Endian) (n : ℕ) : State → State → Prop :=
  Relation.ReflTransGen (Step env host n)

namespace State

variable (n : ℕ) (s : State) (k : ℕ)

/-- `start()`, the queue or a worker has the connection. -/
def InHands : Prop :=
  s.main.holds = some k ∨ k ∈ s.pool.queue.queue ∨
    ∃ i < n, s.pool.worker i = .notifying k ∨ s.pool.worker i = .running k

/-- The call of `handle_client` for the connection has ended. -/
def Ended : Prop := ∃ c, s.session k = some c ∧ c.isOver = true

/-- `push` has returned false, and `start()` has gone on. -/
def Rejected : Prop :=
  s.pool.pusher k = .returned false ∧ s.main.holds ≠ some k ∧ s.main ≠ .threw (some k)

/-- How often `handle_client` has closed the connection. -/
def closedByClient : ℕ := ((s.session k).map (fun c => c.tally.closed)).getD 0

/-- How many calls of `handle_client` are being executed. -/
def executing : ℕ := Nat.count (fun k => (s.session k).any Session.isExecuting = true) s.accepted

/-- An exception has left `start()` with the connection, or `handle_client` before it has released
it. -/
def Lost : Prop :=
  s.main = .threw (some k) ∨ ∃ c e, s.session k = some c ∧ c.code = .throw e ∧ c.tally.closed = 0

end State

end Mtfss.Serving
