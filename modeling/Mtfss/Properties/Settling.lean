import Mtfss.Properties.ServerProgress
import Mtfss.Server.SessionEnds

/-! Left to itself, the server comes to rest, in whatever order its threads go on. -/

namespace Mtfss

open Effects Server Relation

namespace Pool

variable {α : Type} {n m : ℕ} {s s' : State α}

/-- What a call of `push` can still cost the pool, the task included that it brings. -/
def Pusher.effort : Pusher α → ℕ
  | .entering _ | .woken _ => 21
  | .testing _ => 20
  | .passed _ => 19
  | .asleep _ => 13
  | .notifying => 5
  | .idle | .returned _ | .threw => 0

/-- What a worker can still do before it takes a task. -/
def Worker.effort : Worker α → ℕ
  | .notifying _ => 14
  | .running _ => 5
  | .entering | .woken => 4
  | .testing => 3
  | .passed => 2
  | .asleep | .left => 0

def Closer.effort (n : ℕ) : Closer → ℕ
  | .enter => 5 * n + 14
  | .closing _ => 5 * n + 13
  | .setting _ => 5 * n + 12
  | .notifyEmpty _ => 5 * n + 11
  | .notifyFull _ => n + 10
  | .joining i => n - i + 1
  | .idle | .returned _ => 0

lemma Pusher.effort_wake_le (x : Pusher α) : x.wake.effort ≤ x.effort + 8 := by
  cases x <;> simp [wake, effort]

lemma Worker.effort_wake_le (x : Worker α) : x.wake.effort ≤ x.effort + 4 := by
  cases x <;> simp [wake, effort]

namespace State

/-- What the `n` workers, the tasks they will take and the first `m` calls of `shutdown` can still
do. -/
def effort (n m : ℕ) (s : State α) : ℕ :=
  ∑ i ∈ Finset.range n, (s.worker i).effort + 13 * s.queue.queue.length +
    ∑ t ∈ Finset.range m, (s.closer t).effort n

end State

lemma effort_worker {i : ℕ} {x : Worker α} (hi : i < n)
    (hw : s'.worker = Function.update s.worker i x)
    (hq : s'.queue.queue = s.queue.queue) (hc : s'.closer = s.closer) :
    s'.effort n m + (s.worker i).effort = s.effort n m + x.effort := by
  have := sum_update_add Worker.effort s.worker hi x
  rw [State.effort, State.effort, hw, hq, hc]
  omega

lemma effort_closer {t : ℕ} {x : Closer} (ht : t < m)
    (hc : s'.closer = Function.update s.closer t x)
    (hw : s'.worker = s.worker) (hq : s'.queue.queue = s.queue.queue) :
    s'.effort n m + (s.closer t).effort n = s.effort n m + x.effort n := by
  have := sum_update_add (Closer.effort n) s.closer ht x
  rw [State.effort, State.effort, hw, hq, hc]
  omega

/-- A call of `push` goes on at the cost of its own effort. -/
lemma PushStep.effort_lt {p : ℕ} (hs : PushStep n s p s') (hidle : s.pusher p ≠ .idle)
    (hawake : ∀ task, s.pusher p ≠ .asleep task) :
    s'.effort n m + (s'.pusher p).effort < s.effort n m + (s.pusher p).effort := by
  cases hs with
  | call task hp => exact (hidle hp).elim
  | wake hp => exact (hawake _ hp).elim
  | lock hp howner =>
    rcases hp with hp | hp <;> simp [State.effort, State.setPusher, hp, Pusher.effort]
  | accept hp hq =>
    obtain ⟨-, rfl⟩ := TaskQueue.push_eq_some.mp hq
    simp only [State.effort, State.setPusher, Function.update_self, hp, Pusher.effort,
      List.length_append, List.length_singleton]
    omega
  | notify hp hi hasleep =>
    have hset : (State.setWorker (s.setPusher p (.returned true)) _ .woken).effort n m + _ =
        s.effort n m + _ := effort_worker hi rfl rfl rfl
    simp only [hasleep, Worker.effort] at hset
    simp only [State.setPusher, State.setWorker, Function.update_self, hp, Pusher.effort] at hset ⊢
    omega
  | _ hp => simp [State.effort, State.setPusher, hp, Pusher.effort]

/-- A worker goes on at the cost of its own effort, or wakes a call of `push` besides. -/
lemma WorkStep.effort_lt {i : ℕ} (hs : WorkStep s i s') (hi : i < n)
    (hawake : s.worker i ≠ .asleep) : s'.effort n m < s.effort n m ∧ s'.pusher = s.pusher ∨
      s'.effort n m + 8 < s.effort n m ∧
        ∃ p task, s.pusher p = .asleep task ∧
          s'.pusher = Function.update s.pusher p (.woken task) := by
  have hset : ∀ {s₁ : State α} {x : Worker α}, s₁.worker = Function.update s.worker i x →
      s₁.queue.queue = s.queue.queue → s₁.closer = s.closer → x.effort < (s.worker i).effort →
        s₁.effort n m < s.effort n m := by
    intro s₁ x hw hq hc hlt
    have := effort_worker (m := m) hi hw hq hc
    omega
  cases hs with
  | wake hw => exact (hawake hw).elim
  | lock hw howner =>
    refine Or.inl ⟨hset rfl rfl rfl ?_, rfl⟩
    rcases hw with hw | hw <;> simp [hw, Worker.effort]
  | @take task _ hw hq =>
    obtain ⟨rest, hqueue, rfl⟩ := TaskQueue.pop_eq_some.mp hq
    have hsum := sum_update_add Worker.effort s.worker hi (.notifying task)
    refine Or.inl ⟨?_, rfl⟩
    simp only [State.effort, State.setWorker, hw, hqueue, Worker.effort, List.length_cons] at hsum ⊢
    omega
  | @notify task task' p hw hp =>
    have hsum : State.effort n m ((s.setWorker i (.running task)).setPusher p (.woken task')) + _ =
        s.effort n m + _ := effort_worker hi rfl rfl rfl
    simp only [hw, Worker.effort] at hsum
    exact Or.inr ⟨by omega, p, task', hp, rfl⟩
  | notifyNobody hw => exact Or.inl ⟨hset rfl rfl rfl (by simp [hw, Worker.effort]), rfl⟩
  | finish hw => exact Or.inl ⟨hset rfl rfl rfl (by simp [hw, Worker.effort]), rfl⟩
  | _ hw => exact Or.inl ⟨hset rfl rfl rfl (by simp [hw, Worker.effort]), rfl⟩

/-- A call of `shutdown` goes on at the cost of its own effort, or wakes the calls of `push`
besides. -/
lemma CloseStep.effort_lt {t : ℕ} (hs : CloseStep n s t s') (ht : t < m)
    (hbusy : s.closer t ≠ .idle) : s'.effort n m < s.effort n m ∧ s'.pusher = s.pusher ∨
      s'.effort n m + 8 < s.effort n m ∧ s'.pusher = fun p => (s.pusher p).wake := by
  have hset : ∀ {s₁ : State α} {x : Closer}, s₁.closer = Function.update s.closer t x →
      s₁.worker = s.worker → s₁.queue.queue = s.queue.queue → x.effort n < (s.closer t).effort n →
        s₁.effort n m < s.effort n m := by
    intro s₁ x hc hw hq hlt
    have := effort_closer (n := n) ht hc hw hq
    omega
  cases hs with
  | callPool hc => exact (hbusy hc).elim
  | callQueue hc => exact (hbusy hc).elim
  | @notifyEmpty pool hc =>
    have hsum := sum_update_add (Closer.effort n) s.closer ht (.notifyFull pool)
    have hwake : ∑ i ∈ Finset.range n, (s.worker i).wake.effort ≤
        ∑ i ∈ Finset.range n, ((s.worker i).effort + 4) :=
      Finset.sum_le_sum fun i _ => (s.worker i).effort_wake_le
    rw [Finset.sum_add_distrib, Finset.sum_const, Finset.card_range, smul_eq_mul] at hwake
    refine Or.inl ⟨?_, rfl⟩
    simp only [State.effort, State.setCloser, hc, Closer.effort] at hsum ⊢
    omega
  | @notifyFull pool hc =>
    have hsum : ∀ x : Closer, State.effort n m { s.setCloser t x with
        pusher := fun p => (s.pusher p).wake } + _ = _ + x.effort n :=
      fun x => effort_closer ht rfl rfl rfl
    have := hsum (if pool then .joining 0 else .returned false)
    refine Or.inr ⟨?_, rfl⟩
    cases pool <;> simp [hc, Closer.effort] at this ⊢ <;> omega
  | joined hc hi =>
    refine Or.inl ⟨hset rfl rfl rfl ?_, rfl⟩
    simp only [hc, Closer.effort]
    omega
  | join hc hi =>
    refine Or.inl ⟨hset rfl rfl rfl ?_, rfl⟩
    simp only [hc, Closer.effort]
    omega
  | _ hc => exact Or.inl ⟨hset rfl rfl rfl (by simp [hc, Closer.effort]), rfl⟩

lemma CloseStep.others {t j : ℕ} (hs : CloseStep n s t s') (hj : j ≠ t) :
    s'.closer j = s.closer j := by
  cases hs <;> exact Function.update_of_ne hj _ _

end Pool

namespace Serving

variable {env : Env} {host : Endian} {n m : ℕ} {stalled : ℕ → Prop} {s s' : State}

/-- A thread has gone on that a server at rest does not let go on. -/
def Moves (n : ℕ) (s s' : State) : Prop :=
  (s'.main ≠ s.main ∧ s.main ≠ .accepting) ∨
  (∃ k, s'.pool.pusher k ≠ s.pool.pusher k ∧ ∀ task, s.pool.pusher k ≠ .asleep task) ∨
  (∃ i < n, s'.pool.worker i ≠ s.pool.worker i ∧ s.pool.worker i ≠ .asleep) ∨
  (∃ t, s'.pool.closer t ≠ s.pool.closer t ∧ s.pool.closer t ≠ .idle) ∨
  s'.session ≠ s.session

/-- A step of the server by itself: no new connection, no new call of `stop()` or of a `shutdown()`,
no wake-up for no reason, and no send to a client that does not read. -/
def InnerStep (env : Env) (host : Endian) (n : ℕ) (stalled : ℕ → Prop) (s s' : State) : Prop :=
  Going env host n stalled s s' ∧ Moves n s s'

lemma atRest_of_last (h : ∀ s', ¬ InnerStep env host n stalled s s') :
    AtRest env host n stalled s where
  main s' hs := by
    by_contra! hne
    exact h s' ⟨hs, Or.inl hne⟩
  push s' hs k := by
    by_contra! hne
    exact h s' ⟨hs, Or.inr (Or.inl ⟨k, hne⟩)⟩
  work s' hs i hi := by
    by_contra! hne
    exact h s' ⟨hs, Or.inr (Or.inr (Or.inl ⟨i, hi, hne⟩))⟩
  close s' hs t := by
    by_contra! hne
    exact h s' ⟨hs, Or.inr (Or.inr (Or.inr (Or.inl ⟨t, hne⟩)))⟩
  session s' hs := by
    by_contra! hne
    exact h s' ⟨hs, Or.inr (Or.inr (Or.inr (Or.inr hne)))⟩

def Main.effort : Main → ℕ
  | .accepted _ => 26
  | .pushing _ => 4
  | .rejecting _ => 3
  | .dropping _ | .starting => 2
  | .testing => 1
  | .accepting | .returned | .threw _ => 0

namespace State

/-- What the call of `push` can still cost in which `start()` is. -/
def pushEffort (s : State) : ℕ :=
  match s.main with
  | .pushing k => (s.pool.pusher k).effort
  | _ => 0

def effort (n m : ℕ) (s : State) : ℕ := s.main.effort + s.pushEffort + s.pool.effort n m

/-- The sessions of the first `N` connections, as their connections see them. -/
def sessions (N : ℕ) (s : State) :
    Fin N → Option (Prog.Running Call Answer Exn (Exit ⊕ Bytes) Conn) :=
  fun k => (s.session k).map fun c => (c.code, c.self.conn)

end State

section Effort

lemma pushEffort_other (h : ∀ k, s.main ≠ .pushing k) : s.pushEffort = 0 := by
  rw [State.pushEffort]
  split
  · rename_i k hk
    exact (h k hk).elim
  · rfl

lemma pushEffort_le {d : ℕ} (hmain : s'.main = s.main)
    (h : ∀ k, (s'.pool.pusher k).effort ≤ (s.pool.pusher k).effort + d) :
    s'.pushEffort ≤ s.pushEffort + d := by
  rw [State.pushEffort, State.pushEffort, hmain]
  cases s.main with
  | pushing k => exact h k
  | _ => exact Nat.zero_le _

/-- `start()` goes on by itself. -/
lemma effort_main (hpool : s'.pool = s.pool) (hpush : s'.pushEffort = 0)
    (hlt : s'.main.effort < s.main.effort) : s'.effort n m < s.effort n m := by
  rw [State.effort, State.effort, hpool, hpush]
  omega

lemma effort_pool (hmain : s'.main = s.main) (h : s'.pool.effort n m < s.pool.effort n m ∧
      s'.pool.pusher = s.pool.pusher ∨ s'.pool.effort n m + 8 < s.pool.effort n m ∧
        ∀ k, (s'.pool.pusher k).effort ≤ (s.pool.pusher k).effort + 8) :
    s'.effort n m < s.effort n m := by
  rcases h with ⟨hlt, hp⟩ | ⟨hlt, hp⟩
  · have := pushEffort_le (d := 0) hmain fun k => by rw [hp]; exact le_rfl
    rw [State.effort, State.effort, hmain]
    omega
  · have := pushEffort_le hmain hp
    rw [State.effort, State.effort, hmain]
    omega

lemma effort_work {i : ℕ} {pool : Pool.State ℕ} (hmain : s'.main = s.main) (hpool : s'.pool = pool)
    (hi : i < n) (hawake : s.pool.worker i ≠ .asleep) (hs : Pool.WorkStep s.pool i pool) :
    s'.effort n m < s.effort n m := by
  refine effort_pool hmain ?_
  rw [hpool]
  refine (hs.effort_lt hi hawake).imp_right (And.imp_right ?_)
  rintro ⟨p, task, hp, hwoken⟩ k
  rw [hwoken]
  by_cases hk : k = p
  · subst hk
    rw [Function.update_self, hp]
    exact le_rfl
  · rw [Function.update_of_ne hk]
    exact Nat.le_add_right _ _

lemma not_moves (hmain : s'.main = s.main ∨ s.main = .accepting)
    (hpush : ∀ k, s'.pool.pusher k = s.pool.pusher k ∨ ∃ task, s.pool.pusher k = .asleep task)
    (hwork : ∀ i, s'.pool.worker i = s.pool.worker i ∨ s.pool.worker i = .asleep)
    (hclose : ∀ t, s'.pool.closer t = s.pool.closer t ∨ s.pool.closer t = .idle)
    (hsession : s'.session = s.session) : ¬ Moves n s s' := by
  rintro (⟨hne, hacc⟩ | ⟨k, hne, hawake⟩ | ⟨i, -, hne, hawake⟩ | ⟨t, hne, hbusy⟩ | hne)
  · exact hmain.elim hne hacc
  · exact (hpush k).elim hne fun ⟨task, hasleep⟩ => hawake task hasleep
  · exact (hwork i).elim hne hawake
  · exact (hclose t).elim hne hbusy
  · exact hne hsession

lemma update_eq_or {β : Type} {f : ℕ → β} {i : ℕ} {P : β → Prop} (x : β) (h : P (f i)) (j : ℕ) :
    Function.update f i x j = f j ∨ P (f j) := by
  by_cases hj : j = i
  · exact Or.inr (hj ▸ h)
  · exact Or.inl (Function.update_of_ne hj x f)

lemma loopStep_moves {p q : Code (Exit ⊕ Bytes)} {σ : Type} {nx : Next Call Answer σ} {t t' : σ}
    (hs : LoopStep nx (round host) (p, t) (q, t')) : q ≠ p := by
  cases hs with
  | inside hs =>
    cases hs with
    | call r hr => exact Prog.answer_ne r
  | again => rintro ⟨⟩

lemma not_moves_same (hmain : s'.main = s.main ∨ s.main = .accepting) (hpool : s'.pool = s.pool)
    (hsession : s'.session = s.session) : ¬ Moves n s s' :=
  not_moves hmain (fun _ => Or.inl (by rw [hpool])) (fun _ => Or.inl (by rw [hpool]))
    (fun _ => Or.inl (by rw [hpool])) hsession

/-- Wake-ups for no reason, and new calls of a `shutdown()`. -/
lemma not_moves_push {k task : ℕ} {pool : Pool.State ℕ} (hasleep : s.pool.pusher k = .asleep task)
    (hs : Pool.PushStep n s.pool k pool) : ¬ Moves n s { s with pool := pool } := by
  have hwake : pool = s.pool.setPusher k (.woken task) := by cases hs <;> grind
  subst hwake
  refine not_moves (Or.inl rfl) (fun j => ?_) (fun _ => Or.inl rfl) (fun _ => Or.inl rfl) rfl
  exact update_eq_or (P := fun y => ∃ task, y = Pool.Pusher.asleep task) _ ⟨task, hasleep⟩ j

lemma not_moves_work {i : ℕ} {pool : Pool.State ℕ} (hasleep : s.pool.worker i = .asleep)
    (hs : Pool.WorkStep s.pool i pool) : ¬ Moves n s { s with pool := pool } := by
  have hwake : pool = s.pool.setWorker i .woken := by cases hs <;> grind
  subst hwake
  refine not_moves (Or.inl rfl) (fun _ => Or.inl rfl) (fun j => ?_) (fun _ => Or.inl rfl) rfl
  exact update_eq_or (P := (· = Pool.Worker.asleep)) _ hasleep j

lemma not_moves_close {t : ℕ} {pool : Pool.State ℕ} (hidle : s.pool.closer t = .idle)
    (hs : Pool.CloseStep n s.pool t pool) : ¬ Moves n s { s with pool := pool } := by
  obtain ⟨x, rfl⟩ : ∃ x, pool = s.pool.setCloser t x := by
    cases hs <;> first | exact ⟨_, rfl⟩ | grind
  refine not_moves (Or.inl rfl) (fun _ => Or.inl rfl) (fun _ => Or.inl rfl) (fun j => ?_) rfl
  exact update_eq_or (P := (· = Pool.Closer.idle)) _ hidle j

/-- A step of the server by itself makes its effort smaller, but for a step of a session. -/
lemma InnerStep.effort_lt (h : InnerStep env host n stalled s s')
    (hidle : ∀ t, m ≤ t → s.pool.closer t = .idle)
    (hsession : s'.session = s.session) : s'.effort n m < s.effort n m := by
  obtain ⟨⟨hs, -⟩, hmoves⟩ := h
  cases hs with
  | start hm => exact effort_main rfl rfl (by simp [hm, Main.effort])
  | test hm => cases s.store.running <;> exact effort_main rfl rfl (by simp [hm, Main.effort])
  | acceptFails hm => exact absurd hmoves (not_moves_same (Or.inr hm) rfl rfl)
  | acceptThrows hm => exact absurd hmoves (not_moves_same (Or.inr hm) rfl rfl)
  | accept hm => exact absurd hmoves (not_moves_same (Or.inr hm) rfl rfl)
  | stop => exact absurd hmoves (not_moves_same (Or.inl rfl) rfl rfl)
  | acceptedThrows hm => exact effort_main rfl rfl (by simp [hm, Main.effort])
  | @callPush k hm hk =>
    have hbefore : s.pushEffort = 0 := pushEffort_other fun j hj => by cases hm.symm.trans hj
    have hpush : State.pushEffort { s with
        main := .pushing k, pool := s.pool.setPusher k (.entering k) } = 21 := by
      simp [State.pushEffort, Pool.State.setPusher, Pool.Pusher.effort]
    rw [State.effort, State.effort, hbefore, hpush, hm]
    change 4 + 21 + s.pool.effort n m < 26 + 0 + s.pool.effort n m
    omega
  | @push k pool hm hne hs =>
    by_cases hasleep : ∃ task, s.pool.pusher k = .asleep task
    · obtain ⟨task, hasleep⟩ := hasleep
      exact (not_moves_push hasleep hs hmoves).elim
    · have := hs.effort_lt (m := m) hne (not_exists.mp hasleep)
      simp only [State.effort, State.pushEffort, hm]
      omega
  | pushed hm hp => exact effort_main rfl rfl (by simp [hm, Main.effort])
  | rejected hm hp => exact effort_main rfl rfl (by simp [hm, Main.effort])
  | pushThrows hm hp => exact effort_main rfl rfl (by simp [hm, Main.effort])
  | warn hm => exact effort_main rfl rfl (by simp [hm, Main.effort])
  | warnThrows hm => exact effort_main rfl rfl (by simp [hm, Main.effort])
  | drop hm => exact effort_main rfl rfl (by simp [hm, Main.effort])
  | @work i pool hi hne hs =>
    by_cases hasleep : s.pool.worker i = .asleep
    · exact (not_moves_work hasleep hs hmoves).elim
    · exact effort_work rfl rfl hi hasleep hs
  | call input eof hi hw hs => exact effort_work rfl rfl hi (by simp [hw]) hs
  | @session i k p q l l' t t' store hi hw hk hs =>
    have hsame := congrFun hsession k
    simp only [Function.update_self, hk, Option.some.injEq] at hsame
    exact (loopStep_moves hs (congrArg Session.code hsame)).elim
  | finish hi hw hc hover hs => exact effort_work rfl rfl hi (by simp [hw]) hs
  | @close t pool hs =>
    by_cases hbusy : s.pool.closer t = .idle
    · exact (not_moves_close hbusy hs hmoves).elim
    have ht : t < m := by
      by_contra hge
      exact hbusy (hidle t (not_lt.mp hge))
    refine effort_pool rfl ((hs.effort_lt ht hbusy).imp_right (And.imp_right ?_))
    intro hp k
    rw [hp]
    exact (s.pool.pusher k).effort_wake_le

end Effort

section Sessions

variable {N : ℕ}

/-- A step of a session, as its connection sees it. -/
lemma loopStep_onConn {p q : Code (Exit ⊕ Bytes)} {l l' : Local} {t t' : Tally}
    {store store' : Store}
    (hs : LoopStep (Tally.after.watch (next env)) (round host) (p, ((l, t), store))
      (q, ((l', t'), store'))) :
    LoopStep Conn.next (round host) (p, l.conn) (q, l'.conn) := by
  cases hs with
  | inside hs =>
    cases hs with
    | call r hr => exact .inside (.call r (Conn.next_of_next (Monitor.watch_eq_some.mp hr).1))
  | again => exact .again

abbrev Sooner (host : Endian) : Option (Prog.Running Call Answer Exn (Exit ⊕ Bytes) Conn) →
    Option (Prog.Running Call Answer Exn (Exit ⊕ Bytes) Conn) → Prop :=
  Onward fun d c => LoopStep Conn.next (round host) c d

lemma sessions_update {k : ℕ} {c : Session} {pool : Pool.State ℕ} {store : Store} (hk : k < N)
    (h : Sooner host (some (c.code, c.self.conn)) (s.sessions N ⟨k, hk⟩)) :
    OneOf (Sooner host) (State.sessions N { s with
      session := Function.update s.session k (some c), pool := pool, store := store })
        (s.sessions N) := by
  refine ⟨⟨k, hk⟩, ?_, fun j hj => ?_⟩
  · simpa [State.sessions] using h
  · have hne : (j : ℕ) ≠ k := fun he => hj (Fin.ext he)
    simp [State.sessions, hne]

/-- A step of the server is one of a session, or leaves all of them as they are. -/
lemma Step.sessions (hs : Step env host n s s') (hinv : Inv n s) (hN : s.accepted ≤ N) :
    OneOf (Sooner host) (s'.sessions N) (s.sessions N) ∨ s'.session = s.session := by
  cases hs with
  | @call i k pool input eof hi hw hs =>
    have hk : k < N := by
      refine (hinv.starts.known hinv.owned ?_).trans_le hN
      exact (Pool.mem_accepted hinv.pool).mpr (Or.inr (Or.inr ⟨i, hi, Or.inl hw⟩))
    refine Or.inl (sessions_update hk ⟨_, rfl, fun b hb => ?_⟩)
    have hnone := (hinv.sessions.uncalled hinv.pool hinv.owned hi hw).2
    simp [State.sessions, hnone] at hb
  | @session i k p q l l' t t' store hi hw hk hs =>
    have hlt : k < N :=
      (hinv.starts.known hinv.owned (hinv.sessions.listed hinv.pool hk)).trans_le hN
    refine Or.inl (sessions_update hlt ⟨_, rfl, fun b hb => ?_⟩)
    simp only [State.sessions, hk, Option.map_some, Option.some.injEq] at hb
    subst hb
    exact loopStep_onConn hs
  | _ => exact Or.inr rfl

end Sessions

section Runs

variable {N : ℕ}

/-- Of the calls of a `shutdown()` only the first `m` have begun. -/
def FewClosers (m : ℕ) (s : State) : Prop := ∀ t, m ≤ t → s.pool.closer t = .idle

lemma Step.closers (hs : Step env host n s s') : s'.pool.closer = s.pool.closer ∨
    ∃ t pool, s' = { s with pool := pool } ∧ Pool.CloseStep n s.pool t pool := by
  cases hs with
  | close hs => exact Or.inr ⟨_, _, rfl, hs⟩
  | push hm hne hs => cases hs <;> exact Or.inl rfl
  | work hi hne hs => cases hs <;> exact Or.inl rfl
  | call input eof hi hw hs => cases hs <;> exact Or.inl rfl
  | finish hi hw hc hover hs => cases hs <;> exact Or.inl rfl
  | _ => exact Or.inl rfl

lemma fewClosers_run {max_size : ℕ} {store : Store}
    (h : Run env host n (.initial max_size store) s) : ∃ m, FewClosers m s := by
  induction h with
  | refl => exact ⟨0, fun _ _ => rfl⟩
  | tail _ hs ih =>
    obtain ⟨m, hm⟩ := ih
    rcases hs.closers with hsame | ⟨t, pool, rfl, hclose⟩
    · exact ⟨m, fun j hj => by rw [hsame, hm j hj]⟩
    · refine ⟨max m (t + 1), fun j hj => ?_⟩
      have hne : j ≠ t := by omega
      exact (hclose.others hne).trans (hm j (by omega))

lemma FewClosers.inner (h : FewClosers m s) (hs : InnerStep env host n stalled s s') :
    FewClosers m s' := by
  obtain ⟨⟨hs, -⟩, hmoves⟩ := hs
  rcases hs.closers with hsame | ⟨t, pool, rfl, hclose⟩
  · exact fun j hj => by rw [hsame, h j hj]
  · intro j hj
    have hne : j ≠ t := by
      rintro rfl
      exact not_moves_close (h j hj) hclose hmoves
    exact (hclose.others hne).trans (h j hj)

lemma InnerStep.accepted (hs : InnerStep env host n stalled s s') : s'.accepted = s.accepted := by
  obtain ⟨⟨hs, -⟩, hmoves⟩ := hs
  cases hs with
  | accept hm => exact absurd hmoves (not_moves_same (Or.inr hm) rfl rfl)
  | _ => rfl

lemma acc_innerStep (hr : Ruled n s) (hN : s.accepted ≤ N) (hm : FewClosers m s) :
    Acc (fun s' s => InnerStep env host n stalled s s') s := by
  have hlt := (oneOf_wellFounded N (onward_wellFounded (Conn.sessions_end host))).prod_lex
    (Nat.lt_wfRel.wf)
  refine acc_of_lt hlt (f := fun s => (s.sessions N, s.effort n m))
    (P := fun s => Ruled n s ∧ s.accepted ≤ N ∧ FewClosers m s) ?_ ?_ ⟨hr, hN, hm⟩
  · rintro s s' ⟨hr, hN, hm⟩ hs
    exact ⟨hr.step hs.1.1, hs.accepted.trans_le hN, hm.inner hs⟩
  · rintro s s' ⟨hr, hN, hm⟩ hs
    rcases hs.1.1.sessions hr.inv hN with hsession | hsame
    · exact Prod.Lex.left _ _ hsession
    · have hview : s'.sessions N = s.sessions N := by
        funext k
        rw [State.sessions, State.sessions, hsame]
      rw [hview]
      exact Prod.Lex.right _ (hs.effort_lt hm hsame)

/-- From every state of every run, whatever order its threads take and whichever clients do not
read, the server comes to rest after finitely many steps unless a connection, a call of `stop()` or
of a `shutdown()`, or a wake-up for no reason comes from outside. -/
theorem settles_of_run (env : Env) (host : Endian) (n max_size : ℕ) (store : Store)
    (hlocks : store.locks = .initial) (s : State) (h : Run env host n (.initial max_size store) s)
    (stalled : ℕ → Prop) : Acc (fun s' s => InnerStep env host n stalled s s') s ∧
      (∃ t, ReflTransGen (InnerStep env host n stalled) s t ∧
        ∀ t', ¬ InnerStep env host n stalled t t') ∧
      ∀ t, ReflTransGen (InnerStep env host n stalled) s t →
        (∀ t', ¬ InnerStep env host n stalled t t') → Rest n stalled t := by
  obtain ⟨m, hm⟩ := fewClosers_run h
  have hacc : Acc (fun s' s => InnerStep env host n stalled s s') s :=
    acc_innerStep (ruled_run hlocks h) le_rfl hm
  refine ⟨hacc, exists_last hacc, fun t hrun hlast => ?_⟩
  have ht : Run env host n (.initial max_size store) t :=
    h.trans (hrun.lift id fun _ _ hs => hs.1.1)
  have hruled := ruled_run hlocks ht
  have hrest := atRest_of_last hlast
  exact hrest.rest hruled ((hrest.pool hruled.inv hruled.manned).rest (pool_run ht))

theorem settles_of_run_start : ∃ t, ReflTransGen (InnerStep .atRoot .little 1 (fun k => k = 0))
    (.initial 64 (.fresh (.ofDir [Paths.driveRoot 0x43]))) t ∧ Rest 1 (fun k => k = 0) t := by
  obtain ⟨-, ⟨t, hrun, hlast⟩, hrest⟩ := settles_of_run .atRoot .little 1 64 _ rfl
    (.initial 64 (.fresh (.ofDir [Paths.driveRoot 0x43]))) .refl (fun k => k = 0)
  exact ⟨t, hrun, hrest t hrun hlast⟩

end Runs

end Serving

end Mtfss
