import Mtfss.Properties.LockProgress
import Mtfss.Properties.PoolProgress
import Mtfss.Properties.Release
import Mtfss.Server.SessionLocks

/-! The server is never stuck: when nothing in it can go on, everything in it waits for clients. -/

namespace Mtfss

open Effects Server Relation LockExclusion LockProgress

namespace Effects

variable {Op : Type} {Ret : Op → Type} {ε α : Type}

lemma Prog.answer_ne {o : Op} {k : Ret o → Prog Op Ret ε α} (r : Ret o) : k r ≠ .op o k := by
  have hall : ∀ p : Prog Op Ret ε α, ∀ o (k : Ret o → Prog Op Ret ε α) r,
      p = .op o k → k r ≠ p := by
    intro p
    induction p with
    | pure a => exact nofun
    | throw e => exact nofun
    | op o k ih =>
      rintro _ _ r ⟨⟩ heq
      exact ih r o k r heq (heq.symm ▸ heq)
  exact hall _ o k r rfl

end Effects

namespace Pool

variable {α : Type} {n : ℕ} {s s' : State α}

lemma PushStep.moves {p : ℕ} (hs : PushStep n s p s') : s'.pusher p ≠ s.pusher p := by
  cases hs <;> simp only [State.setPusher, State.setWorker, Function.update_self] <;> grind

lemma WorkStep.moves {i : ℕ} (hs : WorkStep s i s') : s'.worker i ≠ s.worker i := by
  cases hs <;> simp only [State.setPusher, State.setWorker, Function.update_self] <;> grind

lemma CloseStep.moves {t : ℕ} (hs : CloseStep n s t s') : s'.closer t ≠ s.closer t := by
  cases hs <;> simp only [State.setCloser, Function.update_self] <;> grind

end Pool

namespace Serving

variable {env : Env} {host : Endian} {n : ℕ} {stalled : ℕ → Prop} {s s' : State}

/-- The session sends to its client, which is one of those that do not read, so that `::send` does
not return. -/
def HeldUp (stalled : ℕ → Prop) (s : State) (k : ℕ) : Prop :=
  stalled k ∧ ∃ data count f l t, s.session k = some ⟨.op (.send data count) f, l, t⟩ ∧ 0 < count ∧
    l.conn.eof = false

/-- A step of the server while the clients `stalled` do not read. -/
def Going (env : Env) (host : Endian) (n : ℕ) (stalled : ℕ → Prop) (s s' : State) : Prop :=
  Step env host n s s' ∧ ∀ k, HeldUp stalled s k → s'.session k = s.session k

/-- No thread of the server can go on while the clients `stalled` do not read, but with a new
connection, a new call of `stop()` or of a `shutdown()`, or a wake-up for no reason. -/
structure AtRest (env : Env) (host : Endian) (n : ℕ) (stalled : ℕ → Prop) (s : State) : Prop where
  main : ∀ s', Going env host n stalled s s' → s'.main = s.main ∨ s.main = .accepting
  push : ∀ s', Going env host n stalled s s' → ∀ k, s'.pool.pusher k = s.pool.pusher k ∨
    ∃ task, s.pool.pusher k = .asleep task
  work : ∀ s', Going env host n stalled s s' → ∀ i < n, s'.pool.worker i = s.pool.worker i ∨
    s.pool.worker i = .asleep
  close : ∀ s', Going env host n stalled s s' → ∀ t, s'.pool.closer t = s.pool.closer t ∨
    s.pool.closer t = .idle
  session : ∀ s', Going env host n stalled s s' → s'.session = s.session

/-- The session sends to a client that does not read, or reads from its connection, on which nothing
has arrived. -/
def AwaitsClient (stalled : ℕ → Prop) (s : State) (k : ℕ) : Prop :=
  HeldUp stalled s k ∨
    ∃ m f l t, s.session k = some ⟨.op (.recv m) f, l, t⟩ ∧ l.conn.input = [] ∧ l.conn.eof = false

/-- Session `k` waits for a path lock that session `j` has. -/
def AwaitsLock (s : State) (k j : ℕ) : Prop :=
  ∃ o f l t key, s.session k = some ⟨.op o f, l, t⟩ ∧ o.isWaiting = true ∧ key ∈ o.keys ∧ j ≠ k ∧
    Holds s.store.locks key (l.entry key) j

/-- The session waits for its client, or for another that does. -/
def Waits (stalled : ℕ → Prop) (s : State) (k : ℕ) : Prop :=
  AwaitsClient stalled s k ∨ ∃ j, AwaitsLock s k j ∧ AwaitsClient stalled s j

section Locks

/-- The sessions as requests, each with its use of the locks in its last round. -/
def State.requests (s : State) (u : ℕ → Usage) : Requests where
  thread k := (s.session k).map fun c => (c.code.bind fun _ => .pure (.streamed, []), c.self, u k)
  shared := s.store

variable {u : ℕ → Usage}

lemma orderly_congr {c : Requests} {t : Store} (h : Orderly c) (ht : t.locks = c.shared.locks) :
    Orderly ⟨c.thread, t⟩ where
  sound := ⟨h.sound.finishes, h.sound.wellFormed, h.sound.self⟩
  held key := by
    have hheld := h.held key
    rw [KeyHeld] at hheld ⊢
    rwa [ht]
  patient := h.patient

/-- A round that begins where nothing is held. -/
lemma orderly_set {c : Requests} {k : ℕ} {p : Code (Reply × Bytes)} {l : Local} (h : Orderly c)
    (hfree : (c.usage k).shared = [] ∧ (c.usage k).exclusive = []) (hp : Usage.Finishes p .start)
    (honce : WaitsOnce p) (hself : l.self = k) : Orderly (c.set k (p, l, .start) c.shared) := by
  have hthread : ∀ j p' l' u', (c.set k (p, l, .start) c.shared).thread j = some (p', l', u') →
      (j = k ∧ p' = p ∧ l' = l ∧ u' = .start) ∨ c.thread j = some (p', l', u') := by
    intro j p' l' u' hj
    by_cases hjk : j = k
    · subst hjk
      cases (Threads.set_thread_self ..).symm.trans hj
      exact Or.inl ⟨rfl, rfl, rfl, rfl⟩
    · exact Or.inr ((Threads.set_thread_ne hjk ..).symm.trans hj)
  refine ⟨⟨fun j p' l' u' hj => ?_, fun j => ?_, fun j p' l' u' hj => ?_⟩, fun key => ?_,
    fun j p' l' u' hj => ?_⟩
  · rcases hthread j p' l' u' hj with ⟨-, rfl, rfl, rfl⟩ | hj
    · exact hp
    · exact h.sound.finishes j p' l' u' hj
  · rw [Requests.usage_set]
    split
    · exact Usage.wellFormed_start
    · exact h.sound.wellFormed j
  · rcases hthread j p' l' u' hj with ⟨rfl, -, rfl, -⟩ | hj
    · exact hself
    · exact h.sound.self j p' l' u' hj
  · refine (h.held key).congr (fun j => ?_) (fun j => ?_) (fun j hj => ?_)
    · rw [Requests.usage_set]
      split
      · rename_i hjk
        simp [hjk, hfree, Usage.start]
      · rfl
    · rw [Requests.usage_set]
      split
      · rename_i hjk
        simp [hjk, hfree, Usage.start]
      · rfl
    · rw [Requests.entry_set]
      split
      · rename_i hjk
        simp [hjk, hfree] at hj
      · rfl
  · rcases hthread j p' l' u' hj with ⟨-, rfl, -, rfl⟩ | hj
    · exact Or.inl ⟨rfl, rfl, honce⟩
    · exact h.patient j p' l' u' hj

def Locked (s : State) : Prop := ∃ u, Orderly (s.requests u)

lemma Locked.congr (h : Locked s) (hsession : s'.session = s.session)
    (hlocks : s'.store.locks = s.store.locks) : Locked s' := by
  obtain ⟨u, hu⟩ := h
  refine ⟨u, ?_⟩
  have := orderly_congr hu (t := s'.store) hlocks
  rwa [State.requests, hsession]

lemma requests_set {k : ℕ} {c : Session} {v : Usage} {p : Pool.State ℕ} {t : Store} :
    State.requests { s with
      session := Function.update s.session k (some c), pool := p, store := t }
        (Function.update u k v) =
      (s.requests u).set k (c.code.bind (fun _ => .pure (.streamed, [])), c.self, v) t := by
  rw [State.requests, Threads.set, State.requests]
  congr 1
  funext j
  by_cases hjk : j = k
  · subst hjk
    simp
  · simp [hjk]

lemma finishes_reply {p : Code (Exit ⊕ Bytes)} {v : Usage} (h : Usage.Finishes p v) :
    Usage.Finishes (p.bind fun _ => (.pure (.streamed, []) : Code (Reply × Bytes))) v := by
  refine safe_bind_of h ?_
  rintro (e | x) t ht <;> exact ht

lemma Locked.session (h : Locked s) {k : ℕ} {p q : Code (Exit ⊕ Bytes)} {l l' : Local}
    {t t' : Tally} {store : Store} (hk : s.session k = some ⟨p, l, t⟩)
    (hs : LoopStep (Tally.after.watch (next env)) (round host) (p, ((l, t), s.store))
      (q, ((l', t'), store))) :
    Locked { s with
      session := Function.update s.session k (some ⟨q, l', t'⟩)
      store := store } := by
  obtain ⟨u, hu⟩ := h
  have hthread : (s.requests u).thread k =
      some (p.bind (fun _ => .pure (.streamed, [])), l, u k) := by
    simp [State.requests, hk]
  cases hs with
  | inside hs =>
    cases hs with
    | @call o f _ _ r hr =>
      obtain ⟨hnext, -⟩ := Monitor.watch_eq_some.mp hr
      refine ⟨Function.update u k (Usage.after o (u k) r), ?_⟩
      rw [requests_set]
      exact hu.step (.call r hthread (Monitor.watch_eq_some.mpr ⟨hnext, rfl⟩))
  | @again user =>
    refine ⟨Function.update u k .start, ?_⟩
    rw [requests_set]
    have hdone : (u k).Done := hu.sound.finishes k _ _ _ hthread
    have husage : (s.requests u).usage k = u k := by simp [Requests.usage, hthread]
    refine orderly_set hu ?_ (finishes_reply (Usage.finishes_round host user))
      ((waitsOnce_round user).bind fun _ => trivial) (hu.sound.self k _ _ _ hthread)
    rw [husage]
    exact ⟨hdone.shared, hdone.exclusive⟩

lemma Locked.step (h : Locked s) (hinv : Inv n s) (hs : Step env host n s s') : Locked s' := by
  cases hs with
  | @call i k pool input eof hi hw hs =>
    obtain ⟨u, hu⟩ := h
    have hnone := (hinv.sessions.uncalled hinv.pool hinv.owned hi hw).2
    refine ⟨Function.update u k .start, ?_⟩
    have hset := requests_set (s := s) (u := u) (k := k)
      (c := ⟨handleClient host, .fresh k input eof, ⟨0, 0⟩⟩) (v := .start)
        (p := pool) (t := s.store)
    rw [hset]
    refine orderly_set hu ?_ (finishes_reply (Usage.finishes_handleClient host))
      (waitsOnce_handleClient.bind fun _ => trivial) rfl
    simp [Requests.usage, State.requests, hnone, Usage.start]
  | session hi hw hk hs => exact h.session hk hs
  | _ => exact h.congr rfl rfl

lemma locked_initial (max_size : ℕ) {store : Store} (hlocks : store.locks = .initial) :
    Locked (.initial max_size store) := ⟨fun _ => .start, orderly_idle hlocks⟩

end Locks

section Workers

/-- A worker at a task has called `handle_client`, and no other thread than `start()` calls
`push`. -/
structure Manned (n : ℕ) (s : State) : Prop where
  running : ∀ i < n, ∀ k, s.pool.worker i = .running k → s.session k ≠ none
  pusher : ∀ k, s.main = .pushing k ∨ s.pool.pusher k = .idle ∨
    (∃ b, s.pool.pusher k = .returned b) ∨ (s.pool.pusher k = .threw ∧ s.main = .threw (some k))

lemma manned_initial (max_size : ℕ) (store : Store) : Manned n (.initial max_size store) :=
  ⟨nofun, fun _ => Or.inr (Or.inl rfl)⟩

lemma Manned.step (h : Manned n s) (hs : Step env host n s s') : Manned n s' := by
  obtain ⟨hrunning, hpusher⟩ := h
  constructor
  · cases hs with
    | @push k pool hm hne hs =>
      intro i hi j hj
      apply hrunning i hi j
      cases hs <;> simp only [Pool.State.setPusher, Pool.State.setWorker] at * <;> grind
    | @work i pool hi hw hs =>
      intro i' hi' j hj
      apply hrunning i' hi' j
      cases hs <;> simp only [Pool.State.setPusher, Pool.State.setWorker] at * <;> grind
    | @call i k pool input eof hi hw hs =>
      intro i' hi' j hj
      have hold : s.pool.worker i' = .running j ∨ j = k := by
        cases hs <;> simp only [Pool.State.setPusher, Pool.State.setWorker] at * <;> grind
      have := hrunning i' hi' j
      simp only
      grind
    | session hi hw hc hs =>
      intro i' hi' j hj
      have := hrunning i' hi' j hj
      simp only
      grind
    | @finish i k c pool hi hw hc hover hs =>
      intro i' hi' j hj
      apply hrunning i' hi' j
      cases hs <;> simp only [Pool.State.setPusher, Pool.State.setWorker] at * <;> grind
    | close hs =>
      intro i' hi' j hj
      apply hrunning i' hi' j
      cases hs <;> simp only [Pool.State.setCloser] at * <;> grind
    | _ => exact hrunning
  · intro j
    have hj := hpusher j
    cases hs with
    | push hm hne hs =>
      obtain ⟨hothers, -⟩ := hs.pushers hne
      have := hothers j
      simp only
      grind
    | work hi hw hs =>
      cases hs <;> simp only [Pool.State.setPusher, Pool.State.setWorker] at * <;> grind
    | call input eof hi hw hs =>
      cases hs <;> simp only [Pool.State.setPusher, Pool.State.setWorker] at * <;> grind
    | finish hi hw hc hover hs =>
      cases hs <;> simp only [Pool.State.setPusher, Pool.State.setWorker] at * <;> grind
    | close hs =>
      cases hs <;> simp only [Pool.State.setCloser] at * <;> grind [Pool.Pusher.wake]
    | callPush hm hp =>
      simp only [Pool.State.setPusher] at *
      grind
    | session => exact hj
    | stop => exact hj
    | _ => grind

lemma pool_run {max_size : ℕ} {store : Store} (h : Run env host n (.initial max_size store) s) :
    Pool.Run n (.initial max_size) s.pool := by
  induction h with
  | refl => exact .refl
  | tail _ hs ih =>
    cases hs with
    | callPush hm hk => exact ih.tail (.push _ (.call _ hk))
    | push hm hne hs => exact ih.tail (.push _ hs)
    | work hi hw hs => exact ih.tail (.work _ hi hs)
    | call input eof hi hw hs => exact ih.tail (.work _ hi hs)
    | finish hi hw hc hover hs => exact ih.tail (.work _ hi hs)
    | close hs => exact ih.tail (.close _ hs)
    | _ => exact ih

end Workers

section Rest

structure Ruled (n : ℕ) (s : State) : Prop where
  inv : Inv n s
  locked : Locked s
  manned : Manned n s

lemma Ruled.step (h : Ruled n s) (hs : Step env host n s s') : Ruled n s' :=
  ⟨h.inv.step hs, h.locked.step h.inv hs, h.manned.step hs⟩

lemma ruled_run {max_size : ℕ} {store : Store} (hlocks : store.locks = .initial)
    (h : Run env host n (.initial max_size store) s) : Ruled n s := by
  induction h with
  | refl => exact ⟨inv_initial max_size store, locked_initial max_size hlocks,
      manned_initial max_size store⟩
  | tail _ hs ih => exact ih.step hs

lemma Going.of_same (hs : Step env host n s s') (hsame : s'.session = s.session) :
    Going env host n stalled s s' := ⟨hs, fun k _ => congrFun hsame k⟩

/-- Nothing holds up the call of `handle_client` for a new connection. -/
lemma Going.of_new {k : ℕ} {c : Session} (hs : Step env host n s s') (hnone : s.session k = none)
    (hset : s'.session = Function.update s.session k (some c)) : Going env host n stalled s s' := by
  refine ⟨hs, ?_⟩
  rintro j ⟨-, data, count, f, l, t, hj, -⟩
  have hne : j ≠ k := by
    rintro rfl
    cases hnone.symm.trans hj
  rw [hset, Function.update_of_ne hne]

lemma AtRest.pool (h : AtRest env host n stalled s) (hinv : Inv n s) (hm : Manned n s) :
    Pool.AtRest n s.pool := by
  refine ⟨fun p pool hs => ?_, fun i hi pool hs => ?_, fun t pool hs => ?_⟩
  · by_cases hidle : s.pool.pusher p = .idle
    · exact Or.inl hidle
    · have hpushing : s.main = .pushing p := by
        have := hm.pusher p
        cases hs <;> grind
      exact Or.inr ((h.push _ (.of_same (.push hpushing hidle hs) rfl) p).resolve_left hs.moves)
  · by_cases hrun : ∃ task, s.pool.worker i = .running task
    · exact Or.inr hrun
    · refine Or.inl ?_
      by_cases hcall : ∃ k, s.pool.worker i = .notifying k
      · obtain ⟨k, hk⟩ := hcall
        have hnone := (hinv.sessions.uncalled hinv.pool hinv.owned hi hk).2
        exact (h.work _ (.of_new (.call [] false hi hk hs) hnone rfl) i hi).resolve_left hs.moves
      · have hidle : ∀ k, s.pool.worker i ≠ .notifying k ∧ s.pool.worker i ≠ .running k :=
          fun k => ⟨fun hk => hcall ⟨k, hk⟩, fun hk => hrun ⟨k, hk⟩⟩
        exact (h.work _ (.of_same (.work hi hidle hs) rfl) i hi).resolve_left hs.moves
  · exact (h.close _ (.of_same (.close hs) rfl) t).resolve_left hs.moves

/-- What each thread of a server at rest does. -/
structure Rest (n : ℕ) (stalled : ℕ → Prop) (s : State) : Prop where
  main : s.main = .accepting ∨ s.main = .returned ∨ (∃ k, s.main = .threw k) ∨
    ∃ k, s.main = .pushing k ∧ s.pool.queue.queue.length = s.pool.queue.max_size ∧
      ∀ i < n, ∃ j, s.pool.worker i = .running j
  worker : ∀ i < n, (∃ k, s.pool.worker i = .running k ∧ Waits stalled s k) ∨
    (s.pool.worker i = .asleep ∧ s.pool.queue.queue = [] ∧ s.pool.queue.shutdown = false) ∨
    (s.pool.worker i = .left ∧ s.pool.queue.queue = [] ∧ s.pool.queue.shutdown = true)
  closer : ∀ t, s.pool.closer t = .idle ∨ (∃ b, s.pool.closer t = .returned b) ∨
    ∃ i < n, s.pool.closer t = .joining i ∧ ∃ k, s.pool.worker i = .running k
  served : 1 ≤ n → (∀ k c, s.session k = some c → c.self.conn.eof = true) →
    s.pool.ran.Perm s.pool.accepted

lemma AtRest.main_at (h : AtRest env host n stalled s) (hst : Starts s)
    (hpool : Pool.Rest n s.pool) :
    s.main = .accepting ∨ s.main = .returned ∨ (∃ k, s.main = .threw k) ∨
      ∃ k task, s.main = .pushing k ∧ s.pool.pusher k = .asleep task := by
  have hstep : ∀ s', Step env host n s s' → s'.session = s.session → s'.main ≠ s.main →
      s.main = .accepting := fun s' hs hsame hne => (h.main s' (.of_same hs hsame)).resolve_left hne
  cases hm : s.main with
  | accepting => exact Or.inl rfl
  | returned => exact Or.inr (Or.inl rfl)
  | threw k => exact Or.inr (Or.inr (Or.inl ⟨k, rfl⟩))
  | starting =>
    have := hstep _ (.start hm) rfl (by simp [hm])
    simp [hm] at this
  | testing =>
    have := hstep _ (.test hm) rfl (by
      simp only [hm]
      split <;> rintro ⟨⟩)
    simp [hm] at this
  | accepted k =>
    have := hstep _ (.acceptedThrows hm) rfl (by simp [hm])
    simp [hm] at this
  | rejecting k =>
    have := hstep _ (.warn hm) rfl (by simp [hm])
    simp [hm] at this
  | dropping k =>
    have := hstep _ (.drop hm) rfl (by simp [hm])
    simp [hm] at this
  | pushing k =>
    rcases hpool.pusher k with hidle | ⟨b, hreturned⟩ | hthrew | ⟨⟨task, hasleep⟩, -⟩
    · exact (hst.pushing k hm (by rw [hidle]; rfl)).elim
    · cases b with
      | true =>
        have := hstep _ (.pushed hm hreturned) rfl (by simp [hm])
        simp [hm] at this
      | false =>
        have := hstep _ (.rejected hm hreturned) rfl (by simp [hm])
        simp [hm] at this
    · have := hstep _ (.pushThrows hm hthrew) rfl (by simp [hm])
      simp [hm] at this
    · exact Or.inr (Or.inr (Or.inr ⟨k, task, rfl, hasleep⟩))

variable {u : ℕ → Usage} {i k : ℕ}

lemma heldUp_requests (h : HeldUp stalled s k) : LockProgress.HeldUp stalled (s.requests u) k := by
  obtain ⟨hstalled, data, count, f, l, t, hk, hpos, heof⟩ := h
  refine ⟨hstalled, data, count, fun r => (f r).bind fun _ => .pure (.streamed, []), l,
    u k, ?_, hpos,
    heof⟩
  simp [State.requests, hk]

/-- A session that a worker runs makes no call when the server is at rest. -/
lemma AtRest.not_acts (h : AtRest env host n stalled s) (hinv : Inv n s) :
    ¬ Acts env stalled (s.requests u) k := by
  rintro ⟨hheld, o, f, l, v, r, ⟨l', t'⟩, hk, hr⟩
  obtain ⟨c, hc, hcode⟩ := Option.map_eq_some_iff.mp hk
  obtain ⟨code, self, tally⟩ := c
  simp only [Prod.mk.injEq] at hcode
  obtain ⟨hcode, rfl, -⟩ := hcode
  cases code with
  | pure x => cases hcode
  | throw e => cases hcode
  | op o' f' =>
    cases hcode
    obtain ⟨i, hi, hrun⟩ : s.pool.Runs n k := by
      refine (hinv.sessions.begun k _ hc).resolve_left fun hran => ?_
      obtain ⟨d, hd, hover⟩ := hinv.sessions.ended k hran
      cases hc.symm.trans hd
      cases hover
    have hloop : LoopStep (Tally.after.watch (next env)) (round host)
        (.op o f', ((self, tally), s.store)) (f' r, ((l', Tally.after o tally r), t')) :=
      .inside (.call r (Monitor.watch_eq_some.mpr ⟨hr, rfl⟩))
    have hgoing : Going env host n stalled s { s with
        session := Function.update s.session k (some ⟨f' r, l', Tally.after o tally r⟩)
        store := t' } := by
      refine ⟨.session hi hrun hc hloop, fun j hj => ?_⟩
      have hne : j ≠ k := by
        rintro rfl
        exact hheld (heldUp_requests hj)
      exact Function.update_of_ne hne ..
    have hsame := congrFun (h.session _ hgoing) k
    simp only [Function.update_self, hc, Option.some.injEq] at hsame
    exact Prog.answer_ne r (congrArg Session.code hsame)

/-- A request at a call is a session at that call. -/
lemma session_of_requests {o : Call} {f : Answer o → Code (Reply × Bytes)} {l : Local} {v : Usage}
    (h : (s.requests u).thread k = some (.op o f, l, v)) :
    ∃ g t, s.session k = some ⟨.op o g, l, t⟩ := by
  obtain ⟨⟨code, self, tally⟩, hc, hcode⟩ := Option.map_eq_some_iff.mp h
  simp only [Prod.mk.injEq] at hcode
  obtain ⟨hcode, rfl, -⟩ := hcode
  cases code with
  | pure x => cases hcode
  | throw e => cases hcode
  | op o' g =>
    cases hcode
    exact ⟨g, tally, hc⟩

lemma awaitsClient_of_requests (h : LockProgress.AwaitsClient stalled (s.requests u) k) :
    AwaitsClient stalled s k := by
  rcases h with ⟨hstalled, data, count, f, l, v, hk, hpos, heof⟩ | ⟨m, f, l, v, hk, hin, heof⟩
  · obtain ⟨g, t, hc⟩ := session_of_requests hk
    exact Or.inl ⟨hstalled, data, count, g, l, t, hc, hpos, heof⟩
  · obtain ⟨g, t, hc⟩ := session_of_requests hk
    exact Or.inr ⟨m, g, l, t, hc, hin, heof⟩

lemma awaitsLock_of_requests {j : ℕ} (h : LockProgress.AwaitsLock (s.requests u) k j) :
    AwaitsLock s k j := by
  obtain ⟨o, f, l, v, key, hk, ho, hkey, hne, hholds⟩ := h
  obtain ⟨g, t, hc⟩ := session_of_requests hk
  exact ⟨o, g, l, t, key, hc, ho, hkey, hne, hholds⟩

/-- A session that is not at a send is not held up. -/
lemma Going.of_session {c d : Session} (hs : Step env host n s s') (hc : s.session k = some c)
    (hsend : ∀ data count f, c.code ≠ .op (.send data count) f)
    (hset : s'.session = Function.update s.session k (some d)) : Going env host n stalled s s' := by
  refine ⟨hs, ?_⟩
  rintro j ⟨-, data, count, f, l, t, hj, -⟩
  have hne : j ≠ k := by
    rintro rfl
    cases hc.symm.trans hj
    exact hsend data count f rfl
  rw [hset, Function.update_of_ne hne]

lemma AtRest.waits (h : AtRest env host n stalled s) (hr : Ruled n s) (hi : i < n)
    (hw : s.pool.worker i = .running k) : Waits stalled s k := by
  obtain ⟨u, hu⟩ := hr.locked
  obtain ⟨c, hc⟩ := Option.ne_none_iff_exists'.mp (hr.manned.running i hi k hw)
  obtain ⟨code, self, tally⟩ := c
  have hover : Session.isOver ⟨code, self, tally⟩ = false := by
    rw [← Bool.not_eq_true]
    intro hover
    have hfinish : Pool.WorkStep s.pool i _ := .finish hw
    rcases h.work _ (.of_same (.finish hi hw hc hover hfinish) rfl) i hi with hsame | hasleep
    · exact hfinish.moves hsame
    · cases hw.symm.trans hasleep
  cases code with
  | throw e => cases hover
  | pure x =>
    rcases x with exit | user
    · cases hover
    · have hagain : LoopStep (Tally.after.watch (next env)) (round host)
          (.pure (.inr user), ((self, tally), s.store))
            (round host user, ((self, tally), s.store)) := .again
      have hgoing : Going env host n stalled s _ :=
        .of_session (.session hi hw hc hagain) hc nofun rfl
      have hsame := congrFun (h.session _ hgoing) k
      simp only [Function.update_self, hc, Option.some.injEq] at hsame
      cases congrArg Session.code hsame
  | op o f =>
    have hthread : (s.requests u).thread k =
        some (.op o (fun r => (f r).bind fun _ => .pure (.streamed, [])),
        self, u k) := by simp [State.requests, hc]
    rcases hu.progress env stalled hthread with hacts | hclient | ⟨j, hlock, hj⟩
    · exact (h.not_acts hr.inv hacts).elim
    · exact Or.inl (awaitsClient_of_requests hclient)
    · exact Or.inr ⟨j, awaitsLock_of_requests hlock,
        awaitsClient_of_requests (hj.resolve_left (h.not_acts hr.inv))⟩

lemma AtRest.rest (hrest : AtRest env host n stalled s) (hr : Ruled n s)
    (hpool : Pool.Rest n s.pool) : Rest n stalled s := by
  refine ⟨?_, fun i hi => ?_, hpool.closer, fun hn hgone => hpool.done hn fun i hi k hw => ?_⟩
  · rcases hrest.main_at hr.inv.starts hpool with hm | hm | hm | ⟨k, task, hm, hasleep⟩
    · exact Or.inl hm
    · exact Or.inr (Or.inl hm)
    · exact Or.inr (Or.inr (Or.inl hm))
    · refine Or.inr (Or.inr (Or.inr ⟨k, hm, ?_⟩))
      have hk := hpool.pusher k
      rw [hasleep] at hk
      simp only [reduceCtorEq, exists_false, false_or] at hk
      refine hk.2.resolve_left ?_
      rintro ⟨q, hq⟩
      have := hr.manned.pusher q
      grind
  · rcases hpool.worker i hi with ⟨k, hw⟩ | hasleep | hleft
    · exact Or.inl ⟨k, hw, hrest.waits hr hi hw⟩
    · exact Or.inr (Or.inl hasleep)
    · exact Or.inr (Or.inr hleft)
  · have hopen : ∀ j, ¬ AwaitsClient stalled s j := by
      rintro j (⟨-, _, _, _, _, _, hj, -, heof⟩ | ⟨_, _, _, _, hj, -, heof⟩)
      · cases (hgone j _ hj).symm.trans heof
      · cases (hgone j _ hj).symm.trans heof
    rcases hrest.waits hr hi hw with hclient | ⟨j, -, hclient⟩
    · exact hopen k hclient
    · exact hopen j hclient

/-- In every run, when no thread of the server can go on, `start()` waits for a connection or for a
worker or has come to its end, and each worker has nothing to do or is at a session that waits for
its client, to send or to read, or for another that does. -/
theorem at_rest_of_run (env : Env) (host : Endian) (n max_size : ℕ) (store : Store)
    (hlocks : store.locks = .initial) (s : State) (h : Run env host n (.initial max_size store) s)
    (stalled : ℕ → Prop) (hrest : AtRest env host n stalled s) : Rest n stalled s := by
  have hr := ruled_run hlocks h
  exact hrest.rest hr ((hrest.pool hr.inv hr.manned).rest (pool_run h))

/-- The only worker is at a session that sends to a client that does not read. -/
structure Unread (s : State) : Prop where
  main : s.main = .accepting
  worker : s.pool.worker 0 = .running 0
  closer : ∀ t, s.pool.closer t = .idle
  session : HeldUp (fun k => k = 0) s 0

lemma Unread.going (h : Unread s) (hs : Going env host 1 (fun k => k = 0) s s') :
    s'.pool.pusher = s.pool.pusher ∧ s'.pool.worker = s.pool.worker ∧ s'.session = s.session := by
  obtain ⟨hm, hw, hclose, hheld⟩ := h
  obtain ⟨hs, hstill⟩ := hs
  have hsame := hstill 0 hheld
  obtain ⟨-, data, count, f, l, t, hc, -⟩ := hheld
  cases hs with
  | close hs =>
    have hidle := hclose
    cases hs <;> simp_all [Pool.State.setCloser]
  | work hi hnot hs =>
    obtain rfl : _ = 0 := Nat.lt_one_iff.mp hi
    exact ((hnot 0).2 hw).elim
  | call input eof hi hk hs =>
    obtain rfl : _ = 0 := Nat.lt_one_iff.mp hi
    cases hw.symm.trans hk
  | finish hi hk hd hover hs =>
    obtain rfl : _ = 0 := Nat.lt_one_iff.mp hi
    cases hw.symm.trans hk
    cases hc.symm.trans hd
    cases hover
  | session hi hk hd hs =>
    obtain rfl : _ = 0 := Nat.lt_one_iff.mp hi
    cases hw.symm.trans hk
    refine ⟨rfl, rfl, ?_⟩
    simp only [Function.update_self] at hsame
    rw [hsame]
    exact Function.update_eq_self ..
  | acceptFails => exact ⟨rfl, rfl, rfl⟩
  | acceptThrows => exact ⟨rfl, rfl, rfl⟩
  | accept => exact ⟨rfl, rfl, rfl⟩
  | stop => exact ⟨rfl, rfl, rfl⟩
  | _ => simp_all

lemma Unread.atRest (h : Unread s) : AtRest env host 1 (fun k => k = 0) s where
  main _ _ := Or.inr h.main
  push _ hs k := Or.inl (congrFun (h.going hs).1 k)
  work _ hs i _ := Or.inl (congrFun (h.going hs).2.1 i)
  close _ _ t := Or.inr (h.closer t)
  session _ hs := (h.going hs).2.2

/-- A client that has sent a LIST. -/
def asking : Local := .fresh 0 (Request.wire ⟨makeRequest .list 0 0 0, [], []⟩) false

lemma exists_unread :
    ∃ s, Run .atRoot .little 1 (.initial 64 (.fresh (.ofDir [Paths.driveRoot 0x43]))) s ∧
    Unread s := by
  obtain ⟨s, hrun, hm, hw, hclose, hc, hstore⟩ : ∃ s, Run .atRoot .little 1
      (.initial 64 (.fresh (.ofDir [Paths.driveRoot 0x43]))) s ∧ s.main = .accepting ∧
        s.pool.worker 0 = .running 0 ∧ (∀ t, s.pool.closer t = .idle) ∧
        s.session 0 = some ⟨handleClient .little, asking, ⟨0, 0⟩⟩ ∧
        s.store = { Store.fresh (.ofDir [Paths.driveRoot 0x43]) with
          running := true
          active := 0 } := by
    refine ⟨_, .head (.start rfl) <| .head (.test rfl) <| .head (.accept rfl) <|
      .head (.callPush rfl rfl) <| .head (.push rfl (by rintro ⟨⟩) (.lock (.inl rfl) rfl)) <|
      .head (.push rfl (by rintro ⟨⟩) (.pass rfl rfl)) <|
        .head (.push rfl (by rintro ⟨⟩) (.accept rfl rfl)) <|
      .head (.push rfl (by rintro ⟨⟩) (.notifyNobody rfl ?_)) <| .head (.pushed rfl rfl) <|
      .head (.test rfl) <|
      .head (.work Nat.one_pos (fun _ => ⟨(by rintro ⟨⟩), (by rintro ⟨⟩)⟩)
        (.lock (.inl rfl) rfl)) <|
      .head (.work Nat.one_pos (fun _ => ⟨(by rintro ⟨⟩), (by rintro ⟨⟩)⟩) (.pass rfl rfl)) <|
      .head (.work Nat.one_pos (fun _ => ⟨(by rintro ⟨⟩), (by rintro ⟨⟩)⟩) (.take rfl rfl)) <|
      .head (.call asking.conn.input false Nat.one_pos rfl (.notifyNobody rfl ?_)) .refl, rfl, rfl,
      fun _ => rfl, rfl, rfl⟩
    · intro i hi
      simp [Pool.State.setPusher, Pool.State.initial, State.initial]
    · intro p task
      simp only [Pool.State.setPusher, Pool.State.setWorker, Pool.State.initial, State.initial,
        Function.update_apply]
      split <;> rintro ⟨⟩
  have hfollow : (follow (fun o m => oblige .atRoot o (m.1.1, m.2))
      (Tally.after.watch (next .atRoot)) 4 (handleClient .little) ((asking, ⟨0, 0⟩),
        { Store.fresh (.ofDir [Paths.driveRoot 0x43]) with running := true, active := 0 })).any
          (fun c => isSending c.1 c.2.1.1.conn) = true := by decide +kernel
  obtain ⟨⟨q, ⟨l, t⟩, store⟩, hsteps, hq⟩ := (Option.any_eq_true _ _).mp hfollow
  rw [← hstore] at hsteps
  obtain ⟨data, count, f, rfl, hcount, heof⟩ := exists_of_isSending hq
  exact ⟨_, hrun.trans (run_session Nat.one_pos hw hc (steps_of_follow hsteps)), hm, hw, hclose,
    ⟨rfl, data, count, f, l, t, by simp, hcount, heof⟩⟩

theorem at_rest_of_run_unread : ∃ s, s.pool.worker 0 = .running 0 ∧
    HeldUp (fun k => k = 0) s 0 ∧ Rest 1 (fun k => k = 0) s := by
  obtain ⟨s, hrun, hunread⟩ := exists_unread
  exact ⟨s, hunread.worker, hunread.session,
    at_rest_of_run .atRoot .little 1 64 _ rfl s hrun _ hunread.atRest⟩

end Rest

end Serving

end Mtfss
