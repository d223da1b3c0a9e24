import Mtfss.Properties.TaskOrder
import Mtfss.Server.Serving
import Mtfss.Effects.Threads
import Mtfss.System.Oblige
import Mtfss.Common.Framing
import Mathlib.Algebra.BigOperators.Group.Finset.Piecewise
import Mathlib.Algebra.BigOperators.Ring.Finset

/-! Every connection is counted while it is served, and closed once. -/

namespace Mtfss

open Effects Server Relation Paths

namespace Pool

variable {α : Type} {n i p k : ℕ}

/-- What has become of a call of `push`. -/
inductive Outcome
  | idle
  | waiting
  | accepted
  | refused
  | threw
  deriving DecidableEq

def Pusher.outcome : Pusher α → Outcome
  | .idle => .idle
  | .notifying => .accepted
  | .returned true => .accepted
  | .returned false => .refused
  | .threw => .threw
  | _ => .waiting

/-- The task of a call that has not come to its end. -/
def Pusher.task : Pusher α → Option α
  | .entering task | .testing task | .asleep task | .woken task | .passed task => some task
  | _ => none

attribute [grind] Pusher.outcome Pusher.task

@[grind =] lemma Pusher.outcome_wake (x : Pusher α) : x.wake.outcome = x.outcome := by
  cases x <;> rfl

@[grind =] lemma Pusher.task_wake (x : Pusher α) : x.wake.task = x.task := by
  cases x <;> rfl

lemma Pusher.outcome_refused {x : Pusher α} : x.outcome = .refused ↔ x = .returned false := by
  cases x with
  | returned b => cases b <;> simp [outcome]
  | _ => simp [outcome]

/-- Each call of `push` is for the task of its own number, and has put it into the queue at most
once. -/
structure Owned (s : State ℕ) : Prop where
  own : ∀ p task, (s.pusher p).task = some task → task = p
  listed : ∀ p, p ∈ s.accepted ↔ (s.pusher p).outcome = .accepted
  nodup : s.accepted.Nodup

variable {s s' : State ℕ}

lemma WorkStep.pushers (hs : WorkStep s i s') : s'.accepted = s.accepted ∧
    ∀ q, (s'.pusher q).outcome = (s.pusher q).outcome ∧ (s'.pusher q).task = (s.pusher q).task := by
  cases hs <;> simp only [State.setPusher, State.setWorker, true_and] <;> grind

lemma CloseStep.pushers (hs : CloseStep n s i s') : s'.accepted = s.accepted ∧
    ∀ q, (s'.pusher q).outcome = (s.pusher q).outcome ∧ (s'.pusher q).task = (s.pusher q).task := by
  cases hs <;> simp only [State.setCloser, true_and] <;> grind

lemma PushStep.pushers (hs : PushStep n s p s') (hne : s.pusher p ≠ .idle) :
    (∀ q, q ≠ p → s'.pusher q = s.pusher q) ∧ (s'.pusher p).outcome ≠ .idle := by
  cases hs <;> simp only [State.setPusher, State.setWorker] <;> grind

lemma Owned.congr (h : Owned s) (ha : s'.accepted = s.accepted)
    (hp : ∀ q, (s'.pusher q).outcome = (s.pusher q).outcome ∧
      (s'.pusher q).task = (s.pusher q).task) :
    Owned s' := by
  refine ⟨fun p task ht => ?_, fun p => ?_, ha ▸ h.nodup⟩
  · rw [(hp p).2] at ht
    exact h.own p task ht
  · rw [ha, (hp p).1]
    exact h.listed p

lemma Owned.push (h : Owned s) (hs : PushStep n s p s') (hne : s.pusher p ≠ .idle) : Owned s' := by
  obtain ⟨hothers, -⟩ := hs.pushers hne
  have hown : ∀ task, (s'.pusher p).task = some task → task = p := by
    have := h.own p
    cases hs <;> simp only [State.setPusher, State.setWorker] at * <;> grind
  have hlist : s'.accepted = s.accepted ∧
        ((s'.pusher p).outcome = .accepted ↔ (s.pusher p).outcome = .accepted) ∨
      s'.accepted = s.accepted ++ [p] ∧ (s'.pusher p).outcome = .accepted ∧
        (s.pusher p).outcome ≠ .accepted := by
    cases hs with
    | @accept task q hp hq =>
      obtain rfl : task = p := h.own p task (by rw [hp]; rfl)
      refine .inr ⟨rfl, ?_, by rw [hp]; rintro ⟨⟩⟩
      simp [State.setPusher, Pusher.outcome]
    | _ =>
      refine .inl ⟨rfl, ?_⟩
      simp only [State.setPusher, State.setWorker]
      grind
  have hlisted := h.listed p
  refine ⟨fun q task ht => ?_, fun q => ?_, ?_⟩
  · by_cases hq : q = p
    · exact hq ▸ hown task (hq ▸ ht)
    · exact h.own q task (hothers q hq ▸ ht)
  · by_cases hq : q = p
    · subst hq
      grind
    · rw [hothers q hq]
      have := h.listed q
      grind
  · rcases hlist with ⟨ha, -⟩ | ⟨ha, -, hnot⟩
    · exact ha ▸ h.nodup
    · rw [ha]
      exact h.nodup.append (List.nodup_singleton p) (by simpa using fun hp => hnot (hlisted.mp hp))

def State.Runs (n : ℕ) (s : State ℕ) (k : ℕ) : Prop := ∃ i < n, s.worker i = .running k

lemma mem_holds {x : Worker ℕ} : k ∈ x.holds ↔ x = .notifying k ∨ x = .running k := by
  cases x <;> simp [Worker.holds, eq_comm]

lemma mem_held : k ∈ s.held n ↔ ∃ i < n, s.worker i = .notifying k ∨ s.worker i = .running k := by
  simp only [State.held, Multiset.mem_sum, Finset.mem_range, mem_holds]

lemma mem_handed (h : Inv n s) : k ∈ s.handed ↔
    k ∈ s.ran ∨ ∃ i < n, s.worker i = .notifying k ∨ s.worker i = .running k := by
  rw [← Multiset.mem_coe, h.handled, Multiset.mem_add, mem_held, Multiset.mem_coe]

lemma mem_accepted (h : Inv n s) : k ∈ s.accepted ↔ k ∈ s.queue.queue ∨
    k ∈ s.ran ∨ ∃ i < n, s.worker i = .notifying k ∨ s.worker i = .running k := by
  rw [h.ordered.order, List.mem_append, mem_handed h, or_comm]

lemma not_begun (h : Inv n s) (ho : Owned s) (hi : i < n) (hw : s.worker i = .notifying k) :
    k ∉ s.ran ∧ ¬ s.Runs n k := by
  have hnodup : (s.ran + s.held n : Multiset ℕ).Nodup := by
    rw [← h.handled, Multiset.coe_nodup]
    have := ho.nodup
    rw [h.ordered.order] at this
    exact this.of_append_left
  have hmem : k ∈ (s.worker i).holds := mem_holds.mpr (.inl hw)
  obtain ⟨-, hheld, hapart⟩ := Multiset.nodup_add.mp hnodup
  constructor
  · intro hran
    exact Multiset.disjoint_left.mp hapart hran (mem_held.mpr ⟨i, hi, .inl hw⟩)
  · rintro ⟨j, hj, hrun⟩
    have hji : j ≠ i := by
      rintro rfl
      rw [hw] at hrun
      cases hrun
    rw [State.held, ← Finset.add_sum_erase _ _ (Finset.mem_range.mpr hi)] at hheld
    obtain ⟨-, -, hother⟩ := Multiset.nodup_add.mp hheld
    refine Multiset.disjoint_left.mp hother hmem ?_
    rw [Multiset.mem_sum]
    exact ⟨j, Finset.mem_erase.mpr ⟨hji, Finset.mem_range.mpr hj⟩, mem_holds.mpr (.inr hrun)⟩

@[grind =] lemma Worker.wake_eq_running {x : Worker α} {task : α} :
    x.wake = .running task ↔ x = .running task := by
  cases x <;> simp [wake]

lemma State.runs_congr (h : ∀ j k, s'.worker j = .running k ↔ s.worker j = .running k) (k : ℕ) :
    s'.Runs n k ↔ s.Runs n k := by
  simp only [State.Runs, h]

lemma PushStep.runs (hs : PushStep n s p s') : s'.ran = s.ran ∧ ∀ k, s'.Runs n k ↔ s.Runs n k := by
  refine ⟨by cases hs <;> rfl, State.runs_congr fun j k => ?_⟩
  cases hs <;> simp only [State.setPusher, State.setWorker]
  grind

lemma CloseStep.runs (hs : CloseStep n s p s') :
    s'.ran = s.ran ∧ ∀ k, s'.Runs n k ↔ s.Runs n k := by
  refine ⟨by cases hs <;> rfl, State.runs_congr fun j k => ?_⟩
  cases hs <;> simp only [State.setCloser]
  grind

lemma WorkStep.runs (hs : WorkStep s i s')
    (h : ∀ k, s.worker i ≠ .notifying k ∧ s.worker i ≠ .running k) :
    s'.ran = s.ran ∧ ∀ k, s'.Runs n k ↔ s.Runs n k := by
  constructor
  · cases hs with
    | finish hw => exact ((h _).2 hw).elim
    | _ => rfl
  · apply State.runs_congr
    intro j k
    cases hs <;> simp only [State.setPusher, State.setWorker] <;> grind

lemma WorkStep.runs_call (hs : WorkStep s i s') (hi : i < n) (hw : s.worker i = .notifying k) :
    s'.ran = s.ran ∧ s'.Runs n k ∧ ∀ j, s.Runs n j → s'.Runs n j := by
  have hworker : s'.ran = s.ran ∧ s'.worker = Function.update s.worker i (.running k) := by
    cases hs <;> simp only [State.setPusher, State.setWorker] <;> grind
  refine ⟨hworker.1, ⟨i, hi, by rw [hworker.2, Function.update_self]⟩, ?_⟩
  rintro j ⟨a, ha, hrun⟩
  have hne : a ≠ i := by
    rintro rfl
    rw [hw] at hrun
    cases hrun
  exact ⟨a, ha, by rwa [hworker.2, Function.update_of_ne hne]⟩

lemma WorkStep.runs_finish (hs : WorkStep s i s') (hw : s.worker i = .running k) :
    s'.ran = s.ran ++ [k] ∧ ∀ j, s.Runs n j → j = k ∨ s'.Runs n j := by
  have hworker : s'.ran = s.ran ++ [k] ∧ s'.worker = Function.update s.worker i .entering := by
    cases hs <;> simp only [State.setWorker] <;> grind
  refine ⟨hworker.1, ?_⟩
  rintro j ⟨a, ha, hrun⟩
  by_cases hai : a = i
  · subst hai
    rw [hw] at hrun
    cases hrun
    exact Or.inl rfl
  · exact Or.inr ⟨a, ha, by rwa [hworker.2, Function.update_of_ne hai]⟩

end Pool

namespace Serving

variable {env : Env} {host : Endian} {n : ℕ} {s s' : State}

/-- What has become of the connections that `start()` has accepted. -/
structure Starts (s : State) : Prop where
  fresh : ∀ k, s.accepted ≤ k → (s.pool.pusher k).outcome = .idle
  held : ∀ k, s.main.holds = some k → k < s.accepted
  accepted : ∀ k, s.main = .accepted k → (s.pool.pusher k).outcome = .idle
  pushing : ∀ k, s.main = .pushing k → (s.pool.pusher k).outcome ≠ .idle
  rejecting : ∀ k, s.main = .rejecting k ∨ s.main = .dropping k →
    (s.pool.pusher k).outcome = .refused
  threw : ∀ k, s.main = .threw (some k) → k < s.accepted ∧ (s.pool.pusher k).outcome ≠ .accepted
  settled : ∀ k < s.accepted, s.main.holds = some k ∨ s.main = .threw (some k) ∨
    (s.pool.pusher k).outcome = .accepted ∨ (s.pool.pusher k).outcome = .refused
  rejected : ∀ k, s.Rejected k → s.dropped k = 1
  others : ∀ k, ¬ s.Rejected k → s.dropped k = 0

attribute [grind] Main.holds

lemma rejected_iff {k : ℕ} : s.Rejected k ↔
    (s.pool.pusher k).outcome = .refused ∧ s.main.holds ≠ some k ∧ s.main ≠ .threw (some k) := by
  rw [State.Rejected, Pool.Pusher.outcome_refused]

lemma starts_initial (max_size : ℕ) (store : Store) : Starts (.initial max_size store) := by
  constructor <;> simp [State.initial, Pool.State.initial, Pool.Pusher.outcome, Main.holds,
    State.Rejected]

lemma Starts.congr (h : Starts s) (hm : s'.main = s.main) (ha : s'.accepted = s.accepted)
    (hd : s'.dropped = s.dropped)
    (hp : ∀ k, (s'.pool.pusher k).outcome = (s.pool.pusher k).outcome) :
    Starts s' := by
  have hr : ∀ k, s'.Rejected k ↔ s.Rejected k := by
    intro k
    rw [rejected_iff, rejected_iff, hp, hm]
  obtain ⟨h₁, h₂, h₃, h₄, h₅, h₆, h₇, h₈, h₉⟩ := h
  constructor
  · simpa only [ha, hp] using h₁
  · simpa only [ha, hm] using h₂
  · simpa only [hp, hm] using h₃
  · simpa only [hp, hm] using h₄
  · simpa only [hp, hm] using h₅
  · simpa only [ha, hp, hm] using h₆
  · simpa only [ha, hp, hm] using h₇
  · simpa only [hr, hd] using h₈
  · simpa only [hr, hd] using h₉

lemma Starts.step (h : Starts s) (hs : Step env host n s s') : Starts s' := by
  obtain ⟨h₁, h₂, h₃, h₄, h₅, h₆, h₇, h₈, h₉⟩ := id h
  simp only [rejected_iff] at h₈ h₉
  cases hs with
  | start hm => constructor <;> simp only [rejected_iff] <;> grind
  | test hm => constructor <;> simp only [rejected_iff] <;> grind
  | acceptFails hm => constructor <;> simp only [rejected_iff] <;> grind
  | acceptThrows hm => constructor <;> simp only [rejected_iff] <;> grind
  | accept hm => constructor <;> simp only [rejected_iff] <;> grind
  | acceptedThrows hm => constructor <;> simp only [rejected_iff] <;> grind
  | callPush hm hp =>
    constructor <;> simp only [rejected_iff, Pool.State.setPusher] <;> grind
  | push hm hne hs =>
    obtain ⟨hothers, hmoved⟩ := hs.pushers hne
    constructor <;> simp only [rejected_iff] <;> grind
  | pushed hm hp => constructor <;> simp only [rejected_iff] <;> grind
  | rejected hm hp => constructor <;> simp only [rejected_iff] <;> grind
  | pushThrows hm hp => constructor <;> simp only [rejected_iff] <;> grind
  | warn hm => constructor <;> simp only [rejected_iff] <;> grind
  | warnThrows hm => constructor <;> simp only [rejected_iff] <;> grind
  | drop hm => constructor <;> simp only [rejected_iff] <;> grind
  | work hi hw hs => exact h.congr rfl rfl rfl fun k => (hs.pushers.2 k).1
  | call input eof hi hw hs => exact h.congr rfl rfl rfl fun k => (hs.pushers.2 k).1
  | session hi hw hc hs => exact h.congr rfl rfl rfl fun _ => rfl
  | finish hi hw hc hover hs => exact h.congr rfl rfl rfl fun k => (hs.pushers.2 k).1
  | close hs => exact h.congr rfl rfl rfl fun k => (hs.pushers.2 k).1
  | stop => exact h.congr rfl rfl rfl fun _ => rfl

/-- What the call of `handle_client` for a connection has added to `active_connections_`. -/
def State.added (s : State) (k : ℕ) : ℤ := ((s.session k).map (fun c => c.tally.active)).getD 0

structure Sessions (n : ℕ) (s : State) : Prop where
  begun : ∀ k c, s.session k = some c → k ∈ s.pool.ran ∨ s.pool.Runs n k
  ended : ∀ k ∈ s.pool.ran, s.Ended k
  accounted : ∀ k c, s.session k = some c → Tally.Accounted c.code c.tally
  active : s.store.active = ∑ k ∈ Finset.range s.accepted, s.added k

lemma next_active {o : Call} {l l' : Local} {t t' : Store} {r : Answer o}
    (h : next env o (l, t) r = some (l', t')) (a : Tally) :
    t'.active + a.active = t.active + (Tally.after o a r).active := by
  cases o <;>
    simp only [next, Rules.orThrow_eq_some, Rules.answer_eq_some, Option.map_eq_some_iff,
      Option.bind_eq_some_iff] at h <;>
    simp only [Tally.after] <;>
    grind [Option.map_eq_some_iff]

lemma loop_active {p q : Code (Exit ⊕ Bytes)} {l l' : Local} {t t' : Store} {a a' : Tally}
    (h : LoopStep (Tally.after.watch (next env)) (round host) (p, ((l, a), t))
      (q, ((l', a'), t'))) :
    t'.active + a.active = t.active + a'.active := by
  cases h with
  | inside hs =>
    cases hs with
    | call r hr =>
      obtain ⟨hnext, rfl⟩ := Monitor.watch_eq_some.mp hr
      exact next_active hnext a
  | again => rfl

lemma isOver_of_step {nx : Next Call Answer Machine} {p q : Code (Exit ⊕ Bytes)} {l l' : Local}
    {t t' : Store} {a a' : Tally}
    (h : LoopStep (Tally.after.watch nx) (round host) (p, ((l, a), t)) (q, ((l', a'), t'))) :
    Session.isOver ⟨p, l, a⟩ = false := by
  cases h with
  | inside hs =>
    cases hs with
    | call r hr => rfl
  | again => rfl

lemma sessions_initial (max_size : ℕ) (store : Store) : Sessions n (.initial max_size store) := by
  constructor <;> simp [State.initial, Pool.State.initial]

lemma Sessions.congr (h : Sessions n s) (hsession : s'.session = s.session)
    (hactive : s'.store.active = s.store.active) (haccepted : s'.accepted = s.accepted)
    (hran : s'.pool.ran = s.pool.ran) (hruns : ∀ k, s'.pool.Runs n k ↔ s.pool.Runs n k) :
    Sessions n s' := by
  obtain ⟨hbegun, hover, haccounted, hsum⟩ := h
  refine ⟨?_, ?_, ?_, ?_⟩
  · simpa only [hsession, hran, hruns] using hbegun
  · simpa only [State.Ended, hsession, hran] using hover
  · simpa only [hsession] using haccounted
  · simpa only [State.added, hsession, hactive, haccepted] using hsum

lemma Starts.known (h : Starts s) (ho : Pool.Owned s.pool) {k : ℕ} (hk : k ∈ s.pool.accepted) :
    k < s.accepted := by
  by_contra hge
  have hout := (ho.listed k).mp hk
  rw [h.fresh k (not_lt.mp hge)] at hout
  cases hout

lemma Sessions.listed (h : Sessions n s) (hp : Pool.Inv n s.pool) {k : ℕ} {c : Session}
    (hk : s.session k = some c) : k ∈ s.pool.accepted := by
  rw [Pool.mem_accepted hp]
  rcases h.begun k c hk with hran | ⟨i, hi, hrun⟩
  · exact .inr (.inl hran)
  · exact .inr (.inr ⟨i, hi, .inr hrun⟩)

/-- `handle_client` has not been called before for a connection that a worker has just taken. -/
lemma Sessions.uncalled (h : Sessions n s) (hp : Pool.Inv n s.pool)
    (ho : Pool.Owned s.pool) {i k : ℕ}
    (hi : i < n) (hw : s.pool.worker i = .notifying k) : k ∉ s.pool.ran ∧ s.session k = none := by
  obtain ⟨hnotran, hnotrun⟩ := Pool.not_begun hp ho hi hw
  refine ⟨hnotran, ?_⟩
  by_contra hne
  obtain ⟨c, hc⟩ := Option.ne_none_iff_exists'.mp hne
  rcases h.begun k c hc with hr | hr
  · exact hnotran hr
  · exact hnotrun hr

lemma Sessions.set (h : Sessions n s) {k : ℕ} {c : Session} {pool : Pool.State ℕ} {store : Store}
    (hk : k < s.accepted) (hran : pool.ran = s.pool.ran) (hnot : k ∉ s.pool.ran)
    (hruns : ∀ j, s.pool.Runs n j → pool.Runs n j) (hrun : pool.Runs n k)
    (hc : Tally.Accounted c.code c.tally)
    (hsum : store.active + s.added k = s.store.active + c.tally.active) :
    Sessions n { s with
      session := Function.update s.session k (some c)
      pool := pool
      store := store } := by
  obtain ⟨hbegun, hover, haccounted, hactive⟩ := h
  have hself : Function.update s.session k (some c) k = some c := Function.update_self ..
  have hother : ∀ j, j ≠ k → Function.update s.session k (some c) j = s.session j := fun j hj =>
    Function.update_of_ne hj ..
  refine ⟨fun j d hj => ?_, fun j hj => ?_, fun j d hj => ?_, ?_⟩
  · by_cases hjk : j = k
    · exact .inr (hjk ▸ hrun)
    · rcases hbegun j d ((hother j hjk).symm.trans hj) with hr | hr
      · exact .inl (hran ▸ hr)
      · exact .inr (hruns j hr)
  · have hj : j ∈ s.pool.ran := hran ▸ hj
    have hjk : j ≠ k := fun he => hnot (he ▸ hj)
    obtain ⟨d, hd, hdover⟩ := hover j hj
    exact ⟨d, (hother j hjk).trans hd, hdover⟩
  · by_cases hjk : j = k
    · subst hjk
      cases hself.symm.trans hj
      exact hc
    · exact haccounted j d ((hother j hjk).symm.trans hj)
  · have hadded : State.added { s with
        session := Function.update s.session k (some c), pool := pool, store := store } =
        Function.update s.added k c.tally.active := by
      funext j
      by_cases hjk : j = k
      · subst hjk
        simp [State.added]
      · simp [State.added, hjk]
    have hmem := Finset.mem_range.mpr hk
    rw [hadded, Finset.sum_update_of_mem hmem]
    rw [Finset.sum_eq_add_sum_sdiff_singleton_of_mem hmem] at hactive
    show store.active = _
    omega

lemma Sessions.step (h : Sessions n s) (hp : Pool.Inv n s.pool) (ho : Pool.Owned s.pool)
    (hst : Starts s) (hs : Step env host n s s') : Sessions n s' := by
  obtain ⟨hbegun, hover, haccounted, hactive⟩ := id h
  cases hs with
  | accept hm =>
    refine ⟨hbegun, hover, haccounted, ?_⟩
    have hnone : s.session s.accepted = none := by
      by_contra hne
      obtain ⟨c, hc⟩ := Option.ne_none_iff_exists'.mp hne
      exact lt_irrefl _ (hst.known ho (h.listed hp hc))
    simp only [Finset.sum_range_succ]
    simpa [State.added, hnone] using hactive
  | push hm hne hs => exact h.congr rfl rfl rfl hs.runs.1 hs.runs.2
  | work hi hw hs =>
    obtain ⟨hran, hruns⟩ := hs.runs hw (n := n)
    exact h.congr rfl rfl rfl hran hruns
  | close hs => exact h.congr rfl rfl rfl hs.runs.1 hs.runs.2
  | @call i k pool input eof hi hw hs =>
    obtain ⟨hran, hnew, hold⟩ := hs.runs_call hi hw
    obtain ⟨hnotran, hnone⟩ := h.uncalled hp ho hi hw
    have hk : k < s.accepted :=
      hst.known ho ((Pool.mem_accepted hp).mpr (.inr (.inr ⟨i, hi, .inl hw⟩)))
    exact h.set hk hran hnotran hold hnew Tally.accounted_handleClient
      (by simp [State.added, hnone])
  | @session i k p q l l' t t' store hi hw hc hs =>
    have hnotran : k ∉ s.pool.ran := by
      intro hran
      obtain ⟨c, hc', hcover⟩ := hover k hran
      cases hc.symm.trans hc'
      rw [isOver_of_step hs] at hcover
      cases hcover
    refine h.set (hst.known ho (h.listed hp hc)) rfl hnotran (fun _ hr => hr) ⟨i, hi, hw⟩
      ((haccounted k _ hc).step hs) ?_
    simpa [State.added, hc] using loop_active hs
  | @finish i k c pool hi hw hc hcover hs =>
    obtain ⟨hran, hruns⟩ := hs.runs_finish hw (n := n)
    refine ⟨fun j d hj => ?_, fun j hj => ?_, haccounted, hactive⟩
    · show j ∈ pool.ran ∨ _
      rw [hran, List.mem_append, List.mem_singleton]
      rcases hbegun j d hj with hr | hr
      · exact .inl (.inl hr)
      · rcases hruns j hr with rfl | hr
        · exact .inl (.inr rfl)
        · exact .inr hr
    · have hj : j ∈ pool.ran := hj
      rw [hran, List.mem_append, List.mem_singleton] at hj
      rcases hj with hj | rfl
      · exact hover j hj
      · exact ⟨c, hc, hcover⟩
  | callPush hm hp => exact h.congr rfl rfl rfl rfl fun _ => Iff.rfl
  | _ => exact h.congr rfl rfl rfl rfl fun _ => Iff.rfl

/-- What the server owes to its connections. -/
structure Released (n : ℕ) (s : State) : Prop where
  active : s.store.active = s.executing
  once : ∀ k, s.closedByClient k + s.dropped k ≤ 1
  ended : ∀ k, s.Ended k → s.closedByClient k = 1
  rejected : ∀ k, s.Rejected k → s.dropped k = 1
  settled : ∀ k < s.accepted, s.InHands n k ∨ s.Ended k ∨ s.Rejected k

/-- A step by which no exception leaves `start()` with a connection, or `handle_client` before it
has released its connection. -/
def OrderlyStep (env : Env) (host : Endian) (n : ℕ) (s s' : State) : Prop :=
  Step env host n s s' ∧ ∀ k, s'.Lost k → s.Lost k

structure Inv (n : ℕ) (s : State) : Prop where
  pool : Pool.Inv n s.pool
  owned : Pool.Owned s.pool
  starts : Starts s
  sessions : Sessions n s

lemma inv_initial (max_size : ℕ) (store : Store) : Inv n (.initial max_size store) where
  pool := Pool.inv_initial max_size
  owned := by constructor <;>
    simp [State.initial, Pool.State.initial, Pool.Pusher.task, Pool.Pusher.outcome]
  starts := starts_initial max_size store
  sessions := sessions_initial max_size store

lemma owned_step (ho : Pool.Owned s.pool) (hs : Step env host n s s') : Pool.Owned s'.pool := by
  cases hs with
  | @callPush k hm hk =>
    obtain ⟨hown, hlisted, hnodup⟩ := ho
    have hlisted' := hlisted k
    rw [hk] at hlisted'
    refine ⟨?_, ?_, hnodup⟩ <;> simp only [Pool.State.setPusher] <;> grind
  | push hm hne hs => exact ho.push hs hne
  | work hi hw hs => exact ho.congr hs.pushers.1 hs.pushers.2
  | call input eof hi hw hs => exact ho.congr hs.pushers.1 hs.pushers.2
  | finish hi hw hc hover hs => exact ho.congr hs.pushers.1 hs.pushers.2
  | close hs => exact ho.congr hs.pushers.1 hs.pushers.2
  | _ => exact ho

lemma pool_step (hp : Pool.Inv n s.pool) (hs : Step env host n s s') : Pool.Inv n s'.pool := by
  cases hs with
  | callPush hm hk => exact hp.step (.push _ (.call _ hk))
  | push hm hne hs => exact hp.step (.push _ hs)
  | work hi hw hs => exact hp.step (.work _ hi hs)
  | call input eof hi hw hs => exact hp.step (.work _ hi hs)
  | finish hi hw hc hover hs => exact hp.step (.work _ hi hs)
  | close hs => exact hp.step (.close _ hs)
  | _ => exact hp

lemma Inv.step (h : Inv n s) (hs : Step env host n s s') : Inv n s' where
  pool := pool_step h.pool hs
  owned := owned_step h.owned hs
  starts := h.starts.step hs
  sessions := h.sessions.step h.pool h.owned h.starts hs

lemma Inv.run (h : Inv n s) (hr : Run env host n s s') : Inv n s' := by
  induction hr with
  | refl => exact h
  | tail _ hs ih => exact ih.step hs

/-- An exception has left `handle_client` before it has released its connection. -/
def State.Left (s : State) (k : ℕ) : Prop :=
  ∃ c e, s.session k = some c ∧ c.code = .throw e ∧ c.tally.closed = 0

lemma left_iff {c : Session} (h : Tally.Accounted c.code c.tally) :
    (c.isOver = true ∧ c.tally.active = 1) ↔ ∃ e, c.code = .throw e ∧ c.tally.closed = 0 := by
  obtain ⟨code, l, t⟩ := c
  cases code with
  | op o k => simp [Session.isOver]
  | pure x =>
    rcases x with exit | user
    · have ht : t = ⟨0, 1⟩ := h
      simp [Session.isOver, ht]
    · simp [Session.isOver]
  | throw e =>
    rcases h with h | h
    · simp [Session.isOver, show t = ⟨1, 0⟩ from h]
    · simp [Session.isOver, show t = ⟨0, 1⟩ from h]

open scoped Classical in
lemma added_eq (h : Sessions n s) (k : ℕ) : s.added k =
    (if (s.session k).any Session.isExecuting = true then 1 else 0) +
    (if s.Left k then 1 else 0) := by
  cases hc : s.session k with
  | none => simp [State.added, State.Left, hc]
  | some c =>
    have hleft : s.Left k ↔ c.isOver = true ∧ c.tally.active = 1 := by
      rw [left_iff (h.accounted k c hc)]
      simp [State.Left, hc]
    have hfair := (h.accounted k c hc).fair
    simp only [State.added, hc, Option.map_some, Option.getD_some, Option.any_some, hleft,
      Session.isExecuting]
    rcases hfair.active with ha | ha <;> simp only [ha] <;> cases c.isOver <;> simp

open scoped Classical in
lemma active_eq (h : Sessions n s) : s.store.active =
    s.executing + ((Finset.range s.accepted).filter s.Left).card := by
  rw [h.active, State.executing, Nat.count_eq_card_filter_range, Finset.natCast_card_filter,
    Finset.natCast_card_filter, ← Finset.sum_add_distrib]
  exact Finset.sum_congr rfl fun k _ => added_eq h k

lemma Inv.released (h : Inv n s) (hl : ∀ k, ¬ s.Lost k) : Released n s := by
  classical
  have hnotleft : ∀ k, ¬ s.Left k := fun k hk => hl k (.inr hk)
  refine ⟨?_, fun k => ?_, fun k hk => ?_, h.starts.rejected, fun k hk => ?_⟩
  · rw [active_eq h.sessions, Finset.filter_false_of_mem fun k _ => hnotleft k]
    simp
  · cases hc : s.session k with
    | none =>
      have hdropped : s.dropped k ≤ 1 := by
        by_cases hr : s.Rejected k
        · exact (h.starts.rejected k hr).le
        · exact (h.starts.others k hr).trans_le zero_le_one
      simpa [State.closedByClient, hc] using hdropped
    | some c =>
      have hnotrejected : ¬ s.Rejected k := by
        rw [rejected_iff, (h.owned.listed k).mp (h.sessions.listed h.pool hc)]
        nofun
      rw [h.starts.others k hnotrejected]
      simpa [State.closedByClient, hc] using (h.sessions.accounted k c hc).fair.closed
  · obtain ⟨c, hc, hover⟩ := hk
    have hends := h.sessions.accounted k c hc
    rw [State.closedByClient, hc, Option.map_some, Option.getD_some]
    obtain ⟨code, l, t⟩ := c
    cases code with
    | op o k => cases hover
    | pure x =>
      rcases x with exit | user
      · exact congrArg Tally.closed (show t = ⟨0, 1⟩ from hends)
      · cases hover
    | throw e =>
      rcases hends with ht | ht
      · exact (hnotleft k ⟨_, e, hc, rfl, congrArg Tally.closed ht⟩).elim
      · exact congrArg Tally.closed ht
  · by_cases hheld : s.main.holds = some k
    · exact .inl (.inl hheld)
    rcases h.starts.settled k hk with hm | hm | ho | ho
    · exact (hheld hm).elim
    · exact (hl k (.inl hm)).elim
    · rcases (Pool.mem_accepted h.pool).mp ((h.owned.listed k).mpr ho) with hq | hr | hw
      · exact .inl (.inr (.inl hq))
      · exact .inr (.inl (h.sessions.ended k hr))
      · exact .inl (.inr (.inr hw))
    · exact .inr (.inr (rejected_iff.mpr ⟨ho, hheld, fun hm => hl k (.inl hm)⟩))

lemma Inv.unreleased (h : Inv n s) {k : ℕ} (hl : s.Lost k) : ¬ Released n s := by
  classical
  intro hr
  rcases hl with hm | hleft
  · obtain ⟨hk, hnot⟩ := h.starts.threw k hm
    have hnotlisted : k ∉ s.pool.accepted := fun hmem => hnot ((h.owned.listed k).mp hmem)
    rcases hr.settled k hk with (hheld | hq | hw) | ⟨c, hc, -⟩ | hrejected
    · rw [hm] at hheld
      cases hheld
    · exact hnotlisted ((Pool.mem_accepted h.pool).mpr (.inl hq))
    · exact hnotlisted ((Pool.mem_accepted h.pool).mpr (.inr (.inr hw)))
    · exact hnotlisted (h.sessions.listed h.pool hc)
    · exact hrejected.2.2 hm
  · obtain ⟨c, e, hc, -⟩ := id hleft
    have hk : k < s.accepted := h.starts.known h.owned (h.sessions.listed h.pool hc)
    have hmem : k ∈ (Finset.range s.accepted).filter s.Left :=
      Finset.mem_filter.mpr ⟨Finset.mem_range.mpr hk, hleft⟩
    have hpos := Finset.card_pos.mpr ⟨k, hmem⟩
    have hactive := hr.active
    rw [active_eq h.sessions] at hactive
    omega

lemma Inv.lost (h : Inv n s) (hs : Step env host n s s') {k : ℕ} (hl : s.Lost k) : s'.Lost k := by
  rcases hl with hm | ⟨c, e, hc, hcode, hclosed⟩
  · refine .inl ?_
    cases hs <;> first | exact hm | simp_all
  · have hkeep : s'.session k = s.session k → s'.Lost k := fun hk =>
      .inr ⟨c, e, hk.trans hc, hcode, hclosed⟩
    cases hs with
    | @call i j pool input eof hi hw hs =>
      have hjk : k ≠ j := by
        rintro rfl
        rw [(h.sessions.uncalled h.pool h.owned hi hw).2] at hc
        cases hc
      exact hkeep (Function.update_of_ne hjk ..)
    | @session i j p q l l' t t' store hi hw hj hs =>
      have hjk : k ≠ j := by
        rintro rfl
        cases hc.symm.trans hj
        have hover := isOver_of_step hs
        rw [Session.isOver, hcode] at hover
        cases hover
      exact hkeep (Function.update_of_ne hjk ..)
    | _ => exact hkeep rfl

lemma Inv.orderly (h : Inv n s) (hr : Run env host n s s') (hl : ∀ k, ¬ s'.Lost k) :
    ReflTransGen (OrderlyStep env host n) s s' := by
  induction hr with
  | refl => exact .refl
  | tail hrun hs ih =>
    have hbefore := fun k hk => hl k ((h.run hrun).lost hs hk)
    exact (ih hbefore).tail ⟨hs, fun k hk => (hl k hk).elim⟩

/-- The connections are counted and released as they should be as long as no exception leaves
`start()` or `handle_client` with a connection that is not released. -/
theorem released_iff (env : Env) (host : Endian) (n max_size : ℕ) (store : Store) (s : State)
    (h : Run env host n (.initial max_size store) s) :
    Released n s ↔ ReflTransGen (OrderlyStep env host n) (.initial max_size store) s := by
  have hinv := (inv_initial max_size store).run h
  constructor
  · intro hr
    exact (inv_initial max_size store).orderly h fun k hk => hinv.unreleased hk hr
  · intro hr
    refine hinv.released ?_
    clear h hinv
    induction hr with
    | refl => simp [State.Lost, State.initial]
    | tail _ hs ih => exact fun k hk => ih k (hs.2 k hk)

lemma run_session {i k : ℕ} {p q : Code (Exit ⊕ Bytes)} {l l' : Local} {t t' : Tally}
    {store : Store}
    (hi : i < n) (hw : s.pool.worker i = .running k) (hc : s.session k = some ⟨p, l, t⟩)
    (h : Steps (Tally.after.watch (next env)) (p, ((l, t), s.store)) (q, ((l', t'), store))) :
    Run env host n s { s with
      session := Function.update s.session k (some ⟨q, l', t'⟩)
      store := store } := by
  generalize ha : (p, ((l, t), s.store)) = a at h
  generalize hb : (q, ((l', t'), store)) = b at h
  induction h generalizing q l' t' store with
  | refl =>
    cases ha
    cases hb
    rw [← hc, Function.update_eq_self]
  | @tail c _ _ hs ih =>
    obtain ⟨q₁, ⟨l₁, t₁⟩, store₁⟩ := c
    cases hb
    refine (ih rfl).tail ?_
    have hstep := @Step.session env host n { s with
      session := Function.update s.session k (some ⟨q₁, l₁, t₁⟩), store := store₁ } i k _ _
        _ _ _ _ _ hi hw
      (Function.update_self ..) (.inside hs)
    simpa using hstep

/-- A connection has been accepted and queued, and a worker has called `handle_client` for it. -/
structure Called (host : Endian) (store : Store) (input : Bytes) (s : State) : Prop where
  main : s.main = .testing
  accepted : s.accepted = 1
  worker : s.pool.worker 0 = .running 0
  session : s.session = Function.update (fun _ => none) 0
    (some ⟨handleClient host, .fresh 0 input true, ⟨0, 0⟩⟩)
  store : s.store = { store with running := true, active := 0 }

lemma exists_called (env : Env) (host : Endian) (store : Store) (input : Bytes) :
    ∃ s, Run env host 1 (.initial 64 store) s ∧ Called host store input s := by
  refine ⟨_, .head (.start rfl) <| .head (.test rfl) <| .head (.accept rfl) <|
    .head (.callPush rfl rfl) <| .head (.push rfl (by rintro ⟨⟩) (.lock (.inl rfl) rfl)) <|
    .head (.push rfl (by rintro ⟨⟩) (.pass rfl rfl)) <|
      .head (.push rfl (by rintro ⟨⟩) (.accept rfl rfl)) <|
    .head (.push rfl (by rintro ⟨⟩) (.notifyNobody rfl ?_)) <| .head (.pushed rfl rfl) <|
    .head (.work Nat.one_pos (fun _ => ⟨(by rintro ⟨⟩), (by rintro ⟨⟩)⟩) (.lock (.inl rfl) rfl)) <|
    .head (.work Nat.one_pos (fun _ => ⟨(by rintro ⟨⟩), (by rintro ⟨⟩)⟩) (.pass rfl rfl)) <|
    .head (.work Nat.one_pos (fun _ => ⟨(by rintro ⟨⟩), (by rintro ⟨⟩)⟩) (.take rfl rfl)) <|
    .head (.call input true Nat.one_pos rfl (.notifyNobody rfl ?_)) .refl, rfl, rfl, rfl, rfl, rfl⟩
  · intro i hi
    simp [Pool.State.setPusher, Pool.State.initial, State.initial]
  · intro p task
    simp only [Pool.State.setPusher, Pool.State.setWorker, Pool.State.initial, State.initial,
      Function.update_apply]
    split <;> rintro ⟨⟩

/-- The call, with its calls answered as `pick` says. -/
def served (env : Env) (input : Bytes) (pick : (o : Call) → Machine → Answer o) :
    Option (Prog.Running Call Answer Exn (Exit ⊕ Bytes) ((Local × Tally) × Store)) :=
  follow (fun o m => pick o (m.1.1, m.2)) (Tally.after.watch (next env)) 30 (handleClient .little)
    ((.fresh 0 input true, ⟨0, 0⟩), { Store.fresh (.ofDir [driveRoot 0x43]) with active := 0 })

lemma exists_served {env : Env} {input : Bytes} {pick : (o : Call) → Machine → Answer o}
    {q : Code (Exit ⊕ Bytes)} {l : Local} {t : Tally} {store : Store}
    (h : served env input pick = some (q, ((l, t), store))) :
    ∃ s, Run env .little 1 (.initial 64 (.fresh (.ofDir [driveRoot 0x43]))) s ∧ s.main = .testing ∧
      s.accepted = 1 ∧ s.session = Function.update (fun _ => none) 0 (some ⟨q, l, t⟩) := by
  obtain ⟨s, hrun, hcalled⟩ := exists_called env .little (.fresh (.ofDir [driveRoot 0x43])) input
  have hsteps : Steps (Tally.after.watch (next env)) (handleClient .little,
      ((.fresh 0 input true, ⟨0, 0⟩), s.store)) (q, ((l, t), store)) := by
    rw [hcalled.store]
    exact steps_of_follow h
  have hc : s.session 0 = some ⟨handleClient .little, .fresh 0 input true, ⟨0, 0⟩⟩ := by
    rw [hcalled.session, Function.update_self]
  refine ⟨_, hrun.trans (run_session Nat.one_pos hcalled.worker hc hsteps), hcalled.main,
    hcalled.accepted, ?_⟩
  rw [hcalled.session, Function.update_idem]

/-- The session has ended, and not with an exception. -/
def isExit : Code (Exit ⊕ Bytes) → Bool
  | .pure (.inl _) => true
  | _ => false

/-- A client that connects and sends nothing. -/
theorem released_one : ∃ s, s.Ended 0 ∧ Released 1 s := by
  have hend : (served .atRoot [] (oblige .atRoot)).any (fun c => isExit c.1) = true := by
    decide +kernel
  obtain ⟨⟨q, ⟨l, t⟩, store⟩, hserved, hq⟩ := (Option.any_eq_true _ _).mp hend
  obtain ⟨s, hrun, hm, -, hsession⟩ := exists_served hserved
  have hcode : ∃ exit, q = .pure (.inl exit) := by
    rcases q with (exit | user) | e | ⟨o, k⟩
    · exact ⟨exit, rfl⟩
    all_goals cases hq
  obtain ⟨exit, rfl⟩ := hcode
  have hnotlost : ∀ k, ¬ s.Lost k := by
    rintro k (hk | ⟨c, e, hc, he, -⟩)
    · rw [hm] at hk
      cases hk
    · rw [hsession, Function.update_apply] at hc
      split at hc
      · cases hc
        cases he
      · cases hc
  refine ⟨s, ⟨_, by rw [hsession, Function.update_self], rfl⟩, ?_⟩
  exact (released_iff .atRoot .little 1 64 _ s hrun).mpr ((inv_initial 64 _).orderly hrun hnotlost)

def littleMemory : Env := ⟨Env.atRoot.cwd, { Faults.none with alloc := true }⟩

/-- A LOGIN with a payload of `2 ^ 63` bytes announced. -/
def hugeLogin : Bytes := wireHeader ⟨CommandType.login.code, 0, 0x8000000000000000, 0, 0⟩

/-- When the buffer for it cannot be had, the connection stays open and counted for good. -/
theorem not_released : ¬ ∀ (env : Env) (host : Endian) (n max_size : ℕ) (store : Store) (s : State),
    Run env host n (.initial max_size store) s → Released n s := by
  intro hall
  have hend : (served littleMemory hugeLogin (fun o m => match o with
      | .alloc _ => .error .badAlloc
      | o => oblige littleMemory o m)).any (fun c => match c.1 with
        | .throw _ => c.2.1.2.closed == 0
        | _ => false) = true := by decide +kernel
  obtain ⟨⟨q, ⟨l, t⟩, store⟩, hserved, hq⟩ := (Option.any_eq_true _ _).mp hend
  obtain ⟨s, hrun, -, -, hsession⟩ := exists_served hserved
  have hcode : ∃ e, q = .throw e ∧ t.closed = 0 := by
    rcases q with a | e | ⟨o, k⟩
    · cases hq
    · exact ⟨e, rfl, eq_of_beq hq⟩
    · cases hq
  obtain ⟨e, rfl, hclosed⟩ := hcode
  have hlost : s.Lost 0 := .inr ⟨_, e, by rw [hsession, Function.update_self], rfl, hclosed⟩
  exact ((inv_initial 64 _).run hrun).unreleased hlost (hall _ _ _ _ _ s hrun)

end Serving

end Mtfss
