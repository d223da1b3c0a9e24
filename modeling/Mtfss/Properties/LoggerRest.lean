import Mtfss.Effects.Termination
import Mtfss.Properties.LoggedOrder
import Mtfss.Properties.LoggerShutdown

/-! Left to itself the logger comes to rest, with all it was given written. -/

namespace Mtfss.Logger

open Effects Relation

variable {m : ℕ} {s s' : State}

/-- The worker has `mutex_`. -/
def Worker.Locks : Worker → Prop
  | .testing | .tested | .passed => True
  | _ => False

@[simp, grind =] lemma Worker.locks_wake (x : Worker) : x.wake.Locks ↔ x.Locks := by
  cases x <;> rfl

@[grind =] lemma Worker.wake_eq_tested (x : Worker) : x.wake = .tested ↔ x = .tested := by
  cases x <;> simp [wake]

@[grind =] lemma Worker.wake_eq_passed (x : Worker) : x.wake = .passed ↔ x = .passed := by
  cases x <;> simp [wake]

@[grind .] lemma Worker.wake_ne_asleep (x : Worker) : x.wake ≠ .asleep := by
  cases x <;> nofun

/-- The call has `mutex_`. -/
def Caller.Locks : Caller → Prop
  | .inside _ => True
  | _ => False

/-- The call is about to wake the worker. -/
def Caller.Wakes : Caller → Prop
  | .notifying _ => True
  | _ => False

/-- Who has `mutex_`, and what the worker knows of the queue. -/
structure Locked (s : State) : Prop where
  caller : ∀ c, s.owner = some (.caller c) ↔ (s.caller c).Locks
  worker : s.owner = some .worker ↔ s.worker.Locks
  tested : s.worker = .tested → s.queue = []
  passed : s.worker = .passed → s.mayGo = true
  /-- Nothing is left in the queue of a worker that is asleep, or a call is about to wake it. -/
  asleep : s.worker = .asleep → s.queue = [] ∨ ∃ c, (s.caller c).Wakes
  ended : s.destructor = .ended → s.worker = .returned
  stopped : s.destructor ≠ .notBegun → s.destructor ≠ .setting → s.running = false

section Locked

lemma locked_initial : Locked .initial :=
  ⟨by simp [State.initial, Caller.Locks], by simp [State.initial, Worker.Locks], nofun, nofun,
    nofun, nofun, fun h => (h rfl).elim⟩

lemma exists_wakes {call : ℕ → Caller} {c : ℕ} {x : Caller} (hx : (call c).Wakes → x.Wakes)
    (h : ∃ d, (call d).Wakes) : ∃ d, (Function.update call c x d).Wakes := by
  obtain ⟨d, hd⟩ := h
  by_cases hdc : d = c
  · subst hdc
    exact ⟨d, by rw [Function.update_self]; exact hx hd⟩
  · exact ⟨d, by rwa [Function.update_of_ne hdc]⟩

lemma CallStep.locked {c : ℕ} (h : Locked s) (hs : CallStep s c s') : Locked s' := by
  obtain ⟨hcaller, hworker, htested, hpassed, hasleep, hended, hstopped⟩ := h
  have hown := hcaller c
  have hkept : ∀ {x : Caller}, ((s.caller c).Wakes → x.Wakes) → s.worker = .asleep →
      s.queue = [] ∨ ∃ d, (Function.update s.caller c x d).Wakes :=
    fun hx hw => (hasleep hw).imp_right (exists_wakes hx)
  refine ⟨fun d => ?_, ?_, ?_, ?_, ?_, ?_, ?_⟩
  · have hd := hcaller d
    cases hs <;> simp only [State.setCaller] at * <;> grind [Caller.Locks]
  · cases hs <;> simp only [State.setCaller] at * <;> grind [Caller.Locks]
  · cases hs <;> simp only [State.setCaller] at * <;> grind [Worker.Locks, Caller.Locks]
  · cases hs <;> simp only [State.setCaller, State.mayGo] at * <;>
      grind [Worker.Locks, Caller.Locks]
  · cases hs with
    | push hc => exact fun _ => Or.inr ⟨c, by simp [State.setCaller, Caller.Wakes]⟩
    | notify hc => exact fun hw => (Worker.wake_ne_asleep _ hw).elim
    | call _ _ _ _ _ hc => exact hkept (by simp [hc, Caller.Wakes])
    | fail hc => exact hkept (by simp [hc, Caller.Wakes])
    | lock hc => exact hkept (by simp [hc, Caller.Wakes])
    | throw hc => exact hkept (by simp [hc, Caller.Wakes])
  · cases hs <;> simp only [State.setCaller] at * <;> grind
  · cases hs <;> exact hstopped

lemma WorkStep.locked (h : Locked s) (hs : WorkStep s s') : Locked s' := by
  obtain ⟨hcaller, hworker, htested, hpassed, hasleep, hended, hstopped⟩ := h
  refine ⟨fun d => ?_, ?_, ?_, ?_, ?_, ?_, ?_⟩
  · have hd := hcaller d
    cases hs <;> grind [Worker.Locks]
  · cases hs <;> grind [Worker.Locks]
  · cases hs <;> grind [State.mayGo, List.isEmpty_iff]
  · cases hs <;> grind [State.mayGo]
  · cases hs <;> grind
  · cases hs <;> grind
  · cases hs <;> exact hstopped

lemma EndStep.locked (h : Locked s) (hs : EndStep s s') : Locked s' := by
  obtain ⟨hcaller, hworker, htested, hpassed, hasleep, hended, hstopped⟩ := h
  refine ⟨fun d => ?_, ?_, ?_, ?_, ?_, ?_, ?_⟩
  · have hd := hcaller d
    cases hs <;> grind
  · cases hs <;> grind
  · cases hs <;> grind
  · cases hs <;> grind [State.mayGo]
  · cases hs <;> grind
  · cases hs <;> grind
  · cases hs <;> grind

lemma locked_run (h : Run .initial s) : Locked s := by
  induction h with
  | refl => exact locked_initial
  | tail _ hs ih =>
    rcases hs with ⟨c, hs⟩ | hs | hs
    · exact hs.locked ih
    · exact hs.locked ih
    · exact hs.locked ih

end Locked

/-- A step of the logger by itself: no new call of `log`, no beginning of `~Logger`, no wake-up for
no reason. -/
inductive InnerStep (s s' : State) : Prop
  | call (c : ℕ) : CallStep s c s' → s.caller c ≠ .idle → InnerStep s s'
  | work : WorkStep s s' → s.worker ≠ .asleep → InnerStep s s'
  | finish : EndStep s s' → s.destructor ≠ .notBegun → InnerStep s s'

lemma InnerStep.step (h : InnerStep s s') : Step s s' := by
  cases h with
  | call c hs => exact .call c hs
  | work hs => exact .work hs
  | finish hs => exact .finish hs

section Effort

def Caller.effort : Caller → ℕ
  | .entering _ => 12
  | .inside _ => 11
  | .notifying _ => 4
  | .idle | .returned _ | .threw => 0

def Worker.effort : Worker → ℕ
  | .writing _ => 6
  | .heading => 5
  | .draining => 4
  | .entering | .woken => 3
  | .testing => 2
  | .tested | .passed => 1
  | .asleep | .returned => 0

def Destructor.effort : Destructor → ℕ
  | .setting => 6
  | .notifying => 5
  | .joining => 1
  | .notBegun | .ended => 0

/-- What the first `m` calls, the worker and `~Logger` can still do. -/
def State.effort (m : ℕ) (s : State) : ℕ :=
  ∑ c ∈ Finset.range m, (s.caller c).effort + 6 * s.queue.length + s.worker.effort +
    s.destructor.effort

lemma Worker.effort_wake_le (x : Worker) : x.wake.effort ≤ x.effort + 3 := by
  cases x <;> simp [wake, effort]

/-- Of the calls of `log` only the first `m` have begun. -/
def FewCallers (m : ℕ) (s : State) : Prop := ∀ c, m ≤ c → s.caller c = .idle

lemma CallStep.others {c d : ℕ} (hs : CallStep s c s') (hd : d ≠ c) : s'.caller d = s.caller d := by
  cases hs <;> exact Function.update_of_ne hd _ _

lemma CallStep.effort_lt {c : ℕ} (hs : CallStep s c s') (hc : c < m) (hbusy : s.caller c ≠ .idle) :
    s'.effort m < s.effort m := by
  have hsum := sum_update_add Caller.effort s.caller hc (s'.caller c)
  have hwake := s.worker.effort_wake_le
  cases hs with
  | call _ _ _ _ _ hidle => exact (hbusy hidle).elim
  | fail hidle => exact (hbusy hidle).elim
  | _ hcall =>
    simp only [State.effort, State.setCaller, Function.update_self, hcall, Caller.effort,
      List.length_append, List.length_singleton] at hsum ⊢
    omega

lemma WorkStep.effort_lt (hs : WorkStep s s') (hawake : s.worker ≠ .asleep) :
    s'.effort m < s.effort m := by
  cases hs with
  | wake hw => exact (hawake hw).elim
  | take hw hq =>
    simp only [State.effort, hw, hq, Worker.effort, List.length_cons]
    omega
  | lock hw =>
    rcases hw with hw | hw <;> simp [State.effort, hw, Worker.effort]
  | _ hw => simp [State.effort, hw, Worker.effort]

lemma EndStep.effort_lt (hs : EndStep s s') (hbegun : s.destructor ≠ .notBegun) :
    s'.effort m < s.effort m := by
  cases hs with
  | begin hd => exact (hbegun hd).elim
  | set hd => simp [State.effort, hd, Destructor.effort]
  | notify hd =>
    have hwake := s.worker.effort_wake_le
    simp only [State.effort, hd, Destructor.effort]
    omega
  | join hd => simp [State.effort, hd, Destructor.effort]

lemma InnerStep.effort_lt (h : InnerStep s s') (hm : FewCallers m s) :
    s'.effort m < s.effort m ∧ FewCallers m s' := by
  cases h with
  | call c hs hbusy =>
    have hc : c < m := by
      by_contra hge
      exact hbusy (hm c (not_lt.mp hge))
    refine ⟨hs.effort_lt hc hbusy, fun d hd => ?_⟩
    have hne : d ≠ c := by omega
    exact (hs.others hne).trans (hm d hd)
  | work hs hawake =>
    refine ⟨hs.effort_lt hawake, fun d hd => ?_⟩
    rw [← hm d hd]
    cases hs <;> rfl
  | finish hs hbegun =>
    refine ⟨hs.effort_lt hbegun, fun d hd => ?_⟩
    rw [← hm d hd]
    cases hs <;> rfl

lemma fewCallers_run (h : Run .initial s) : ∃ m, FewCallers m s := by
  induction h with
  | refl => exact ⟨0, fun _ _ => rfl⟩
  | tail _ hs ih =>
    obtain ⟨m, hm⟩ := ih
    rcases hs with ⟨c, hs⟩ | hs | hs
    · refine ⟨max m (c + 1), fun d hd => ?_⟩
      have hne : d ≠ c := by omega
      exact (hs.others hne).trans (hm d (by omega))
    · refine ⟨m, fun d hd => ?_⟩
      rw [← hm d hd]
      cases hs <;> rfl
    · refine ⟨m, fun d hd => ?_⟩
      rw [← hm d hd]
      cases hs <;> rfl

end Effort

/-- Every call has ended, and what has been pushed is written or, after the end of the worker, still
in the queue. The worker is asleep only when there is nothing to do, or was missed by `~Logger`. -/
structure Rest (s : State) : Prop where
  callers : ∀ c, s.caller c = .idle ∨ (∃ msg, s.caller c = .returned msg) ∨ s.caller c = .threw
  written : s.entered.map LogMessage.output = s.output ++ s.queue.map LogMessage.output
  worker : s.worker = .asleep ∧ s.queue = [] ∧ (s.destructor = .notBegun ∨ Stuck s) ∨
    s.worker = .returned ∧ s.destructor = .ended

section Rest

lemma worker_goes (h : Locked s) (hlocks : s.worker.Locks) : ∃ s', WorkStep s s' := by
  cases hw : s.worker with
  | testing =>
    cases hgo : s.mayGo with
    | false => exact ⟨_, .fail hw hgo⟩
    | true => exact ⟨_, .pass hw hgo⟩
  | tested => exact ⟨_, .sleep hw⟩
  | passed =>
    have hgo := h.passed hw
    cases hq : s.queue with
    | nil => exact ⟨_, .quit hw (by simpa [State.mayGo, hq] using hgo) hq⟩
    | cons msg rest => exact ⟨_, .take hw hq⟩
  | _ => exact (hw ▸ hlocks).elim

variable (hlast : ∀ s', ¬ InnerStep s s')
include hlast

lemma owner_last (h : Locked s) : s.owner = none := by
  cases howner : s.owner with
  | none => rfl
  | some t =>
    cases t with
    | caller c =>
      have hlocks := (h.caller c).mp howner
      cases hc : s.caller c with
      | inside msg => exact (hlast _ (.call c (.push hc) (by rw [hc]; nofun))).elim
      | _ => exact (hc ▸ hlocks).elim
    | worker =>
      have hlocks := h.worker.mp howner
      obtain ⟨s', hs⟩ := worker_goes h hlocks
      refine (hlast s' (.work hs ?_)).elim
      intro hasleep
      exact (hasleep ▸ hlocks).elim

lemma callers_last (h : Locked s) (c : ℕ) :
    s.caller c = .idle ∨ (∃ msg, s.caller c = .returned msg) ∨ s.caller c = .threw := by
  have howner := owner_last hlast h
  cases hc : s.caller c with
  | idle => exact Or.inl rfl
  | returned msg => exact Or.inr (Or.inl ⟨msg, rfl⟩)
  | threw => exact Or.inr (Or.inr rfl)
  | entering msg => exact (hlast _ (.call c (.lock hc howner) (by rw [hc]; nofun))).elim
  | inside msg => exact (hlast _ (.call c (.push hc) (by rw [hc]; nofun))).elim
  | notifying msg => exact (hlast _ (.call c (.notify hc) (by rw [hc]; nofun))).elim

lemma worker_last (h : Locked s) : s.worker = .asleep ∨ s.worker = .returned := by
  have howner := owner_last hlast h
  by_cases hasleep : s.worker = .asleep
  · exact Or.inl hasleep
  have hstep : ∀ s', ¬ WorkStep s s' := fun s' hs => hlast s' (.work hs hasleep)
  have hfree : ¬ s.worker.Locks := by
    intro hlocks
    cases howner.symm.trans (h.worker.mpr hlocks)
  cases hw : s.worker with
  | asleep => exact Or.inl rfl
  | returned => exact Or.inr rfl
  | heading =>
    cases hr : s.running with
    | true => exact (hstep _ (.goOn hw hr)).elim
    | false => exact (hstep _ (.stop hw hr)).elim
  | draining =>
    by_cases hq : s.queue = []
    · exact (hstep _ (.leave hw hq)).elim
    · exact (hstep _ (.drain hw hq)).elim
  | entering => exact (hstep _ (.lock (Or.inl hw) howner)).elim
  | woken => exact (hstep _ (.lock (Or.inr hw) howner)).elim
  | writing msg => exact (hstep _ (.write hw)).elim
  | _ => exact (hfree (hw ▸ trivial)).elim

lemma destructor_last (h : Locked s) : s.destructor = .notBegun ∨
    s.destructor = .joining ∧ s.worker ≠ .returned ∨ s.destructor = .ended ∧
      s.worker = .returned := by
  cases hd : s.destructor with
  | notBegun => exact Or.inl rfl
  | setting => exact (hlast _ (.finish (.set hd) (by rw [hd]; nofun))).elim
  | notifying => exact (hlast _ (.finish (.notify hd) (by rw [hd]; nofun))).elim
  | joining =>
    refine Or.inr (Or.inl ⟨rfl, fun hw => ?_⟩)
    exact hlast _ (.finish (.join hd hw) (by rw [hd]; nofun))
  | ended => exact Or.inr (Or.inr ⟨rfl, h.ended hd⟩)

lemma rest_last (h : Locked s) (hordered : Ordered s) (hflagged : Flagged s) : Rest s := by
  have hcallers := callers_last hlast h
  have hpending : ∀ c, ¬ (s.caller c).Wakes := by
    intro c
    rcases hcallers c with hc | ⟨msg, hc⟩ | hc <;> rw [hc] <;> exact id
  have hworker := worker_last hlast h
  refine ⟨hcallers, ?_, ?_⟩
  · obtain ⟨written, hout, hentered⟩ := hordered
    have hhand : s.worker.hand = [] := by
      rcases hworker with hw | hw <;> rw [hw] <;> rfl
    rw [hentered, hout, hhand, List.append_nil, List.map_append]
  rcases hworker with hw | hw
  · have hqueue : s.queue = [] := (h.asleep hw).resolve_right fun ⟨c, hc⟩ => hpending c hc
    refine Or.inl ⟨hw, hqueue, ?_⟩
    rcases destructor_last hlast h with hd | ⟨hd, -⟩ | ⟨-, hreturned⟩
    · exact Or.inl hd
    · refine Or.inr ⟨Or.inl hd, hw, ?_, hqueue, fun c msg hc => hpending c (hc ▸ trivial)⟩
      exact h.stopped (by rw [hd]; nofun) (by rw [hd]; nofun)
    · cases hw.symm.trans hreturned
  · refine Or.inr ⟨hw, ?_⟩
    rcases destructor_last hlast h with hd | ⟨-, hne⟩ | ⟨hd, -⟩
    · have hrunning := hflagged.flag (Or.inl hd)
      cases hrunning.symm.trans (hflagged.leaving (Or.inr hw))
    · exact (hne hw).elim
    · exact hd

end Rest

/-- From every state of every run the logger, left to itself, comes after finitely many steps to
where it can only wait for a call or for its end, and then every message that has been pushed is
written, but for those that come after the end of the worker. -/
theorem rests_of_run (s : State) (h : Run .initial s) : Acc (fun s' s => InnerStep s s') s ∧
    (∃ t, ReflTransGen InnerStep s t ∧ ∀ t', ¬ InnerStep t t') ∧
      ∀ t, ReflTransGen InnerStep s t → (∀ t', ¬ InnerStep t t') → Rest t := by
  obtain ⟨m, hm⟩ := fewCallers_run h
  have hacc : Acc (fun s' s => InnerStep s s') s :=
    acc_of_lt Nat.lt_wfRel.wf (f := State.effort m) (P := FewCallers m)
      (fun s s' hm hs => (hs.effort_lt hm).2) (fun s s' hm hs => (hs.effort_lt hm).1) hm
  refine ⟨hacc, exists_last hacc, fun t hrun hlast => ?_⟩
  have ht : Run .initial t := h.trans (hrun.lift id fun _ _ hs => hs.step)
  obtain ⟨hordered, hflagged⟩ := inv_run ⟨⟨[], rfl, rfl⟩, flagged_initial⟩ ht
  exact rest_last hlast (locked_run ht) hordered hflagged

lemma entered_of_inner (h : ReflTransGen InnerStep s s') : s.entered <+: s'.entered := by
  induction h with
  | refl => exact List.prefix_rfl
  | tail _ hs ih => exact ih.trans hs.step.entered

/-- A message that is pushed while the worker is asleep. -/
theorem rests_of_run_pushed : ∃ t, Rest t ∧ t.entered ≠ [] := by
  have h : ∃ s, Run .initial s ∧ s.entered ≠ [] :=
    ⟨_, .head (.work (.goOn rfl rfl)) <| .head (.work (.lock (.inl rfl) rfl)) <|
      .head (.work (.fail rfl rfl)) <| .head (.work (.sleep rfl)) <|
      .head (.call 0 (.call .INFO [] 1 (bytes "up") [] rfl)) <| .head (.call 0 (.lock rfl rfl)) <|
      .single (.call 0 (.push rfl)), by simp [State.setCaller, State.initial]⟩
  obtain ⟨s, hrun, hentered⟩ := h
  obtain ⟨-, ⟨t, hinner, hlast⟩, hrest⟩ := rests_of_run s hrun
  refine ⟨t, hrest t hinner hlast, fun hnil => hentered ?_⟩
  have hprefix := entered_of_inner hinner
  rwa [hnil, List.prefix_nil] at hprefix

end Mtfss.Logger
