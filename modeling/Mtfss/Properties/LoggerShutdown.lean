import Mathlib.Tactic.Common
import Mtfss.Server.Logger

/-! When the destructor of the logger is sure to reach its worker. -/

namespace Mtfss.Logger

open Relation

variable {s s' : State}

/-- `~Logger` has sent its notification, and nothing is left that could wake the worker. -/
structure Stuck (s : State) : Prop where
  notified : s.destructor = .joining ∨ s.destructor = .ended
  asleep : s.worker = .asleep
  stopped : s.running = false
  queue : s.queue = []
  pending : ∀ c msg, s.caller c ≠ .notifying msg

/-- A step at which `~Logger` does not send its notification to a worker that has tested its
predicate and does not sleep yet. -/
def Calm (s s' : State) : Prop :=
  Step s s' ∧ ¬ (s.destructor = .notifying ∧ s'.destructor = .joining ∧ s.worker = .tested)

/-- The flag goes down with the destructor, and once that has sent its notification the worker
neither sleeps nor is about to. -/
structure Awake (s : State) : Prop where
  running : s.running = false → s.destructor ≠ .notBegun ∧ s.destructor ≠ .setting
  stopped : s.destructor ≠ .notBegun → s.destructor ≠ .setting → s.running = false
  worker : s.destructor = .joining ∨ s.destructor = .ended → s.worker ≠ .tested ∧ s.worker ≠ .asleep

lemma Worker.wake_ne {x : Worker} (h : x ≠ .tested) : x.wake ≠ .tested ∧ x.wake ≠ .asleep := by
  cases x with
  | tested => exact (h rfl).elim
  | _ => exact ⟨nofun, nofun⟩

lemma Awake.keep (h : Awake s) (hr : s'.running = s.running) (hd : s'.destructor = s.destructor)
    (hw : s.destructor = .joining ∨ s.destructor = .ended →
      s'.worker ≠ .tested ∧ s'.worker ≠ .asleep) : Awake s' where
  running hstop := hd ▸ h.running (hr ▸ hstop)
  stopped := by
    rw [hd, hr]
    exact h.stopped
  worker := by
    rw [hd]
    exact hw

lemma Awake.step (h : Awake s) (hs : Calm s s') : Awake s' := by
  obtain ⟨hs, hcalm⟩ := hs
  rcases hs with ⟨c, hs⟩ | hs | hs
  · cases hs with
    | notify => exact h.keep rfl rfl (fun hd => Worker.wake_ne (h.worker hd).1)
    | _ => exact h.keep rfl rfl h.worker
  · cases hs with
    | fail hw hgo =>
      refine h.keep rfl rfl (fun hd => ?_)
      -- the predicate is false only while the flag is up
      have hrunning : s.running = true := by
        rw [State.mayGo, Bool.or_eq_false_iff] at hgo
        simpa using hgo.2
      rw [h.stopped (by rcases hd with hd | hd <;> rw [hd] <;> nofun)
        (by rcases hd with hd | hd <;> rw [hd] <;> nofun)] at hrunning
      cases hrunning
    | sleep hw => exact h.keep rfl rfl (fun hd => ((h.worker hd).1 hw).elim)
    | _ => exact h.keep rfl rfl (fun _ => ⟨nofun, nofun⟩)
  · cases hs with
    | begin hd =>
      refine ⟨fun hstop => ((h.running hstop).1 hd).elim, fun _ hset => (hset rfl).elim, ?_⟩
      rintro (hd | hd) <;> cases hd
    | set hd =>
      refine ⟨fun _ => ⟨nofun, nofun⟩, fun _ _ => rfl, ?_⟩
      rintro (hd | hd) <;> cases hd
    | notify hd =>
      refine ⟨fun _ => ⟨nofun, nofun⟩, fun _ _ => ?_, fun _ => ?_⟩
      · exact h.stopped (by rw [hd]; nofun) (by rw [hd]; nofun)
      · exact Worker.wake_ne (fun hw => hcalm ⟨hd, rfl, hw⟩)
    | join hd hw =>
      refine ⟨fun _ => ⟨nofun, nofun⟩, fun _ _ => ?_, fun _ => ?_⟩
      · exact h.stopped (by rw [hd]; nofun) (by rw [hd]; nofun)
      · rw [hw]
        exact ⟨nofun, nofun⟩

lemma Awake.run (h : Awake s) (hr : ReflTransGen Calm s s') : Awake s' := by
  induction hr with
  | refl => exact h
  | tail _ hs ih => exact ih.step hs

lemma awake_initial : Awake .initial := ⟨nofun, fun h => (h rfl).elim, by simp [State.initial]⟩

/-- When the notification of `~Logger` never comes between a test of the worker's predicate and the
sleep after it, the worker is never left asleep. -/
theorem not_stuck_of_calm (s : State) (h : ReflTransGen Calm .initial s) : ¬ Stuck s := by
  intro hstuck
  exact ((awake_initial.run h).worker hstuck.notified).2 hstuck.asleep

/-- The worker sleeps before `~Logger` begins, and is woken. -/
theorem not_stuck_one : ∃ s, s.destructor = .joining ∧ s.worker = .woken ∧ ¬ Stuck s := by
  refine ⟨_, rfl, rfl, not_stuck_of_calm _ (
    .head ⟨.work (.goOn rfl rfl), nofun⟩ <| .head ⟨.work (.lock (.inl rfl) rfl), nofun⟩ <|
    .head ⟨.work (.fail rfl rfl), nofun⟩ <| .head ⟨.work (.sleep rfl), nofun⟩ <|
    .head ⟨.finish (.begin rfl), nofun⟩ <| .head ⟨.finish (.set rfl), nofun⟩ <|
    .head ⟨.finish (.notify rfl), nofun⟩ .refl)⟩

/-- The flag goes down and the notification is sent after the worker has tested its predicate and
before it sleeps. -/
theorem stuck_reachable : ∃ s, Run .initial s ∧ Stuck s := by
  refine ⟨_, .head (.work (.goOn rfl rfl)) <| .head (.work (.lock (.inl rfl) rfl)) <|
    .head (.work (.fail rfl rfl)) <| .head (.finish (.begin rfl)) <| .head (.finish (.set rfl)) <|
    .head (.finish (.notify rfl)) <| .head (.work (.sleep rfl)) .refl, ?_⟩
  exact ⟨Or.inl rfl, rfl, rfl, rfl, nofun⟩

end Mtfss.Logger
