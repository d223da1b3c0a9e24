import Mtfss.Effects.Termination
import Mtfss.Properties.ProgramPlaces
import Mathlib.Algebra.Order.BigOperators.Group.Finset

/-! Left to itself the program comes to its end, or to a wait for the next connection. -/

namespace Mtfss.Shutdown

open Relation Effects

variable {n m : ℕ} {s s' : State} {sh sh' : Shared} {c c' : StopCall}

section Effort

def PoolCall.effort (n : ℕ) : PoolCall → ℕ
  | .enter => n + 4
  | .closing => n + 3
  | .joining i => n - i + 2
  | .returning => 1

def StopCall.effort (n : ℕ) : StopCall → ℕ
  | .enter => n + 7
  | .socket => n + 6
  | .pool call => call.effort n + 1
  | .idle | .returned => 0

/-- What `main` can still do without another connection. -/
def Main.effort (n : ℕ) (running : Bool) : Main → ℕ
  | .pushing => 2 * n + 19
  | .starting => 2 * n + 17
  | .testing => if running then 2 * n + 16 else 2 * n + 14
  | .accepting => 2 * n + 15
  | .started => 2 * n + 13
  | .server call => call.effort n + n + 5
  | .pool call => call.effort n
  | .gone | .terminated => 0

def Worker.effort : Worker → ℕ
  | .working => 2
  | .waiting => 1
  | .left => 0

/-- What `main`, the first `m` handlers and the workers can still do. -/
def State.effort (n m : ℕ) (s : State) : ℕ :=
  s.main.effort n s.shared.running + ∑ h ∈ Finset.range m, (s.handler h).effort n +
    (2 * s.shared.queued + ∑ i ∈ Finset.range n, (s.shared.worker i).effort)

lemma stop_effort (h : stop n c sh = some (c', sh')) : c'.effort n < c.effort n := by
  rcases stop_cases h with ⟨rfl, -, rfl, -⟩ | ⟨rfl, -, rfl, -⟩ | ⟨rfl, rfl, -⟩ | ⟨rfl, -, rfl, -⟩ |
    ⟨rfl, -, rfl, -⟩ | ⟨rfl, rfl, -⟩ | ⟨i, rfl, hi, rfl, -⟩ | ⟨i, rfl, rfl, -⟩ | ⟨rfl, rfl, -⟩ <;>
    simp only [StopCall.effort, PoolCall.effort] <;> omega

lemma Main.effort_mono (main : Main) {b b' : Bool} (h : b = false → b' = false) :
    main.effort n b' ≤ main.effort n b := by
  cases main <;> cases b <;> cases b' <;> simp_all [effort]

lemma mainStep_effort {main main' : Main} (h : mainStep n sh main = some (main', sh'))
    (hne : main ≠ .accepting) : main'.effort n sh'.running + 2 * sh'.queued <
      main.effort n sh.running + 2 * sh.queued ∧ sh'.worker = sh.worker := by
  rcases mainStep_cases h with
    ⟨rfl, rfl, rfl⟩ | ⟨rfl, hr, rfl, rfl⟩ | ⟨rfl, hr, rfl, rfl⟩ | ⟨hm, -⟩ |
    ⟨rfl, -, rfl, rfl⟩ | ⟨rfl, -, rfl, rfl⟩ | ⟨rfl, rfl, rfl⟩ | ⟨rfl, rfl, rfl⟩ |
    ⟨c, c', rfl, rfl, hs⟩ | ⟨rfl, ⟨rfl, -⟩ | ⟨rfl, -⟩, rfl⟩ | ⟨c, c', rfl, rfl, hs⟩
  · simp [Main.effort]
  · simp [Main.effort, hr]
  · simp [Main.effort, hr]
  · exact (hne hm).elim
  · refine ⟨?_, rfl⟩
    simp only [Main.effort]
    split <;> omega
  · refine ⟨?_, rfl⟩
    simp only [Main.effort]
    split <;> omega
  · refine ⟨?_, rfl⟩
    simp only [Main.effort, StopCall.effort]
    omega
  · refine ⟨?_, rfl⟩
    simp only [Main.effort, StopCall.effort, PoolCall.effort]
    omega
  · obtain ⟨hworker, hqueued, -⟩ := stop_keeps hs
    have := stop_effort hs
    refine ⟨?_, hworker⟩
    simp only [Main.effort, hqueued]
    omega
  · simp [Main.effort, PoolCall.effort]
  · simp [Main.effort, PoolCall.effort]
  · obtain ⟨hworker, hqueued, -⟩ := stop_keeps hs
    have := stop_effort hs
    refine ⟨?_, hworker⟩
    simp only [Main.effort, StopCall.effort, hqueued] at this ⊢
    omega

end Effort

/-- The steps that are sure to come: not a connection, a Ctrl+C, an exception or a failure of
`accept` on an open socket. -/
def Label.IsOwn (s : State) : Label → Prop
  | .main => s.main ≠ .accepting
  | .acceptFails => s.shared.socketOpen = false
  | .unwinds | .signal _ => False
  | _ => True

def OwnStep (n : ℕ) (s s' : State) : Prop := ∃ label :
    Label, label.IsOwn s ∧ step n s label = some s'

lemma OwnStep.step (h : OwnStep n s s') : Step n s s' := by
  obtain ⟨label, -, hs⟩ := h
  exact ⟨label, hs⟩

def FewHandlers (m : ℕ) (s : State) : Prop := ∀ h, m ≤ h → s.handler h = .idle

lemma OwnStep.effort_lt (hs : OwnStep n s s') (h : Placed n s) (hm : FewHandlers m s) :
    s'.effort n m < s.effort n m ∧ FewHandlers m s' := by
  obtain ⟨label, hown, hs⟩ := hs
  replace hs := (step_eq_some.mp hs).2
  cases label with
  | unwinds => exact hown.elim
  | signal j => exact hown.elim
  | main =>
    obtain ⟨⟨main', sh'⟩, hmain, rfl⟩ := Option.map_eq_some_iff.mp hs
    obtain ⟨hlt, hworker⟩ := mainStep_effort hmain hown
    refine ⟨?_, hm⟩
    simp only [State.effort, hworker]
    omega
  | acceptFails =>
    obtain ⟨hacc, hs⟩ := Option.ite_none_right_eq_some.mp hs
    cases hs
    refine ⟨?_, hm⟩
    simp only [State.effort, Main.effort, hacc, h.linked.closed hown]
    simp
  | handler j =>
    obtain ⟨⟨c', sh'⟩, hstop, rfl⟩ := Option.map_eq_some_iff.mp hs
    have hj : j < m := by
      by_contra hge
      rw [hm j (not_lt.mp hge)] at hstop
      cases hstop
    obtain ⟨hworker, hqueued, -⟩ := stop_keeps hstop
    have hlt := stop_effort hstop
    have hmain := s.main.effort_mono (n := n) (Lowers.of_stop hstop).running
    have hsum := sum_update_add (StopCall.effort n) s.handler hj c'
    refine ⟨?_, fun i hi => ?_⟩
    · simp only [State.effort, hworker, hqueued]
      omega
    · have hne : i ≠ j := by omega
      exact (Function.update_of_ne hne ..).trans (hm i hi)
  | take i =>
    obtain ⟨⟨hi, hw, hpos⟩, hs⟩ := Option.ite_none_right_eq_some.mp hs
    cases hs
    have hsum := sum_update_add Worker.effort s.shared.worker hi .working
    refine ⟨?_, hm⟩
    simp only [State.effort, hw, Worker.effort] at hsum ⊢
    omega
  | finish i =>
    obtain ⟨hw, hs⟩ := Option.ite_none_right_eq_some.mp hs
    cases hs
    have hi : i < n := by
      by_contra hge
      rw [h.beyond i (not_lt.mp hge)] at hw
      cases hw
    have hsum := sum_update_add Worker.effort s.shared.worker hi .waiting
    refine ⟨?_, hm⟩
    simp only [State.effort, hw, Worker.effort] at hsum ⊢
    omega
  | leave i =>
    obtain ⟨⟨hi, hw, -, hshut⟩, hs⟩ := Option.ite_none_right_eq_some.mp hs
    cases hs
    have hsum := sum_update_add Worker.effort s.shared.worker hi .left
    refine ⟨?_, hm⟩
    simp only [State.effort, hw, Worker.effort] at hsum ⊢
    omega

/-- A worker leaves a queue that is empty and takes no more connections. -/
def Drained (s : State) : Prop :=
  ∀ i, s.shared.worker i = .left → s.shared.queueShut = true ∧ s.shared.queued = 0

section Drained

lemma Drained.main {main' : Main} (h : Drained s)
    (hs : mainStep n s.shared s.main = some (main', sh')) : Drained ⟨sh', main', s.handler⟩ := by
  have hstop : ∀ {c c'}, stop n c s.shared = some (c', sh') → Drained ⟨sh', main', s.handler⟩ := by
    intro c c' hstop i hi
    obtain ⟨hworker, hqueued, -⟩ := stop_keeps hstop
    obtain ⟨hshut, hzero⟩ := h i (hworker ▸ hi)
    exact ⟨(Lowers.of_stop hstop).shut hshut, hqueued.trans hzero⟩
  rcases mainStep_cases hs with ⟨-, -, rfl⟩ | ⟨-, -, -, rfl⟩ | ⟨-, -, -, rfl⟩ | ⟨-, -, -, rfl⟩ |
    ⟨-, -, -, rfl⟩ | ⟨-, hopen, -, rfl⟩ | ⟨-, -, rfl⟩ | ⟨-, -, rfl⟩ | ⟨c, c', -, -,
      hcall⟩ | ⟨-, -, rfl⟩ |
    ⟨c, c', -, -, hcall⟩
  case inr.inr.inr.inr.inr.inl =>
    intro i hi
    cases hopen.symm.trans (h i hi).1
  case inr.inr.inr.inr.inr.inr.inr.inr.inl => exact hstop hcall
  case inr.inr.inr.inr.inr.inr.inr.inr.inr.inr => exact hstop hcall
  all_goals exact h

lemma Drained.worked (h : Drained s) {i q : ℕ} {x : Worker} (hq : s.shared.queued = 0 → q = 0)
    (hleft : x = .left → s.shared.queueShut = true ∧ q = 0) :
    Drained { s with
      shared := { s.shared with queued := q, worker := Function.update s.shared.worker i x } } :=
  (Function.forall_update_iff s.shared.worker fun _ w => w = .left →
    s.shared.queueShut = true ∧ q = 0).mpr ⟨hleft, fun j _ hj => (h j hj).imp_right hq⟩

end Drained

section Last

lemma step_none (h : ∀ s', ¬ OwnStep n s s') (halive : s.main ≠ .terminated) (label : Label)
    (hown : label.IsOwn s) : threadStep n s label = none := by
  rw [Option.eq_none_iff_forall_ne_some]
  exact fun s' hs => h s' ⟨label, hown, step_eq_some.mpr ⟨halive, hs⟩⟩

lemma worker_last (h : ∀ s', ¬ OwnStep n s s') (halive : s.main ≠ .terminated) {i : ℕ}
    (hi : i < n) : s.shared.worker i = .left ∨
      s.shared.worker i = .waiting ∧ s.shared.queued = 0 ∧ s.shared.queueShut = false := by
  cases hw : s.shared.worker i with
  | left => exact Or.inl rfl
  | working =>
    have hfinish := step_none h halive (.finish i) trivial
    simp [threadStep, hw] at hfinish
  | waiting =>
    have htake := step_none h halive (.take i) trivial
    have hleave := step_none h halive (.leave i) trivial
    simp only [threadStep, hi, hw, true_and, ite_eq_right_iff, reduceCtorEq, imp_false]
      at htake hleave
    have hzero : s.shared.queued = 0 := by omega
    exact Or.inr ⟨rfl, hzero, by simpa [hzero] using hleave⟩

end Last

/-- `running_` is false and will not be set again. -/
def Halted (s : State) : Prop := s.main ≠ .starting ∧ s.shared.running = false

lemma Halted.step (h : Halted s) (hs : OwnStep n s s') : Halted s' := by
  obtain ⟨label, hown, hs⟩ := hs
  replace hs := (step_eq_some.mp hs).2
  obtain ⟨hne, hr⟩ := h
  cases label with
  | main =>
    obtain ⟨⟨main', sh'⟩, hmain, rfl⟩ := Option.map_eq_some_iff.mp hs
    rcases mainStep_cases hmain with
      ⟨hm, -, -⟩ | ⟨-, -, rfl, rfl⟩ | ⟨-, -, rfl, rfl⟩ | ⟨-, -, rfl, rfl⟩ | ⟨-, -, rfl, rfl⟩ |
      ⟨-, -, rfl, rfl⟩ | ⟨-, rfl, rfl⟩ | ⟨-, rfl, rfl⟩ | ⟨c, c', -, rfl, hcall⟩ |
      ⟨-, ⟨rfl, -⟩ | ⟨rfl, -⟩, rfl⟩ | ⟨c, c', -, rfl, hcall⟩
    case inl => exact (hne hm).elim
    case inr.inr.inr.inr.inr.inr.inr.inr.inl => exact ⟨nofun, (Lowers.of_stop hcall).running hr⟩
    case inr.inr.inr.inr.inr.inr.inr.inr.inr.inr => exact ⟨nofun, (Lowers.of_stop hcall).running hr⟩
    all_goals exact ⟨nofun, hr⟩
  | unwinds => exact hown.elim
  | signal j => exact hown.elim
  | acceptFails =>
    obtain ⟨-, hs⟩ := Option.ite_none_right_eq_some.mp hs
    cases hs
    exact ⟨nofun, hr⟩
  | handler j =>
    obtain ⟨⟨c', sh'⟩, hstop, rfl⟩ := Option.map_eq_some_iff.mp hs
    exact ⟨hne, (Lowers.of_stop hstop).running hr⟩
  | _ =>
    obtain ⟨-, hs⟩ := Option.ite_none_right_eq_some.mp hs
    cases hs
    exact ⟨hne, hr⟩

end Mtfss.Shutdown
