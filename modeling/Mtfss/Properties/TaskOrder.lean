import Mtfss.Server.TaskQueue

/-! The pool hands out the accepted tasks in their order and runs each of them once. -/

namespace Mtfss.Pool

open Relation

variable {α : Type} {n : ℕ} {s s' : State α}

/-- Inside a block that has locked `mutex_`. -/
def Pusher.inside : Pusher α → Bool
  | .testing _ => true
  | .passed _ => true
  | _ => false

def Worker.inside : Worker α → Bool
  | .testing => true
  | .passed => true
  | _ => false

def Closer.inside : Closer → Bool
  | .setting _ => true
  | _ => false

def State.inside (s : State α) : Thread → Bool
  | .pusher p => (s.pusher p).inside
  | .worker i => (s.worker i).inside
  | .closer t => (s.closer t).inside

attribute [grind =] Function.update_apply
attribute [grind] Pusher.inside Worker.inside Closer.inside

@[grind =] lemma Pusher.inside_wake (x : Pusher α) : x.wake.inside = x.inside := by
  cases x <;> rfl

@[grind =] lemma Worker.inside_wake (x : Worker α) : x.wake.inside = x.inside := by
  cases x <;> rfl

@[grind =] lemma Pusher.wake_eq_passed {x : Pusher α} {task : α} :
    x.wake = .passed task ↔ x = .passed task := by
  cases x <;> simp [wake]

@[grind =] lemma Worker.wake_eq_passed {x : Worker α} : x.wake = .passed ↔ x = .passed := by
  cases x <;> simp [wake]

@[grind =] lemma Worker.wake_eq_left {x : Worker α} : x.wake = .left ↔ x = .left := by
  cases x <;> simp [wake]

/-- The thread that has `mutex_` is the one that is inside. -/
def Locked (s : State α) : Prop := ∀ t, s.inside t = true ↔ s.owner = some t

lemma Locked.step (h : Locked s) (hs : Step n s s') : Locked s' := by
  intro t
  have ht := h t
  rcases hs with ⟨p, hs⟩ | ⟨i, -, hs⟩ | ⟨u, hs⟩
  · have hp := h (.pusher p)
    cases hs <;> cases t <;>
      simp only [State.inside, State.setPusher, State.setWorker] at * <;> grind
  · have hi := h (.worker i)
    cases hs <;> cases t <;>
      simp only [State.inside, State.setPusher, State.setWorker] at * <;> grind
  · have hu := h (.closer u)
    cases hs <;> cases t <;> simp only [State.inside, State.setCloser] at * <;> grind

/-- Whoever is past a wait finds what it has waited for. -/
structure Ready (s : State α) : Prop where
  push : ∀ p task, s.pusher p = .passed task → s.queue.mayPush = true
  pop : ∀ i, s.worker i = .passed → s.queue.mayPop = true

lemma Ready.step (h : Ready s) (hl : Locked s) (hs : Step n s s') : Ready s' := by
  obtain ⟨hpush, hpop⟩ := h
  rcases hs with ⟨p, hs⟩ | ⟨i, -, hs⟩ | ⟨u, hs⟩
  · have hp := hl (.pusher p)
    constructor
    · intro q
      have hq := hl (.pusher q)
      cases hs <;> simp only [State.inside, State.setPusher, State.setWorker] at * <;> grind
    · intro j
      have hj := hl (.worker j)
      cases hs <;> simp only [State.inside, State.setPusher, State.setWorker] at * <;> grind
  · have hi := hl (.worker i)
    constructor
    · intro q
      have hq := hl (.pusher q)
      cases hs <;> simp only [State.inside, State.setPusher, State.setWorker] at * <;> grind
    · intro j
      have hj := hl (.worker j)
      cases hs <;> simp only [State.inside, State.setPusher, State.setWorker] at * <;> grind
  · have hu := hl (.closer u)
    constructor
    · intro q
      have hq := hl (.pusher q)
      cases hs <;> simp only [State.inside, State.setCloser] at * <;> grind
    · intro j
      have hj := hl (.worker j)
      cases hs <;> simp only [State.inside, State.setCloser] at * <;> grind

/-- What a step does to the queue. -/
inductive Effect (s s' : State α) : Prop
  | none : s'.queue = s.queue → s'.accepted = s.accepted → s'.handed = s.handed → Effect s s'
  | accept (task : α) : s.queue.mayPush = true → s.queue.push task = some s'.queue →
      s'.accepted = s.accepted ++ [task] → s'.handed = s.handed → Effect s s'
  | take (task : α) : s.queue.pop = some (task, s'.queue) → s'.accepted = s.accepted →
      s'.handed = s.handed ++ [task] → Effect s s'
  | close : s'.queue = s.queue.close → s'.accepted = s.accepted → s'.handed = s.handed → Effect s s'

lemma Step.effect (hs : Step n s s') (h : Ready s) : Effect s s' := by
  rcases hs with ⟨p, hs⟩ | ⟨i, -, hs⟩ | ⟨u, hs⟩
  · cases hs with
    | accept hp hq => exact .accept _ (h.push p _ hp) hq rfl rfl
    | _ => exact .none rfl rfl rfl
  · cases hs with
    | take hi hq => exact .take _ hq rfl rfl
    | _ => exact .none rfl rfl rfl
  · cases hs with
    | close => exact .close rfl rfl rfl
    | _ => exact .none rfl rfl rfl

/-- The queue is what has been accepted and not handed out, and keeps to its bound. -/
structure Ordered (s : State α) : Prop where
  order : s.accepted = s.handed ++ s.queue.queue
  bound : s.queue.max_size ≠ 0 → s.queue.queue.length ≤ s.queue.max_size

lemma Ordered.step (h : Ordered s) (he : Effect s s') : Ordered s' := by
  obtain ⟨horder, hbound⟩ := h
  cases he with
  | none hq ha hh => exact ⟨by rw [ha, hh, hq, horder], by rwa [hq]⟩
  | close hq ha hh => exact ⟨by rw [ha, hh, hq, horder]; rfl, by rwa [hq]⟩
  | accept task hmay hq ha hh =>
    obtain ⟨hopen, hq⟩ := TaskQueue.push_eq_some.mp hq
    refine ⟨by rw [ha, hh, hq, horder, List.append_assoc], fun hne => ?_⟩
    rw [hq] at hne ⊢
    have hroom : s.queue.queue.length < s.queue.max_size := by
      simpa [TaskQueue.mayPush, hopen, hne] using hmay
    simpa [Nat.succ_le_iff] using hroom
  | take task hq ha hh =>
    obtain ⟨rest, hrest, hq⟩ := TaskQueue.pop_eq_some.mp hq
    refine ⟨by rw [ha, hh, hq, horder, hrest]; simp, fun hne => ?_⟩
    rw [hq] at hne ⊢
    have hlen := hbound hne
    rw [hrest, List.length_cons] at hlen
    exact Nat.le_of_succ_le hlen

lemma Effect.closed (he : Effect s s') (h : s.queue.shutdown = true) :
    s'.queue.shutdown = true ∧ s'.accepted = s.accepted ∧ s'.queue.queue <:+ s.queue.queue := by
  cases he with
  | none hq ha hh => exact ⟨hq ▸ h, ha, hq ▸ List.suffix_rfl⟩
  | close hq ha hh => exact ⟨by rw [hq]; rfl, ha, hq ▸ List.suffix_rfl⟩
  | accept task hmay hq ha hh =>
    obtain ⟨hopen, -⟩ := TaskQueue.push_eq_some.mp hq
    rw [h] at hopen
    cases hopen
  | take task hq ha hh =>
    obtain ⟨rest, hrest, hq⟩ := TaskQueue.pop_eq_some.mp hq
    rw [hq, hrest]
    exact ⟨h, ha, List.suffix_cons _ _⟩

lemma Effect.max_size (he : Effect s s') : s'.queue.max_size = s.queue.max_size := by
  cases he with
  | none hq => rw [hq]
  | close hq => rw [hq, TaskQueue.close]
  | accept task _ hq => rw [(TaskQueue.push_eq_some.mp hq).2]
  | take task hq =>
    obtain ⟨rest, -, hq⟩ := TaskQueue.pop_eq_some.mp hq
    rw [hq]

/-- A worker leaves its loop only when the queue is shut down and empty. -/
def Drained (s : State α) : Prop :=
  ∀ i, s.worker i = .left → s.queue.shutdown = true ∧ s.queue.queue = []

lemma Drained.step (h : Drained s) (hr : Ready s) (hs : Step n s s') : Drained s' := by
  have hkeep : ∀ i, s.worker i = .left → s'.queue.shutdown = true ∧ s'.queue.queue = [] := by
    intro i hi
    obtain ⟨hshut, hempty⟩ := h i hi
    obtain ⟨hshut', -, hsuffix⟩ := (hs.effect hr).closed hshut
    rw [hempty] at hsuffix
    exact ⟨hshut', List.suffix_nil.mp hsuffix⟩
  intro i hi
  by_cases hold : s.worker i = .left
  · exact hkeep i hold
  have hnew : s.worker i = .passed ∧ s.queue.pop = none ∧ s'.queue = s.queue := by
    rcases hs with ⟨p, hs⟩ | ⟨j, -, hs⟩ | ⟨u, hs⟩
    · cases hs <;> simp only [State.setPusher, State.setWorker] at * <;> grind
    · cases hs <;> simp only [State.setPusher, State.setWorker] at * <;> grind
    · cases hs <;> simp only [State.setCloser] at * <;> grind
  obtain ⟨hpassed, hnone, hq⟩ := hnew
  rw [hq]
  exact TaskQueue.pop_eq_none (hr.pop i hpassed) hnone

def Worker.holds : Worker α → Multiset α
  | .notifying task => {task}
  | .running task => {task}
  | _ => 0

attribute [grind] Worker.holds

@[simp, grind =] lemma Worker.holds_wake (x : Worker α) : x.wake.holds = x.holds := by
  cases x <;> rfl

/-- All tasks that workers have taken and are not done with. -/
def State.held (n : ℕ) (s : State α) : Multiset α := ∑ i ∈ Finset.range n, (s.worker i).holds

lemma held_setWorker {i : ℕ} (hi : i < n) (x : Worker α) :
    (s.setWorker i x).held n + (s.worker i).holds = s.held n + x.holds := by
  have hmem : i ∈ Finset.range n := Finset.mem_range.mpr hi
  have hothers : ∑ j ∈ (Finset.range n).erase i, ((s.setWorker i x).worker j).holds =
      ∑ j ∈ (Finset.range n).erase i, (s.worker j).holds := by
    apply Finset.sum_congr rfl
    intro j hj
    exact congrArg Worker.holds (Function.update_of_ne (Finset.ne_of_mem_erase hj) _ _)
  have hself : ((s.setWorker i x).worker i).holds = x.holds :=
    congrArg Worker.holds (Function.update_self _ _ _)
  rw [State.held, State.held, ← Finset.add_sum_erase _ _ hmem, ← Finset.add_sum_erase _ _ hmem,
    hothers, hself, add_comm x.holds, add_comm (s.worker i).holds, add_right_comm]

lemma held_setWorker_same {i : ℕ} (hi : i < n) {x : Worker α} (hx : x.holds = (s.worker i).holds) :
    (s.setWorker i x).held n = s.held n := by
  have h := held_setWorker (s := s) hi x
  rw [hx] at h
  exact add_right_cancel h

/-- What has been handed out has been run or is held. -/
def Handled (n : ℕ) (s : State α) : Prop := (s.handed : Multiset α) = s.ran + s.held n

lemma Handled.congr (h : Handled n s) (hheld : s'.held n = s.held n) (hh : s'.handed = s.handed)
    (hr : s'.ran = s.ran) : Handled n s' := by
  rw [Handled, hheld, hh, hr]
  exact h

lemma Handled.pushStep (h : Handled n s) {p : ℕ} (hs : PushStep n s p s') : Handled n s' := by
  cases hs with
  | notify hp hi hasleep =>
    refine h.congr (held_setWorker_same (s := s.setPusher p _) hi ?_) rfl rfl
    rw [State.setPusher, hasleep]
    rfl
  | _ => exact h.congr rfl rfl rfl

lemma Handled.workStep (h : Handled n s) {i : ℕ} (hi : i < n) (hs : WorkStep s i s') :
    Handled n s' := by
  cases hs with
  | lock hw =>
    refine h.congr (held_setWorker_same hi ?_) rfl rfl
    rcases hw with hw | hw <;> rw [hw] <;> rfl
  | notify hw => exact h.congr (held_setWorker_same hi (by rw [hw]; rfl)) rfl rfl
  | notifyNobody hw => exact h.congr (held_setWorker_same hi (by rw [hw]; rfl)) rfl rfl
  | @take task q hw =>
    have hheld := held_setWorker (s := s) hi (.notifying task)
    simp only [hw, Worker.holds, add_zero] at hheld
    have hcoe : ((s.handed ++ [task] : List α) : Multiset α) = s.handed + {task} :=
      (Multiset.coe_add _ _).symm
    show ((s.handed ++ [task] : List α) : Multiset α) = s.ran + (s.setWorker i _).held n
    rw [hcoe, h, hheld, add_assoc]
  | @finish task hw =>
    have hheld := held_setWorker (s := s) hi .entering
    simp only [hw, Worker.holds, add_zero] at hheld
    have hcoe : ((s.ran ++ [task] : List α) : Multiset α) = s.ran + {task} :=
      (Multiset.coe_add _ _).symm
    show (s.handed : Multiset α) = ((s.ran ++ [task] : List α) : Multiset α) +
        (s.setWorker i _).held n
    rw [hcoe, h, ← hheld, add_assoc, add_comm ({task} : Multiset α)]
  | sleep hw => exact h.congr (held_setWorker_same hi (by rw [hw]; rfl)) rfl rfl
  | wake hw => exact h.congr (held_setWorker_same hi (by rw [hw]; rfl)) rfl rfl
  | pass hw => exact h.congr (held_setWorker_same hi (by rw [hw]; rfl)) rfl rfl
  | leave hw => exact h.congr (held_setWorker_same hi (by rw [hw]; rfl)) rfl rfl

lemma Handled.step (h : Handled n s) (hs : Step n s s') : Handled n s' := by
  rcases hs with ⟨p, hs⟩ | ⟨i, hi, hs⟩ | ⟨u, hs⟩
  · exact h.pushStep hs
  · exact h.workStep hi hs
  · cases hs with
    | notifyEmpty => exact h.congr (by simp [State.held]) rfl rfl
    | _ => exact h.congr rfl rfl rfl

structure Joins (n : ℕ) (s : State α) : Prop where
  joined : ∀ i, s.joined i = true → s.worker i = .left
  joining : ∀ t i, s.closer t = .joining i → ∀ j < i, s.worker j = .left
  returned : ∀ t, s.closer t = .returned true → ∀ j < n, s.worker j = .left

lemma Step.left (hs : Step n s s') {i : ℕ} (hi : s.worker i = .left) : s'.worker i = .left := by
  rcases hs with ⟨p, hs⟩ | ⟨j, -, hs⟩ | ⟨u, hs⟩
  · cases hs <;> simp only [State.setPusher, State.setWorker] at * <;> grind
  · cases hs <;> simp only [State.setPusher, State.setWorker] at * <;> grind
  · cases hs <;> simp only [State.setCloser] at * <;> grind

lemma Joins.step (h : Joins n s) (hs : Step n s s') : Joins n s' := by
  have hleft := fun i => hs.left (i := i)
  obtain ⟨hjoined, hjoining, hreturned⟩ := h
  rcases hs with ⟨p, hs⟩ | ⟨j, -, hs⟩ | ⟨u, hs⟩
  · cases hs <;> exact ⟨fun i hi => hleft i (hjoined i hi),
      fun t i ht j hj => hleft j (hjoining t i ht j hj), fun t ht j hj =>
        hleft j (hreturned t ht j hj)⟩
  · cases hs <;> exact ⟨fun i hi => hleft i (hjoined i hi),
      fun t i ht j hj => hleft j (hjoining t i ht j hj), fun t ht j hj =>
        hleft j (hreturned t ht j hj)⟩
  · have hnext : ∀ i, s.closer u = .joining i → s.worker i = .left →
        ∀ j < i + 1, s.worker j = .left := by
      intro i hi hl j hj
      rcases Nat.lt_succ_iff_lt_or_eq.mp hj with hlt | rfl
      · exact hjoining u i hi j hlt
      · exact hl
    refine ⟨fun i hi => hleft i ?_, fun t i ht j hj => hleft j ?_, fun t ht j hj => hleft j ?_⟩
    · cases hs <;> simp only [State.setCloser] at * <;> grind
    · have ht' := hjoining t
      cases hs <;> simp only [State.setCloser] at * <;> grind
    · have hdone : ∀ i, s.closer u = .joining i → n ≤ i → s.worker j = .left :=
        fun i hi hn => hjoining u i hi j (lt_of_lt_of_le hj hn)
      have ht' := hreturned t
      cases hs <;> simp only [State.setCloser] at * <;> grind

structure Inv (n : ℕ) (s : State α) : Prop where
  locked : Locked s
  ready : Ready s
  ordered : Ordered s
  drained : Drained s
  handled : Handled n s
  joins : Joins n s

lemma inv_initial (max_size : ℕ) : Inv n (State.initial max_size : State α) where
  locked t := by cases t <;>
    simp [State.initial, State.inside, Pusher.inside, Worker.inside, Closer.inside]
  ready := ⟨by simp [State.initial], by simp [State.initial]⟩
  ordered := ⟨rfl, by simp [State.initial, TaskQueue.new]⟩
  drained := by simp [Drained, State.initial]
  handled := by simp [Handled, State.initial, State.held, Worker.holds]
  joins := ⟨by simp [State.initial], by simp [State.initial], by simp [State.initial]⟩

lemma Inv.step (h : Inv n s) (hs : Step n s s') : Inv n s' where
  locked := h.locked.step hs
  ready := h.ready.step h.locked hs
  ordered := h.ordered.step (hs.effect h.ready)
  drained := h.drained.step h.ready hs
  handled := h.handled.step hs
  joins := h.joins.step hs

lemma Inv.run (h : Inv n s) (hr : Run n s s') : Inv n s' := by
  induction hr with
  | refl => exact h
  | tail _ hs ih => exact ih.step hs

lemma closed_run (h : Inv n s) (hr : Run n s s') (hshut : s.queue.shutdown = true) :
    s'.accepted = s.accepted := by
  have hall : Inv n s' ∧ s'.queue.shutdown = true ∧ s'.accepted = s.accepted := by
    induction hr with
    | refl => exact ⟨h, hshut, rfl⟩
    | tail _ hs ih =>
      obtain ⟨hinv, hshut', haccepted⟩ := ih
      obtain ⟨hshut'', haccepted', -⟩ := (hs.effect hinv.ready).closed hshut'
      exact ⟨hinv.step hs, hshut'', haccepted'.trans haccepted⟩
  exact hall.2.2

lemma max_size_run (h : Inv n s) (hr : Run n s s') : s'.queue.max_size = s.queue.max_size := by
  have hall : Inv n s' ∧ s'.queue.max_size = s.queue.max_size := by
    induction hr with
    | refl => exact ⟨h, rfl⟩
    | tail _ hs ih => exact ⟨ih.1.step hs, (hs.effect ih.1.ready).max_size.trans ih.2⟩
  exact hall.2

/-- What the pool promises of the tasks it is given, with the bound its queue was made with. -/
structure Serves (max_size n : ℕ) (s : State α) : Prop where
  order : s.handed <+: s.accepted
  made : s.queue.max_size = max_size
  bound : max_size ≠ 0 → s.queue.queue.length ≤ max_size
  closed : s.queue.shutdown = true → ∀ s', Run n s s' → s'.accepted = s.accepted
  drained : ∀ i, s.worker i = .left → s.queue.shutdown = true ∧ s.queue.queue = []
  complete : ∀ t, s.closer t = .returned true → s.ran.Perm s.accepted

/-- Every accepted task is handed out in its turn, and has been run once when the shutdown that
joins the workers returns. -/
theorem tasks_served (max_size n : ℕ) (hn : 1 ≤ n) (s : State α) (h : Run n (.initial max_size) s) :
    Serves max_size n s := by
  have hinv := (inv_initial max_size).run h
  have hmade : s.queue.max_size = max_size := max_size_run (inv_initial max_size) h
  refine ⟨?_, hmade, ?_, fun hshut s' hr => closed_run hinv hr hshut, hinv.drained, fun t ht => ?_⟩
  · rw [hinv.ordered.order]
    exact List.prefix_append _ _
  · rw [← hmade]
    exact hinv.ordered.bound
  have hleft := hinv.joins.returned t ht
  have hempty : s.queue.queue = [] := (hinv.drained 0 (hleft 0 hn)).2
  have hnothing : s.held n = 0 := by
    apply Finset.sum_eq_zero
    intro i hi
    rw [hleft i (Finset.mem_range.mp hi)]
    rfl
  have hhandled := hinv.handled
  rw [Handled, hnothing, add_zero] at hhandled
  rw [hinv.ordered.order, hempty, List.append_nil]
  exact (Multiset.coe_eq_coe.mp hhandled).symm

theorem tasks_served_one : ∃ s : State ℕ, s.closer 0 = .returned true ∧ s.accepted = [7] ∧
    Serves 1 1 s := by
  refine ⟨_, ?_, ?_, tasks_served 1 1 le_rfl _ <|
    .head (.push 0 (.call 7 rfl)) <| .head (.push 0 (.lock (.inl rfl) rfl)) <|
    .head (.push 0 (.pass rfl rfl)) <| .head (.push 0 (.accept rfl rfl)) <|
    .head (.push 0 (.notifyNobody rfl ?_)) <|
    .head (.work 0 Nat.one_pos (.lock (.inl rfl) rfl)) <|
      .head (.work 0 Nat.one_pos (.pass rfl rfl)) <|
    .head (.work 0 Nat.one_pos (.take rfl rfl)) <|
      .head (.work 0 Nat.one_pos (.notifyNobody rfl ?_)) <|
    .head (.work 0 Nat.one_pos (.finish rfl)) <|
    .head (.close 0 (.callPool rfl)) <| .head (.close 0 (.first rfl rfl)) <|
    .head (.close 0 (.lock rfl rfl)) <| .head (.close 0 (.close rfl)) <|
    .head (.close 0 (.notifyEmpty rfl)) <| .head (.close 0 (.notifyFull rfl)) <|
    .head (.work 0 Nat.one_pos (.lock (.inl rfl) rfl)) <|
      .head (.work 0 Nat.one_pos (.pass rfl rfl)) <|
    .head (.work 0 Nat.one_pos (.leave rfl rfl)) <|
    .head (.close 0 (.join rfl Nat.one_pos rfl rfl)) <| .head (.close 0 (.done rfl le_rfl)) .refl⟩
  · rfl
  · rfl
  · intro i hi
    simp [State.setPusher, State.initial]
  · intro p task
    simp only [State.setPusher, State.setWorker, State.initial, Function.update_apply]
    split <;> nofun

end Mtfss.Pool
