import Mtfss.Properties.WakeUps

/-! The queue and its workers are never stuck: whoever waits in the end waits for a task. -/

namespace Mtfss.Pool

open Effects

variable {α : Type} {n : ℕ} {s s' : State α}

/-- No thread can go on, but with a new call, a wake-up for no reason, or the end of a task. -/
structure AtRest (n : ℕ) (s : State α) : Prop where
  push : ∀ p s', PushStep n s p s' → s.pusher p = .idle ∨ ∃ task, s.pusher p = .asleep task
  work : ∀ i < n, ∀ s', WorkStep s i s' → s.worker i = .asleep ∨ ∃ task, s.worker i = .running task
  close : ∀ t s', CloseStep n s t s' → s.closer t = .idle

/-- Where each thread can be when none can go on. -/
structure Settled (n : ℕ) (s : State α) : Prop where
  pusher : ∀ p, s.pusher p = .idle ∨ (∃ task, s.pusher p = .asleep task) ∨
    (∃ b, s.pusher p = .returned b) ∨ s.pusher p = .threw
  worker : ∀ i < n, s.worker i = .asleep ∨ (∃ task, s.worker i = .running task) ∨ s.worker i = .left
  closer : ∀ t, s.closer t = .idle ∨ (∃ b, s.closer t = .returned b) ∨
    ∃ i < n, s.closer t = .joining i ∧ s.worker i ≠ .left

/-- The parts of the pool that are not there, and what those who wait have found. -/
structure Orderly (n : ℕ) (s : State α) : Prop where
  beyond : ∀ i, n ≤ i → s.worker i = .entering
  bounded : ∀ p task, s.pusher p = .asleep task → s.queue.max_size ≠ 0
  joining : ∀ t i, s.closer t = .joining i → s.queue.shutdown = true
  roused : s.queue.shutdown = true →
    (∃ t pool, s.closer t = .notifyEmpty pool) ∨ ∀ i, s.worker i ≠ .asleep

lemma orderly_initial (max_size : ℕ) : Orderly n (State.initial max_size : State α) where
  beyond _ _ := rfl
  bounded := nofun
  joining := nofun
  roused _ := Or.inr nofun

lemma Orderly.keep (h : Orderly n s) (hw : ∀ i, n ≤ i → s'.worker i = s.worker i)
    (hp : ∀ p task, s'.pusher p = .asleep task → s.pusher p = .asleep task ∨ s.queue.max_size ≠ 0)
    (hmax : s'.queue.max_size = s.queue.max_size) (hshut : s'.queue.shutdown = s.queue.shutdown)
    (hcloser : s'.closer = s.closer)
    (hsleep : s.queue.shutdown = true → ∀ i, s'.worker i = .asleep → s.worker i = .asleep) :
    Orderly n s' where
  beyond i hi := (hw i hi).trans (h.beyond i hi)
  bounded p task hs := hmax ▸ (hp p task hs).elim (h.bounded p task) id
  joining t i hi := hshut.trans (h.joining t i (hcloser ▸ hi))
  roused hs := by
    rw [hshut] at hs
    rw [hcloser]
    exact (h.roused hs).imp_right fun hnone i hi => hnone i (hsleep hs i hi)

lemma Orderly.pushStep (h : Orderly n s) {p : ℕ} (hs : PushStep n s p s') : Orderly n s' := by
  cases hs with
  | sleep htesting hmay =>
    refine h.keep (fun _ _ => rfl) (fun _ _ _ => Or.inr ?_) rfl rfl rfl (fun _ _ hi => hi)
    simp only [TaskQueue.mayPush, Bool.or_eq_false_iff, beq_eq_false_iff_ne] at hmay
    exact hmay.1.2
  | accept hpassed hpush =>
    obtain ⟨-, rfl⟩ := TaskQueue.push_eq_some.mp hpush
    refine h.keep (fun _ _ => rfl) ?_ rfl rfl rfl (fun _ _ hi => hi)
    simp only [State.setPusher]
    grind
  | _ => refine h.keep ?_ ?_ rfl rfl rfl ?_ <;>
      simp only [State.setPusher, State.setWorker] <;> grind

lemma Orderly.workStep (h : Orderly n s) {i : ℕ} (hi : i < n) (hs : WorkStep s i s') :
    Orderly n s' := by
  cases hs with
  | sleep htesting hmay =>
    refine h.keep ?_ (fun _ _ hp => Or.inl hp) rfl rfl rfl (fun hshut => ?_)
    · simp only [State.setWorker]
      grind
    · rw [TaskQueue.mayPop, hshut] at hmay
      cases hmay
  | take hpassed hpop =>
    obtain ⟨_, -, rfl⟩ := TaskQueue.pop_eq_some.mp hpop
    refine h.keep ?_ (fun _ _ hp => Or.inl hp) rfl rfl rfl ?_ <;>
      simp only [State.setWorker] <;> grind
  | _ => refine h.keep ?_ ?_ rfl rfl rfl ?_ <;>
      simp only [State.setPusher, State.setWorker] <;> grind

lemma Orderly.closeStep (h : Orderly n s) {r : Tags} (hr : Roused s r) {t : ℕ}
    (hs : CloseStep n s t s') : Orderly n s' := by
  obtain ⟨hbeyond, hbounded, hjoining, hroused⟩ := h
  have hsending := hr.shut t
  constructor
  · intro i hi
    have := hbeyond i hi
    cases hs <;> simp only [State.setCloser] at * <;> grind [Worker.wake]
  · intro p task
    have := hbounded p task
    cases hs <;> simp only [State.setCloser, TaskQueue.close] at * <;> grind
  · intro u i
    have := hjoining u i
    have := hjoining t
    cases hs <;> simp only [State.setCloser, TaskQueue.close] at * <;> grind
  · cases hs with
    | close => exact fun _ => Or.inl ⟨t, _, Function.update_self ..⟩
    | notifyEmpty => exact fun _ => Or.inr fun i hi => (Worker.wake_ne_asleep _).mp hi
    | _ =>
      refine fun hshut => (hroused hshut).imp_left ?_
      rintro ⟨u, pool, hu⟩
      refine ⟨u, pool, (Function.update_of_ne ?_ ..).trans hu⟩
      rintro rfl
      grind

lemma orderly_run {max_size : ℕ} {c : State α × Tags}
    (h : TagRun n (State.initial max_size, Tags.none) c) : Orderly n c.1 := by
  induction h with
  | refl => exact orderly_initial max_size
  | tail hrun hs ih =>
    rcases hs.1 with ⟨p, hs⟩ | ⟨i, hi, hs⟩ | ⟨t, hs⟩
    · exact ih.pushStep hs
    · exact ih.workStep hi hs
    · exact ih.closeStep ((wakeInv_initial max_size).run hrun).roused hs

section Moves

/-- Who does not sleep and is not at an end can go on, once it has the mutex or nobody has. -/
lemma exists_pushStep {p : ℕ} (hidle : s.pusher p ≠ .idle)
    (hasleep : ∀ task, s.pusher p ≠ .asleep task)
    (hreturned : ∀ b, s.pusher p ≠ .returned b) (hthrew : s.pusher p ≠ .threw)
    (howner : (s.pusher p).inside = true ∨ s.owner = none) : ∃ s', PushStep n s p s' := by
  cases hp : s.pusher p with
  | idle => exact (hidle hp).elim
  | asleep task => exact (hasleep task hp).elim
  | returned b => exact (hreturned b hp).elim
  | threw => exact (hthrew hp).elim
  | entering task => exact ⟨_,
      .lock (Or.inl hp) (howner.resolve_left (by simp [hp, Pusher.inside]))⟩
  | woken task => exact ⟨_, .lock (Or.inr hp) (howner.resolve_left (by simp [hp, Pusher.inside]))⟩
  | testing task =>
    cases hmay : s.queue.mayPush with
    | true => exact ⟨_, .pass hp hmay⟩
    | false => exact ⟨_, .sleep hp hmay⟩
  | passed task => exact ⟨_, .throw hp⟩
  | notifying =>
    by_cases hsome : ∃ i < n, s.worker i = .asleep
    · obtain ⟨i, hi, hw⟩ := hsome
      exact ⟨_, .notify hp hi hw⟩
    · exact ⟨_, .notifyNobody hp fun i hi hw => hsome ⟨i, hi, hw⟩⟩

lemma exists_workStep {i : ℕ} (hasleep : s.worker i ≠ .asleep)
    (hrunning : ∀ task, s.worker i ≠ .running task)
    (hleft : s.worker i ≠ .left) (howner : (s.worker i).inside = true ∨ s.owner = none) :
    ∃ s', WorkStep s i s' := by
  cases hw : s.worker i with
  | asleep => exact (hasleep hw).elim
  | running task => exact (hrunning task hw).elim
  | left => exact (hleft hw).elim
  | entering => exact ⟨_, .lock (Or.inl hw) (howner.resolve_left (by simp [hw, Worker.inside]))⟩
  | woken => exact ⟨_, .lock (Or.inr hw) (howner.resolve_left (by simp [hw, Worker.inside]))⟩
  | testing =>
    cases hmay : s.queue.mayPop with
    | true => exact ⟨_, .pass hw hmay⟩
    | false => exact ⟨_, .sleep hw hmay⟩
  | passed =>
    cases hpop : s.queue.pop with
    | none => exact ⟨_, .leave hw hpop⟩
    | some x => exact ⟨_, .take hw hpop⟩
  | notifying task =>
    by_cases hsome : ∃ p task', s.pusher p = .asleep task'
    · obtain ⟨p, task', hp⟩ := hsome
      exact ⟨_, .notify hw hp⟩
    · exact ⟨_, .notifyNobody hw fun p task' hp => hsome ⟨p, task', hp⟩⟩

lemma exists_closeStep {t : ℕ} (hreturned : ∀ b, s.closer t ≠ .returned b)
    (hjoining : ∀ i < n, s.closer t = .joining i → s.worker i = .left)
    (howner : (s.closer t).inside = true ∨ s.owner = none) : ∃ s', CloseStep n s t s' := by
  cases ht : s.closer t with
  | idle => exact ⟨_, .callPool ht⟩
  | returned b => exact (hreturned b ht).elim
  | enter =>
    cases hstopped : s.stopped with
    | true => exact ⟨_, .late ht hstopped⟩
    | false => exact ⟨_, .first ht hstopped⟩
  | closing pool => exact ⟨_, .lock ht (howner.resolve_left (by simp [ht, Closer.inside]))⟩
  | setting pool => exact ⟨_, .close ht⟩
  | notifyEmpty pool => exact ⟨_, .notifyEmpty ht⟩
  | notifyFull pool => exact ⟨_, .notifyFull ht⟩
  | joining i =>
    by_cases hi : i < n
    · cases hjoined : s.joined i with
      | true => exact ⟨_, .joined ht hi hjoined⟩
      | false => exact ⟨_, .join ht hi hjoined (hjoining i hi ht)⟩
    · exact ⟨_, .done ht (not_lt.mp hi)⟩

end Moves

lemma AtRest.owner (h : AtRest n s) (hinv : Inv n s)
    (hbeyond : ∀ i, n ≤ i → s.worker i = .entering) : s.owner = none := by
  cases howner : s.owner with
  | none => rfl
  | some t =>
    have hinside := (hinv.locked t).mpr howner
    cases t with
    | pusher p =>
      have hp : (s.pusher p).inside = true := hinside
      obtain ⟨s', hs⟩ := exists_pushStep (s := s) (n := n) (p := p) (by grind) (by grind) (by grind)
        (by grind) (Or.inl hp)
      have := h.push p s' hs
      grind
    | worker i =>
      have hw : (s.worker i).inside = true := hinside
      have hi : i < n := by
        by_contra hge
        rw [hbeyond i (not_lt.mp hge)] at hw
        cases hw
      obtain ⟨s', hs⟩ := exists_workStep (s := s) (i := i) (by grind) (by grind) (by grind)
        (Or.inl hw)
      have := h.work i hi s' hs
      grind
    | closer t =>
      have ht : (s.closer t).inside = true := hinside
      obtain ⟨s', hs⟩ := exists_closeStep (s := s) (n := n) (t := t) (by grind)
        (by grind) (Or.inl ht)
      have := h.close t s' hs
      grind

lemma AtRest.settled (h : AtRest n s) (hinv : Inv n s)
    (hbeyond : ∀ i, n ≤ i → s.worker i = .entering) : Settled n s := by
  have howner := h.owner hinv hbeyond
  refine ⟨fun p => ?_, fun i hi => ?_, fun t => ?_⟩
  · by_contra hnot
    simp only [not_or, not_exists] at hnot
    obtain ⟨hidle, hasleep, hreturned, hthrew⟩ := hnot
    obtain ⟨s', hs⟩ := exists_pushStep (n := n) hidle hasleep hreturned hthrew (Or.inr howner)
    exact (h.push p s' hs).elim hidle fun ⟨task, hp⟩ => hasleep task hp
  · by_contra hnot
    simp only [not_or, not_exists] at hnot
    obtain ⟨hasleep, hrunning, hleft⟩ := hnot
    obtain ⟨s', hs⟩ := exists_workStep hasleep hrunning hleft (Or.inr howner)
    exact (h.work i hi s' hs).elim hasleep fun ⟨task, hw⟩ => hrunning task hw
  · by_contra hnot
    simp only [not_or, not_exists, not_and, not_not] at hnot
    obtain ⟨hidle, hreturned, hjoining⟩ := hnot
    obtain ⟨s', hs⟩ := exists_closeStep hreturned hjoining (Or.inr howner)
    exact hidle (h.close t s' hs)

/-- Whom each thread of a pool at rest waits for. -/
structure Rest (n : ℕ) (s : State α) : Prop where
  worker : ∀ i < n, (∃ task, s.worker i = .running task) ∨
    (s.worker i = .asleep ∧ s.queue.queue = [] ∧ s.queue.shutdown = false) ∨
    (s.worker i = .left ∧ s.queue.queue = [] ∧ s.queue.shutdown = true)
  pusher : ∀ p, s.pusher p = .idle ∨ (∃ b, s.pusher p = .returned b) ∨ s.pusher p = .threw ∨
    (∃ task, s.pusher p = .asleep task) ∧ ((∃ q, s.pusher q = .threw) ∨
      s.queue.queue.length = s.queue.max_size ∧ ∀ i < n, ∃ task, s.worker i = .running task)
  closer : ∀ t, s.closer t = .idle ∨ (∃ b, s.closer t = .returned b) ∨
    ∃ i < n, s.closer t = .joining i ∧ ∃ task, s.worker i = .running task
  done : 1 ≤ n → (∀ i < n, ∀ task, s.worker i ≠ .running task) → s.ran.Perm s.accepted

lemma Settled.no_pops (h : Settled n s) {r : Tags} (ht : Tagged s r) : s.towardsPop n r = ∅ := by
  rw [Set.eq_empty_iff_forall_notMem]
  rintro (p | i | t) hx
  · have hp : s.pusher p = .notifying := hx
    have := h.pusher p
    grind
  · obtain ⟨hi, hr⟩ := hx
    have := ht.stays hr
    have := h.worker i hi
    grind
  · exact hx

lemma Settled.no_pushes (h : Settled n s) {r : Tags} (ht : Tagged s r)
    (hthrew : ∀ p, s.pusher p ≠ .threw) : s.towardsPush n r = ∅ := by
  rw [Set.eq_empty_iff_forall_notMem]
  rintro (p | i | t) hx
  · rcases hx with hr | hp
    · have := ht.waits hr
      have := h.pusher p
      grind
    · exact hthrew p hp
  · obtain ⟨hi, task, hw⟩ := hx
    have := h.worker i hi
    grind
  · exact hx

lemma backed_empty {τ : Type} {k : ℕ} (h : Backed k (∅ : Set τ)) : k = 0 := by
  rw [Backed, Set.encard_empty] at h
  exact_mod_cast le_antisymm h zero_le

lemma Settled.rest (h : Settled n s) {r : Tags} (hwake : WakeInv n (s, r)) (ho : Orderly n s) :
    Rest n s := by
  have hquiet : ∀ t, (s.closer t).isSending = false := by
    intro t
    have := h.closer t
    grind
  have hworker : ∀ i < n, (∃ task, s.worker i = .running task) ∨
      (s.worker i = .asleep ∧ s.queue.queue = [] ∧ s.queue.shutdown = false) ∨
      (s.worker i = .left ∧ s.queue.queue = [] ∧ s.queue.shutdown = true) := by
    intro i hi
    rcases h.worker i hi with hasleep | hrunning | hleft
    · have hbacked := hwake.pops ⟨i, hi, hasleep⟩
      rw [h.no_pops hwake.tagged] at hbacked
      refine Or.inr (Or.inl ⟨hasleep, List.eq_nil_of_length_eq_zero (backed_empty hbacked), ?_⟩)
      by_contra hshut
      rcases ho.roused ((Bool.not_eq_false _).mp hshut) with ⟨t, pool, ht⟩ | hnone
      · have := hquiet t
        simp [ht, Closer.isSending] at this
      · exact hnone i hasleep
    · exact Or.inl hrunning
    · obtain ⟨hshut, hempty⟩ := hwake.inv.drained i hleft
      exact Or.inr (Or.inr ⟨hleft, hempty, hshut⟩)
  refine ⟨hworker, fun p => ?_, fun t => ?_, fun hn hidle => ?_⟩
  · rcases h.pusher p with hidle | ⟨task, hasleep⟩ | hreturned | hthrew
    · exact Or.inl hidle
    · refine Or.inr (Or.inr (Or.inr ⟨⟨task, hasleep⟩, ?_⟩))
      by_cases hthrew : ∃ q, s.pusher q = .threw
      · exact Or.inl hthrew
      have hmax := ho.bounded p task hasleep
      have hsending : ¬ s.sending := by
        rintro ⟨t, ht⟩
        rw [hquiet t] at ht
        cases ht
      have hbacked := (hwake.pushes hmax ⟨p, task, hasleep⟩).resolve_left hsending
      rw [h.no_pushes hwake.tagged fun q hq => hthrew ⟨q, hq⟩] at hbacked
      have hfull : s.queue.queue.length = s.queue.max_size :=
        le_antisymm (hwake.inv.ordered.bound hmax)
          (Nat.sub_eq_zero_iff_le.mp (backed_empty hbacked))
      have hne : s.queue.queue ≠ [] := fun hempty => hmax (by rw [← hfull, hempty]; rfl)
      refine Or.inr ⟨hfull, fun i hi => ?_⟩
      exact (hworker i hi).resolve_right
        (by rintro (⟨-, hempty, -⟩ | ⟨-, hempty, -⟩) <;> exact hne hempty)
    · exact Or.inr (Or.inl hreturned)
    · exact Or.inr (Or.inr (Or.inl hthrew))
  · rcases h.closer t with hidle | hreturned | ⟨i, hi, hjoining, hleft⟩
    · exact Or.inl hidle
    · exact Or.inr (Or.inl hreturned)
    · refine Or.inr (Or.inr ⟨i, hi, hjoining, ?_⟩)
      rcases hworker i hi with hrunning | ⟨-, -, hopen⟩ | ⟨hl, -⟩
      · exact hrunning
      · rw [ho.joining t i hjoining] at hopen
        cases hopen
      · exact (hleft hl).elim
  · have hempty : s.queue.queue = [] := by
      rcases hworker 0 hn with ⟨task, hrunning⟩ | ⟨-, hempty, -⟩ | ⟨-, hempty, -⟩
      · exact (hidle 0 hn task hrunning).elim
      · exact hempty
      · exact hempty
    have hnothing : s.held n = 0 := by
      apply Finset.sum_eq_zero
      intro i hi
      have := hidle i (Finset.mem_range.mp hi)
      have := hworker i (Finset.mem_range.mp hi)
      grind
    have hhandled := hwake.inv.handled
    rw [Handled, hnothing, add_zero] at hhandled
    rw [hwake.inv.ordered.order, hempty, List.append_nil]
    exact (Multiset.coe_eq_coe.mp hhandled).symm

lemma AtRest.rest {max_size : ℕ} (hrest : AtRest n s) (h : Run n (.initial max_size) s) :
    Rest n s := by
  obtain ⟨r, hr⟩ := exists_tagRun h .none
  have hwake := (wakeInv_initial max_size).run hr
  have ho := orderly_run hr
  exact (hrest.settled hwake.inv ho.beyond).rest hwake ho

/-- In every run, when no thread of the pool can go on by itself, each worker that is not at a task
has an empty queue, and all that wait else wait for tasks to end; without such tasks all that was
accepted is done. -/
theorem rest_of_run (max_size n : ℕ) (s : State α) (h : Run n (.initial max_size) s)
    (hrest : AtRest n s) : Rest n s := hrest.rest h

/-- The only worker has done the only task, and sleeps. -/
theorem rest_of_run_one : ∃ s : State ℕ, s.worker 0 = .asleep ∧ s.ran = [7] ∧ Rest 1 s := by
  refine ⟨_, ?_, ?_, rest_of_run 1 1 _ (
    .head (.push 0 (.call 7 rfl)) <| .head (.push 0 (.lock (.inl rfl) rfl)) <|
    .head (.push 0 (.pass rfl rfl)) <| .head (.push 0 (.accept rfl rfl)) <|
    .head (.push 0 (.notifyNobody rfl ?_)) <|
    .head (.work 0 Nat.one_pos (.lock (.inl rfl) rfl)) <|
      .head (.work 0 Nat.one_pos (.pass rfl rfl)) <|
    .head (.work 0 Nat.one_pos (.take rfl rfl)) <|
      .head (.work 0 Nat.one_pos (.notifyNobody rfl ?_)) <|
    .head (.work 0 Nat.one_pos (.finish rfl)) <|
    .head (.work 0 Nat.one_pos (.lock (.inl rfl) rfl)) <|
    .head (.work 0 Nat.one_pos (.sleep rfl rfl)) .refl) ⟨?_, ?_, ?_⟩⟩
  · rfl
  · rfl
  · intro i hi
    simp [State.setPusher, State.initial]
  · intro p task
    simp only [State.setPusher, State.setWorker, State.initial, Function.update_apply]
    split <;> rintro ⟨⟩
  · intro p s' hs
    by_cases hp : p = 0
    · subst hp
      cases hs <;> simp_all [State.setPusher, State.setWorker, State.initial]
    · exact Or.inl (by simp [State.setPusher, State.setWorker, State.initial, hp])
  · intro i hi _ _
    obtain rfl : i = 0 := by omega
    exact Or.inl rfl
  · intro t _ _
    rfl

end Mtfss.Pool
