import Mtfss.Effects.Backing
import Mtfss.Properties.TaskOrder

/-! No wake-up of the task queue is lost. -/

namespace Mtfss.Pool

open Effects

variable {α : Type} {n : ℕ} {s s' : State α}

/-- What the threads have behind them: whether a worker or a producer has been woken and is not done
with its new test, and whether a call of `TaskQueue::shutdown` has returned. -/
structure Tags where
  worker : ℕ → Bool
  pusher : ℕ → Bool
  closer : ℕ → Bool

def Tags.none : Tags := ⟨fun _ => false, fun _ => false, fun _ => false⟩

def Worker.recalled : Worker α → Bool → Bool
  | .woken, _ => true
  | .testing, b => b
  | .passed, b => b
  | _, _ => false

def Pusher.recalled : Pusher α → Bool → Bool
  | .woken _, _ => true
  | .testing _, b => b
  | .passed _, b => b
  | _, _ => false

def Closer.isLast : Closer → Bool
  | .notifyFull _ => true
  | _ => false

def Tags.after (r : Tags) (s s' : State α) : Tags where
  worker i := (s'.worker i).recalled (r.worker i)
  pusher p := (s'.pusher p).recalled (r.pusher p)
  closer t := r.closer t || ((s.closer t).isLast && !(s'.closer t).isLast)

def TagStep (n : ℕ) (c c' : State α × Tags) : Prop := Step n c.1 c'.1 ∧ c'.2 = c.2.after c.1 c'.1

abbrev TagRun (n : ℕ) : State α × Tags → State α × Tags → Prop := Relation.ReflTransGen (TagStep n)

/-- The consumers that have been woken and are not done with their new test, and the notifications
of `not_empty_` that are still to be sent. -/
def State.towardsPop (n : ℕ) (s : State α) (r : Tags) : Set Thread
  | .worker i => i < n ∧ r.worker i = true
  | .pusher p => s.pusher p = .notifying
  | .closer _ => False

/-- The producers that have been woken and are not done with their new test, the notifications of
`not_full_` that are still to be sent, and the producers that have thrown. -/
def State.towardsPush (n : ℕ) (s : State α) (r : Tags) : Set Thread
  | .worker i => i < n ∧ ∃ task, s.worker i = .notifying task
  | .pusher p => r.pusher p = true ∨ s.pusher p = .threw
  | .closer _ => False

/-- `shutdown_` has been set, and the `notify_all` on `not_full_` is still to be sent. -/
def Closer.isSending : Closer → Bool
  | .notifyEmpty _ => true
  | .notifyFull _ => true
  | _ => false

def State.sending (s : State α) : Prop := ∃ t, (s.closer t).isSending = true

lemma Closer.isSending_update {closer : ℕ → Closer} {t : ℕ} {x : Closer} (hx : x.isSending = true) :
    (Function.update closer t x t).isSending = true := by
  rwa [Function.update_self]

lemma State.sending.update {t : ℕ} (h : s.sending) (ht : (s.closer t).isSending = false)
    (x : Closer) : ∃ u, (Function.update s.closer t x u).isSending = true := by
  obtain ⟨u, hu⟩ := h
  have hne : u ≠ t := fun heq => by
    rw [heq, ht] at hu
    cases hu
  exact ⟨u, by rwa [Function.update_of_ne hne]⟩

/-- The tags are of threads that are in their waits. -/
structure Tagged (s : State α) (r : Tags) : Prop where
  worker : ∀ i, (s.worker i).recalled (r.worker i) = r.worker i
  pusher : ∀ p, (s.pusher p).recalled (r.pusher p) = r.pusher p

lemma tagged_after (s s' : State α) (r : Tags) : Tagged s' (r.after s s') := by
  constructor
  · intro i
    simp only [Tags.after]
    cases s'.worker i <;> rfl
  · intro p
    simp only [Tags.after]
    cases s'.pusher p <;> rfl

section Pops

variable {r : Tags}

lemma towardsPop_subset (A : Set Thread)
    (hw : ∀ i < n, Thread.worker i ∉ A → r.worker i = true → (s'.worker i).recalled true = true)
    (hp : ∀ p, Thread.pusher p ∉ A → s.pusher p = .notifying → s'.pusher p = .notifying) :
    s.towardsPop n r \ A ⊆ s'.towardsPop n (r.after s s') := by
  rintro (p | i | t) ⟨h, hA⟩
  · exact hp p hA h
  · refine ⟨h.1, ?_⟩
    show (s'.worker i).recalled (r.worker i) = true
    rw [h.2]
    exact hw i h.1 hA h.2
  · exact h

attribute [grind] Worker.recalled Pusher.recalled

lemma Tagged.stays (h : Tagged s r) {i : ℕ} (hi : r.worker i = true) :
    (s.worker i).recalled true = true := by
  have hw := h.worker i
  rwa [hi] at hw

/-- A sleeping consumer has a wake-up on its way for each task in the queue. -/
def PopsBacked (n : ℕ) (s : State α) (r : Tags) : Prop :=
  (∃ i < n, s.worker i = .asleep) → Backed s.queue.queue.length (s.towardsPop n r)

lemma PopsBacked.repay (h : PopsBacked n s r) (hs : (∃ i < n, s'.worker i = .asleep) →
    s'.queue.queue = [] ∨ (∃ i < n, s.worker i = .asleep) ∧ Repays s.queue.queue.length
      s'.queue.queue.length (s.towardsPop n r) (s'.towardsPop n (r.after s s'))) :
    PopsBacked n s' (r.after s s') := by
  intro hasleep
  obtain hempty | ⟨hold, hrepays⟩ := hs hasleep
  · rw [hempty]
    exact backed_zero _
  · exact (h hold).repay hrepays

lemma PopsBacked.pushStep (h : PopsBacked n s r) (ht : Tagged s r) {p : ℕ}
    (hs : PushStep n s p s') : PopsBacked n s' (r.after s s') := by
  have hkeep : (∀ i, s'.worker i = s.worker i) → s'.queue.queue = s.queue.queue →
      (∀ q, s.pusher q = .notifying → s'.pusher q = .notifying) →
        PopsBacked n s' (r.after s s') := by
    intro hworker hqueue hp
    apply h.repay
    simp only [hworker]
    refine fun hasleep => Or.inr ⟨hasleep, .keep (by rw [hqueue]) ?_⟩
    rw [← Set.sdiff_empty (s := s.towardsPop n r)]
    refine towardsPop_subset ∅ (fun i _ _ hi => ?_) (fun q _ hq => hp q hq)
    rw [hworker]
    exact ht.stays hi
  cases hs with
  | @accept task q hpassed hpush =>
    obtain ⟨-, rfl⟩ := TaskQueue.push_eq_some.mp hpush
    apply h.repay
    refine fun hasleep => Or.inr ⟨hasleep, .gain (.pusher p) ?_ ?_ ?_ ?_⟩
    · exact (List.length_append ..).le
    · rw [← Set.sdiff_empty (s := s.towardsPop n r)]
      refine towardsPop_subset ∅ (fun i _ _ hi => ht.stays hi) (fun q _ hq => ?_)
      simp only [State.setPusher]
      grind
    · exact Function.update_self _ _ _
    · intro hin
      cases hpassed.symm.trans hin
  | @notify i hnotifying hi hsleep =>
    apply h.repay
    refine fun _ => Or.inr ⟨⟨i, hi, hsleep⟩, .pass (.pusher p) (.worker i) le_rfl ?_ ?_ ?_⟩
    · apply towardsPop_subset
      · intro j hj _ hr
        have hstays := ht.stays hr
        simp only [State.setPusher, State.setWorker]
        grind
      · intro q hq hnot
        simp only [State.setPusher, State.setWorker]
        grind
    · refine ⟨hi, ?_⟩
      show (Function.update s.worker i .woken i).recalled _ = true
      rw [Function.update_self]
      rfl
    · intro hin
      have hstays := ht.stays hin.2
      rw [hsleep] at hstays
      cases hstays
  | notifyNobody hnotifying hnobody =>
    rintro ⟨j, hj, hasleep⟩
    exact (hnobody j hj hasleep).elim
  | _ => exact hkeep (fun _ => rfl) rfl (by simp only [State.setPusher]; grind)

lemma PopsBacked.workStep (h : PopsBacked n s r) (ht : Tagged s r) (hr : Ready s) {i : ℕ}
    (hs : WorkStep s i s') : PopsBacked n s' (r.after s s') := by
  have hkeep : s'.queue.queue = s.queue.queue →
      (∀ j, s'.worker j = .asleep → s.worker j = .asleep) →
      (∀ j, r.worker j = true → (s'.worker j).recalled true = true) →
      (∀ q, s.pusher q = .notifying → s'.pusher q = .notifying) →
        PopsBacked n s' (r.after s s') := by
    intro hqueue hsleep hw hp
    apply h.repay
    rintro ⟨j, hj, hasleep⟩
    refine Or.inr ⟨⟨j, hj, hsleep j hasleep⟩, .keep (by rw [hqueue]) ?_⟩
    rw [← Set.sdiff_empty (s := s.towardsPop n r)]
    exact towardsPop_subset ∅ (fun j _ _ => hw j) (fun q _ hq => hp q hq)
  have hstays := fun j => ht.stays (i := j)
  cases hs with
  | sleep htesting hmay =>
    apply h.repay
    refine fun _ => Or.inl ?_
    have hempty : s.queue.queue = [] := by
      simpa [TaskQueue.mayPop] using (Bool.or_eq_false_iff.mp hmay).2
    exact hempty
  | leave hpassed hpop =>
    apply h.repay
    exact fun _ => Or.inl (TaskQueue.pop_eq_none (hr.pop i hpassed) hpop).2
  | @take task q hpassed hpop =>
    obtain ⟨rest, hrest, rfl⟩ := TaskQueue.pop_eq_some.mp hpop
    apply h.repay
    rintro ⟨j, hj, hasleep⟩
    have hold : s.worker j = .asleep := by
      simp only [State.setWorker] at hasleep
      grind
    refine Or.inr ⟨⟨j, hj, hold⟩, .spend (.worker i) ?_ ?_⟩
    · rw [hrest]
      exact le_rfl
    · apply towardsPop_subset
      · intro j hj hne hr
        have hstays := ht.stays hr
        simp only [State.setWorker]
        grind
      · exact fun q _ hq => hq
  | lock | wake | pass | notify | notifyNobody | finish =>
    refine hkeep rfl ?_ ?_ ?_ <;> simp only [State.setWorker, State.setPusher] <;> grind

lemma PopsBacked.closeStep (h : PopsBacked n s r) (ht : Tagged s r) {t : ℕ}
    (hs : CloseStep n s t s') : PopsBacked n s' (r.after s s') := by
  have hwake : ∀ q, s.pusher q = .notifying → (s.pusher q).wake = .notifying := by
    intro q hq
    rw [hq]
    rfl
  have hkeep : s'.queue.queue = s.queue.queue → s'.worker = s.worker →
      (∀ q, s.pusher q = .notifying → s'.pusher q = .notifying) →
        PopsBacked n s' (r.after s s') := by
    intro hqueue hworker hp
    apply h.repay
    rw [hworker]
    refine fun hasleep => Or.inr ⟨hasleep, .keep (by rw [hqueue]) ?_⟩
    rw [← Set.sdiff_empty (s := s.towardsPop n r)]
    refine towardsPop_subset ∅ (fun i _ _ hi => ?_) (fun q _ hq => hp q hq)
    rw [hworker]
    exact ht.stays hi
  cases hs with
  | notifyEmpty hclosing =>
    rintro ⟨j, -, hasleep⟩
    have hawake : (s.worker j).wake ≠ .asleep := by
      cases s.worker j <;> nofun
    exact (hawake hasleep).elim
  | notifyFull hclosing => exact hkeep rfl rfl hwake
  | _ => exact hkeep rfl rfl (fun _ hq => hq)

end Pops

section Shutdown

variable {r : Tags}

/-- Nobody sleeps in the queue once a call of its `shutdown` has sent its notifications. -/
structure Roused (s : State α) (r : Tags) : Prop where
  shut : ∀ t, (s.closer t).isSending = true → s.queue.shutdown = true
  emptied : ∀ t pool i, s.closer t = .notifyFull pool → s.worker i ≠ .asleep
  pushers : s.queue.shutdown = true → s.sending ∨ ∀ p task, s.pusher p ≠ .asleep task
  ended : ∀ t, r.closer t = true → s.queue.shutdown = true ∧ (∀ i, s.worker i ≠ .asleep) ∧
    ∀ p task, s.pusher p ≠ .asleep task

attribute [grind] Closer.isSending Closer.isLast

lemma Roused.keep (h : Roused s r) (hshut : s'.queue.shutdown = s.queue.shutdown)
    (hcloser : s'.closer = s.closer)
    (hworker : s.queue.shutdown = true → ∀ i, s'.worker i = .asleep → s.worker i = .asleep)
    (hpusher : s.queue.shutdown = true →
      ∀ p task, s'.pusher p = .asleep task → s.pusher p = .asleep task) :
    Roused s' (r.after s s') := by
  have hsending : s'.sending ↔ s.sending := by rw [State.sending, State.sending, hcloser]
  constructor
  · intro t ht
    rw [hcloser] at ht
    exact hshut.trans (h.shut t ht)
  · intro t pool i ht hi
    rw [hcloser] at ht
    exact h.emptied t pool i ht (hworker (h.shut t (by rw [ht]; rfl)) i hi)
  · intro hs
    rw [hshut] at hs
    refine (h.pushers hs).imp hsending.mpr fun hnobody p task hp => ?_
    exact hnobody p task (hpusher hs p task hp)
  · intro t ht
    simp only [Tags.after, hcloser, Bool.and_not_self, Bool.or_false] at ht
    obtain ⟨hs, hworkers, hpushers⟩ := h.ended t ht
    exact ⟨hshut.trans hs, fun i hi => hworkers i (hworker hs i hi),
      fun p task hp => hpushers p task (hpusher hs p task hp)⟩

lemma Roused.pushStep (h : Roused s r) {p : ℕ} (hs : PushStep n s p s') :
    Roused s' (r.after s s') := by
  cases hs with
  | sleep htesting hmay =>
    refine h.keep rfl rfl (fun _ _ hi => hi) (fun hshut => ?_)
    rw [TaskQueue.mayPush, hshut] at hmay
    cases hmay
  | accept hpassed hpush =>
    obtain ⟨-, rfl⟩ := TaskQueue.push_eq_some.mp hpush
    refine h.keep rfl rfl (fun _ _ hi => hi) ?_
    simp only [State.setPusher]
    grind
  | _ => refine h.keep rfl rfl ?_ ?_ <;> simp only [State.setPusher, State.setWorker] <;> grind

lemma Roused.workStep (h : Roused s r) {i : ℕ} (hs : WorkStep s i s') :
    Roused s' (r.after s s') := by
  cases hs with
  | sleep htesting hmay =>
    refine h.keep rfl rfl (fun hshut => ?_) (fun _ _ _ hp => hp)
    rw [TaskQueue.mayPop, hshut] at hmay
    cases hmay
  | take hpassed hpop =>
    obtain ⟨_, -, rfl⟩ := TaskQueue.pop_eq_some.mp hpop
    refine h.keep rfl rfl ?_ (fun _ _ _ hp => hp)
    simp only [State.setWorker]
    grind
  | _ => refine h.keep rfl rfl ?_ ?_ <;> simp only [State.setPusher, State.setWorker] <;> grind

@[grind =] lemma Worker.wake_ne_asleep (x : Worker α) : x.wake = .asleep ↔ False := by
  cases x <;> simp [wake]

@[grind =] lemma Pusher.wake_ne_asleep (x : Pusher α) (task : α) :
    x.wake = .asleep task ↔ False := by
  cases x <;> simp [wake]

lemma Roused.closeStep (h : Roused s r) {t : ℕ} (hs : CloseStep n s t s') :
    Roused s' (r.after s s') := by
  obtain ⟨hshut, hemptied, hpushers, hover⟩ := h
  constructor
  · intro u
    have hu := hshut u
    cases hs <;> simp only [State.setCloser, TaskQueue.close] at * <;> grind
  · intro u pool i
    have hu := hemptied u pool i
    cases hs <;> simp only [State.setCloser] at * <;> grind
  · cases hs with
    | close => exact fun _ => Or.inl ⟨t, Closer.isSending_update rfl⟩
    | notifyEmpty => exact fun _ => Or.inl ⟨t, Closer.isSending_update rfl⟩
    | notifyFull =>
      refine fun _ => Or.inr fun p task hp => ?_
      exact (Pusher.wake_ne_asleep _ _).mp hp
    | _ => exact fun hs => (hpushers hs).imp_left fun hsending => hsending.update (by grind) _
  · intro u
    have hu := hover u
    have ht := hemptied t
    have ht' := hshut t
    cases hs <;> simp only [State.setCloser, Tags.after, TaskQueue.close] at * <;> grind

end Shutdown

section Pushes

variable {r : Tags}

lemma towardsPush_subset (A : Set Thread)
    (hw : ∀ i < n, Thread.worker i ∉ A → (∃ task, s.worker i = .notifying task) →
      ∃ task, s'.worker i = .notifying task)
    (hp : ∀ p, Thread.pusher p ∉ A → r.pusher p = true →
      (s'.pusher p).recalled true = true ∨ s'.pusher p = .threw)
    (ht : ∀ p, Thread.pusher p ∉ A → s.pusher p = .threw → s'.pusher p = .threw) :
    s.towardsPush n r \ A ⊆ s'.towardsPush n (r.after s s') := by
  rintro (p | i | t) ⟨h, hA⟩
  · rcases h with h | h
    · refine (hp p hA h).imp_left fun hrecalled => ?_
      show (s'.pusher p).recalled (r.pusher p) = true
      rwa [h]
    · exact Or.inr (ht p hA h)
  · exact ⟨h.1, hw i h.1 hA h.2⟩
  · exact h

lemma Tagged.waits (h : Tagged s r) {p : ℕ} (hp : r.pusher p = true) :
    (s.pusher p).recalled true = true := by
  have hr := h.pusher p
  rwa [hp] at hr

/-- A sleeping producer has a wake-up on its way for each free slot, unless one for all is on its
way. -/
def PushesBacked (n : ℕ) (s : State α) (r : Tags) : Prop :=
  s.queue.max_size ≠ 0 → (∃ p task, s.pusher p = .asleep task) →
    s.sending ∨ Backed (s.queue.max_size - s.queue.queue.length) (s.towardsPush n r)

lemma PushesBacked.repay (h : PushesBacked n s r) (hmax : s'.queue.max_size = s.queue.max_size)
    (hs : s.queue.max_size ≠ 0 → (∃ p task, s'.pusher p = .asleep task) →
      s'.sending ∨ s.queue.max_size ≤ s'.queue.queue.length ∨
        (∃ p task, s.pusher p = .asleep task) ∧ (s.sending → s'.sending) ∧
          Repays (s.queue.max_size - s.queue.queue.length)
            (s.queue.max_size - s'.queue.queue.length) (s.towardsPush n r)
            (s'.towardsPush n (r.after s s'))) :
    PushesBacked n s' (r.after s s') := by
  intro hbound hasleep
  rw [hmax] at hbound ⊢
  obtain hsending | hfull | ⟨hold, hsending, hrepays⟩ := hs hbound hasleep
  · exact Or.inl hsending
  · rw [Nat.sub_eq_zero_of_le hfull]
    exact Or.inr (backed_zero _)
  · exact (h hbound hold).imp hsending fun hbacked => hbacked.repay hrepays

lemma PushesBacked.pushStep (h : PushesBacked n s r) (ht : Tagged s r) (hr : Ready s)
    (hq : Roused s r) {p : ℕ} (hs : PushStep n s p s') : PushesBacked n s' (r.after s s') := by
  have hwaits := fun q => ht.waits (p := q)
  have hkeep : s'.queue = s.queue → s'.closer = s.closer →
      (∀ q task, s'.pusher q = .asleep task → s.pusher q = .asleep task) →
      (∀ i, (∃ task, s.worker i = .notifying task) → ∃ task, s'.worker i = .notifying task) →
      (∀ q, r.pusher q = true → (s'.pusher q).recalled true = true ∨ s'.pusher q = .threw) →
      (∀ q, s.pusher q = .threw → s'.pusher q = .threw) → PushesBacked n s' (r.after s s') := by
    intro hqueue hcloser hsleep hw hp hthrew
    apply h.repay (by rw [hqueue])
    rintro - ⟨q, task, hasleep⟩
    refine Or.inr (Or.inr ⟨⟨q, task, hsleep q task hasleep⟩, ?_, .keep (by rw [hqueue]) ?_⟩)
    · rw [State.sending, State.sending, hcloser]
      exact id
    · rw [← Set.sdiff_empty (s := s.towardsPush n r)]
      exact towardsPush_subset ∅ (fun i _ _ => hw i) (fun q _ => hp q) (fun q _ => hthrew q)
  cases hs with
  | sleep htesting hmay =>
    refine h.repay ?_ ?_
    · rfl
    refine fun hmax _ => Or.inr (Or.inl ?_)
    simp only [TaskQueue.mayPush, Bool.or_eq_false_iff, decide_eq_false_iff_not] at hmay
    exact Nat.le_of_not_lt hmay.2
  | @refuse task hpassed hpush =>
    have hshut : s.queue.shutdown = true := by
      by_contra hopen
      rw [TaskQueue.push, if_neg hopen] at hpush
      cases hpush
    refine h.repay ?_ ?_
    · rfl
    rintro - ⟨q, task', hasleep⟩
    refine Or.inl ((hq.pushers hshut).resolve_right fun hnobody => hnobody q task' ?_)
    simp only [State.setPusher] at hasleep
    grind
  | @accept task q hpassed hpush =>
    obtain ⟨hopen, rfl⟩ := TaskQueue.push_eq_some.mp hpush
    refine h.repay ?_ ?_
    · rfl
    rintro hmax ⟨q, task', hasleep⟩
    have hold : s.pusher q = .asleep task' := by
      simp only [State.setPusher] at hasleep
      grind
    have hroom : s.queue.queue.length < s.queue.max_size := by
      have hmay := hr.push p task hpassed
      simpa [TaskQueue.mayPush, hopen, hmax] using hmay
    refine Or.inr (Or.inr ⟨⟨q, task', hold⟩, id, .spend (.pusher p) ?_ ?_⟩)
    · simp only [List.length_append, List.length_singleton]
      omega
    · apply towardsPush_subset
      · exact fun i _ _ hi => hi
      · intro q hq hrecalled
        have hstays := ht.waits hrecalled
        simp only [State.setPusher]
        grind
      · intro q hq hthrew
        simp only [State.setPusher]
        grind
  | _ =>
    refine hkeep rfl rfl ?_ ?_ ?_ ?_ <;> simp only [State.setWorker, State.setPusher] <;> grind

lemma PushesBacked.workStep (h : PushesBacked n s r) (ht : Tagged s r) {i : ℕ} (hi : i < n)
    (hs : WorkStep s i s') : PushesBacked n s' (r.after s s') := by
  have hkeep : s'.queue = s.queue → s'.closer = s.closer → s'.pusher = s.pusher →
      (∀ j, (∃ task, s.worker j = .notifying task) → ∃ task, s'.worker j = .notifying task) →
      PushesBacked n s' (r.after s s') := by
    intro hqueue hcloser hpusher hw
    refine h.repay (by rw [hqueue]) ?_
    rw [hpusher]
    refine fun _ hasleep => Or.inr (Or.inr ⟨hasleep, ?_, .keep (by rw [hqueue]) ?_⟩)
    · rw [State.sending, State.sending, hcloser]
      exact id
    · rw [← Set.sdiff_empty (s := s.towardsPush n r)]
      refine towardsPush_subset ∅ (fun j _ _ => hw j) (fun q _ hq => ?_) (fun q _ hq => ?_)
      · rw [hpusher]
        exact Or.inl (ht.waits hq)
      · rwa [hpusher]
  cases hs with
  | @take task q hpassed hpop =>
    obtain ⟨rest, hrest, rfl⟩ := TaskQueue.pop_eq_some.mp hpop
    refine h.repay ?_ ?_
    · rfl
    refine fun _ hasleep => Or.inr (Or.inr ⟨hasleep, id, .gain (.worker i) ?_ ?_ ?_ ?_⟩)
    · rw [hrest, List.length_cons]
      show s.queue.max_size - rest.length ≤ _
      omega
    · rw [← Set.sdiff_empty (s := s.towardsPush n r)]
      refine towardsPush_subset ∅ (fun j _ _ hj => ?_) (fun q _ hq => Or.inl (ht.waits hq))
        (fun q _ hq => hq)
      simp only [State.setWorker]
      grind
    · exact ⟨hi, task, Function.update_self _ _ _⟩
    · rintro ⟨-, task', hnotifying⟩
      cases hpassed.symm.trans hnotifying
  | @notify task task' p hnotifying hsleep =>
    refine h.repay ?_ ?_
    · rfl
    refine fun _ _ => Or.inr (Or.inr ⟨⟨p, task', hsleep⟩, id, ?_⟩)
    refine .pass (.worker i) (.pusher p) le_rfl ?_ ?_ ?_
    · apply towardsPush_subset
      · intro j _ hne hj
        simp only [State.setWorker, State.setPusher]
        grind
      · intro q _ hrecalled
        have hstays := ht.waits hrecalled
        simp only [State.setWorker, State.setPusher]
        grind
      · intro q _ hthrew
        simp only [State.setWorker, State.setPusher]
        grind
    · refine Or.inl ?_
      show (Function.update s.pusher p (.woken task') p).recalled _ = true
      rw [Function.update_self]
      rfl
    · rintro (hrecalled | hthrew)
      · have hstays := ht.waits hrecalled
        rw [hsleep] at hstays
        cases hstays
      · cases hsleep.symm.trans hthrew
  | notifyNobody hnotifying hnobody =>
    rintro - ⟨p, task', hasleep⟩
    exact (hnobody p task' hasleep).elim
  | _ =>
    refine hkeep rfl rfl rfl ?_
    simp only [State.setWorker]
    grind

lemma PushesBacked.closeStep (h : PushesBacked n s r) (ht : Tagged s r) {t : ℕ}
    (hs : CloseStep n s t s') : PushesBacked n s' (r.after s s') := by
  have hkeep : s'.queue = s.queue → s'.worker = s.worker → s'.pusher = s.pusher →
      (s.sending → s'.sending) → PushesBacked n s' (r.after s s') := by
    intro hqueue hworker hpusher hsending
    refine h.repay (by rw [hqueue]) ?_
    rw [hpusher]
    refine fun _ hasleep => Or.inr (Or.inr ⟨hasleep, hsending, .keep (by rw [hqueue]) ?_⟩)
    rw [← Set.sdiff_empty (s := s.towardsPush n r)]
    refine towardsPush_subset ∅ (fun j _ _ hj => ?_) (fun q _ hq => ?_) (fun q _ hq => ?_)
    · rwa [hworker]
    · rw [hpusher]
      exact Or.inl (ht.waits hq)
    · rwa [hpusher]
  cases hs with
  | close =>
    exact fun _ _ => Or.inl ⟨t, Closer.isSending_update rfl⟩
  | notifyEmpty =>
    exact fun _ _ => Or.inl ⟨t, Closer.isSending_update rfl⟩
  | notifyFull =>
    rintro - ⟨p, task, hp⟩
    exact ((Pusher.wake_ne_asleep _ _).mp hp).elim
  | _ => exact hkeep rfl rfl rfl fun hsending => hsending.update (by grind) _

end Pushes

structure WakeInv (n : ℕ) (c : State α × Tags) : Prop where
  inv : Inv n c.1
  tagged : Tagged c.1 c.2
  pops : PopsBacked n c.1 c.2
  pushes : PushesBacked n c.1 c.2
  roused : Roused c.1 c.2

lemma wakeInv_initial (max_size : ℕ) :
    WakeInv n ((State.initial max_size : State α), Tags.none) where
  inv := inv_initial max_size
  tagged := ⟨fun _ => rfl, fun _ => rfl⟩
  pops := by
    rintro ⟨i, -, hasleep⟩
    cases hasleep
  pushes := by
    rintro - ⟨p, task, hasleep⟩
    cases hasleep
  roused := ⟨nofun, nofun, nofun, nofun⟩

lemma WakeInv.step {c c' : State α × Tags} (h : WakeInv n c) (hs : TagStep n c c') :
    WakeInv n c' := by
  obtain ⟨s, r⟩ := c
  obtain ⟨s', r'⟩ := c'
  obtain ⟨hs, hr⟩ := hs
  dsimp only at hs hr
  subst hr
  refine ⟨h.inv.step hs, tagged_after s s' r, ?_, ?_, ?_⟩
  · rcases hs with ⟨p, hs⟩ | ⟨i, -, hs⟩ | ⟨t, hs⟩
    · exact h.pops.pushStep h.tagged hs
    · exact h.pops.workStep h.tagged h.inv.ready hs
    · exact h.pops.closeStep h.tagged hs
  · rcases hs with ⟨p, hs⟩ | ⟨i, hi, hs⟩ | ⟨t, hs⟩
    · exact h.pushes.pushStep h.tagged h.inv.ready h.roused hs
    · exact h.pushes.workStep h.tagged hi hs
    · exact h.pushes.closeStep h.tagged hs
  · rcases hs with ⟨p, hs⟩ | ⟨i, -, hs⟩ | ⟨t, hs⟩
    · exact h.roused.pushStep hs
    · exact h.roused.workStep hs
    · exact h.roused.closeStep hs

lemma WakeInv.run {c c' : State α × Tags} (h : WakeInv n c) (hr : TagRun n c c') :
    WakeInv n c' := by
  induction hr with
  | refl => exact h
  | tail _ hs ih => exact ih.step hs

lemma encard_threads {H : Set Thread} (hcloser : ∀ t, Thread.closer t ∉ H) :
    H.encard = {i | Thread.worker i ∈ H}.encard + {p | Thread.pusher p ∈ H}.encard := by
  have hworker : Function.Injective Thread.worker := fun _ _ => Thread.worker.inj
  have hpusher : Function.Injective Thread.pusher := fun _ _ => Thread.pusher.inj
  have hdisjoint : Disjoint (Thread.worker '' {i | Thread.worker i ∈ H})
      (Thread.pusher '' {p | Thread.pusher p ∈ H}) := by
    rw [Set.disjoint_left]
    rintro _ ⟨i, -, rfl⟩ ⟨p, -, heq⟩
    cases heq
  have hunion : H = Thread.worker '' {i | Thread.worker i ∈ H} ∪
      Thread.pusher '' {p | Thread.pusher p ∈ H} := by
    ext t
    cases t with
    | pusher p => simp
    | worker i => simp
    | closer t => simp [hcloser t]
  rw [← hworker.encard_image, ← hpusher.encard_image, ← Set.encard_union_eq hdisjoint, ← hunion]

/-- No wake-up is lost, but with a producer that throws, and no sleeper is left by a shutdown. -/
structure Wakes (n : ℕ) (c : State α × Tags) : Prop where
  pop : (∃ i < n, c.1.worker i = .asleep) → (c.1.queue.queue.length : ℕ∞) ≤
    {i | i < n ∧ c.2.worker i = true}.encard + {p | c.1.pusher p = .notifying}.encard
  push : c.1.queue.max_size ≠ 0 → (∃ p task, c.1.pusher p = .asleep task) → ¬ c.1.sending →
    ((c.1.queue.max_size - c.1.queue.queue.length : ℕ) : ℕ∞) ≤
      {i | i < n ∧ ∃ task, c.1.worker i = .notifying task}.encard +
        {p | c.2.pusher p = true ∨ c.1.pusher p = .threw}.encard
  ended : ∀ t, c.2.closer t = true →
    (∀ i, c.1.worker i ≠ .asleep) ∧ ∀ p task, c.1.pusher p ≠ .asleep task

/-- In every run a sleeping consumer has a wake-up on its way for each task, a sleeping producer has
one for each free slot, and nobody sleeps after a shutdown. -/
theorem wakes_of_run (max_size n : ℕ) (c : State α × Tags)
    (h : TagRun n (State.initial max_size, Tags.none) c) : Wakes n c := by
  have hinv := (wakeInv_initial max_size).run h
  refine ⟨fun hasleep => ?_, fun hmax hasleep hsending => ?_, fun t ht =>
    (hinv.roused.ended t ht).2⟩
  · have hbacked := hinv.pops hasleep
    rw [Backed, encard_threads (fun _ => id)] at hbacked
    exact hbacked
  · have hbacked := (hinv.pushes hmax hasleep).resolve_left hsending
    rw [Backed, encard_threads (fun _ => id)] at hbacked
    exact hbacked

lemma exists_tagRun (h : Run n s s') (r : Tags) : ∃ r', TagRun n (s, r) (s', r') := by
  induction h with
  | refl => exact ⟨r, .refl⟩
  | @tail s₁ s₂ _ hs ih =>
    obtain ⟨r', hr'⟩ := ih
    exact ⟨r'.after s₁ s₂, hr'.tail ⟨hs, rfl⟩⟩

/-- The only consumer sleeps, and the task that has come for it is about to be notified. -/
theorem wakes_of_run_one : ∃ c : State ℕ × Tags, c.1.worker 0 = .asleep ∧
    c.1.queue.queue = [7] ∧ Wakes 1 c := by
  obtain ⟨r, hr⟩ := exists_tagRun (α := ℕ) (n := 1) (s := .initial 1) (
    .head (.work 0 Nat.one_pos (.lock (.inl rfl) rfl)) <|
      .head (.work 0 Nat.one_pos (.sleep rfl rfl)) <|
    .head (.push 0 (.call 7 rfl)) <| .head (.push 0 (.lock (.inl rfl) rfl)) <|
    .head (.push 0 (.pass rfl rfl)) <| .head (.push 0 (.accept rfl rfl)) .refl) .none
  exact ⟨_, rfl, rfl, wakes_of_run 1 1 _ hr⟩

/-- No wake-up is lost when a `notify_all` that is still to be sent counts for one, and a producer
that throws for none. -/
structure KeepsWakeUps (n : ℕ) (c : State α × Tags) : Prop where
  pop : (∃ i < n, c.1.worker i = .asleep) → (c.1.queue.queue.length : ℕ∞) ≤
    {i | i < n ∧ c.2.worker i = true}.encard + {p | c.1.pusher p = .notifying}.encard +
      {t | ∃ pool, c.1.closer t = .notifyEmpty pool}.encard
  push : c.1.queue.max_size ≠ 0 → (∃ p task, c.1.pusher p = .asleep task) →
    ((c.1.queue.max_size - c.1.queue.queue.length : ℕ) : ℕ∞) ≤
      {i | i < n ∧ ∃ task, c.1.worker i = .notifying task}.encard +
        {p | c.2.pusher p = true}.encard + {t | (c.1.closer t).isSending = true}.encard
  ended : ∀ t, c.2.closer t = true →
    (∀ i, c.1.worker i ≠ .asleep) ∧ ∀ p task, c.1.pusher p ≠ .asleep task

lemma not_keepsWakeUps {c : State α × Tags} {k : ℕ} (htagged : Tagged c.1 c.2)
    (hmax : c.1.queue.max_size ≠ 0) (hasleep : ∃ p task, c.1.pusher p = .asleep task)
    (hworker : ∀ i < n, ∀ task, c.1.worker i ≠ .notifying task)
    (hpusher : ∀ p, (c.1.pusher p).recalled true = false)
    (hcloser : {t | (c.1.closer t).isSending = true}.encard ≤ k)
    (hfree : k < c.1.queue.max_size - c.1.queue.queue.length) : ¬ KeepsWakeUps n c := by
  intro h
  have hworkers : {i | i < n ∧ ∃ task, c.1.worker i = .notifying task} = ∅ := by
    rw [Set.eq_empty_iff_forall_notMem]
    rintro i ⟨hi, task, hnotifying⟩
    exact hworker i hi task hnotifying
  have hpushers : {p | c.2.pusher p = true} = ∅ := by
    rw [Set.eq_empty_iff_forall_notMem]
    intro p hp
    have hwaits := htagged.waits hp
    rw [hpusher] at hwaits
    cases hwaits
  have hpush := h.push hmax hasleep
  rw [hworkers, hpushers, Set.encard_empty, zero_add, zero_add] at hpush
  exact absurd (Nat.cast_le.mp (hpush.trans hcloser)) (not_le.mpr hfree)

lemma not_keepsWakeUps_thrown : ∃ c : State ℕ × Tags, TagRun 1 (State.initial 1, Tags.none) c ∧
    (∀ t, c.1.closer t = .idle) ∧ ¬ KeepsWakeUps 1 c := by
  obtain ⟨r, hr⟩ := exists_tagRun (α := ℕ) (n := 1) (s := .initial 1) (
    .head (.push 0 (.call 7 rfl)) <| .head (.push 0 (.lock (.inl rfl) rfl)) <|
    .head (.push 0 (.pass rfl rfl)) <| .head (.push 0 (.accept rfl rfl)) <|
    .head (.push 0 (.notifyNobody rfl nofun)) <|
    .head (.push 1 (.call 8 rfl)) <| .head (.push 1 (.lock (.inl rfl) rfl)) <|
    .head (.push 1 (.sleep rfl rfl)) <|
    .head (.push 2 (.call 9 rfl)) <| .head (.push 2 (.lock (.inl rfl) rfl)) <|
    .head (.push 2 (.sleep rfl rfl)) <|
    .head (.work 0 Nat.one_pos (.lock (.inl rfl) rfl)) <|
      .head (.work 0 Nat.one_pos (.pass rfl rfl)) <|
    .head (.work 0 Nat.one_pos (.take rfl rfl)) <|
      .head (.work 0 Nat.one_pos (.notify (p := 1) rfl rfl)) <|
    .head (.push 1 (.lock (.inr rfl) rfl)) <| .head (.push 1 (.pass rfl rfl)) <|
    .head (.push 1 (.throw rfl)) .refl) .none
  have htagged := ((wakeInv_initial 1).run hr).tagged
  refine ⟨_, hr, fun _ => rfl, not_keepsWakeUps (k := 0) htagged Nat.one_ne_zero
    ⟨2, 9, rfl⟩ ?_ ?_ ?_ Nat.zero_lt_one⟩
  · intro i hi task
    obtain rfl : i = 0 := by omega
    nofun
  · intro p
    simp only [State.setPusher, State.setWorker, State.initial, Function.update_apply]
    split_ifs <;> rfl
  · simp [State.setPusher, State.setWorker, State.initial, Closer.isSending]

/-- Producers that are woken into a shutdown leave their slots to the `notify_all`. -/
lemma not_keepsWakeUps_shut : ∃ c : State ℕ × Tags, TagRun 1 (State.initial 2, Tags.none) c ∧
    (∀ p, c.1.pusher p ≠ .threw) ∧ ¬ KeepsWakeUps 1 c := by
  obtain ⟨r, hr⟩ := exists_tagRun (α := ℕ) (n := 1) (s := .initial 2) (
    .head (.push 0 (.call 5 rfl)) <| .head (.push 0 (.lock (.inl rfl) rfl)) <|
    .head (.push 0 (.pass rfl rfl)) <| .head (.push 0 (.accept rfl rfl)) <|
    .head (.push 1 (.call 6 rfl)) <| .head (.push 1 (.lock (.inl rfl) rfl)) <|
    .head (.push 1 (.pass rfl rfl)) <| .head (.push 1 (.accept rfl rfl)) <|
    .head (.push 2 (.call 7 rfl)) <| .head (.push 2 (.lock (.inl rfl) rfl)) <|
    .head (.push 2 (.sleep rfl rfl)) <|
    .head (.push 3 (.call 8 rfl)) <| .head (.push 3 (.lock (.inl rfl) rfl)) <|
    .head (.push 3 (.sleep rfl rfl)) <|
    .head (.push 4 (.call 9 rfl)) <| .head (.push 4 (.lock (.inl rfl) rfl)) <|
    .head (.push 4 (.sleep rfl rfl)) <|
    .head (.work 0 Nat.one_pos (.lock (.inl rfl) rfl)) <|
      .head (.work 0 Nat.one_pos (.pass rfl rfl)) <|
    .head (.work 0 Nat.one_pos (.take rfl rfl)) <|
      .head (.work 0 Nat.one_pos (.notify (p := 2) rfl rfl)) <|
    .head (.work 0 Nat.one_pos (.finish rfl)) <|
    .head (.work 0 Nat.one_pos (.lock (.inl rfl) rfl)) <|
      .head (.work 0 Nat.one_pos (.pass rfl rfl)) <|
    .head (.work 0 Nat.one_pos (.take rfl rfl)) <|
      .head (.work 0 Nat.one_pos (.notify (p := 3) rfl rfl)) <|
    .head (.close 0 (.callQueue rfl)) <| .head (.close 0 (.lock rfl rfl)) <|
    .head (.close 0 (.close rfl)) <|
    .head (.push 2 (.lock (.inr rfl) rfl)) <| .head (.push 2 (.pass rfl rfl)) <|
    .head (.push 2 (.refuse rfl rfl)) <|
    .head (.push 3 (.lock (.inr rfl) rfl)) <| .head (.push 3 (.pass rfl rfl)) <|
    .head (.push 3 (.refuse rfl rfl)) .refl) .none
  have htagged := ((wakeInv_initial 2).run hr).tagged
  refine ⟨_, hr, ?_, not_keepsWakeUps (k := 1) htagged (Nat.succ_ne_zero 1) ⟨4, 9, rfl⟩ ?_ ?_ ?_
    Nat.one_lt_two⟩
  · intro p
    simp only [State.setPusher, State.setWorker, State.setCloser, State.initial,
      Function.update_apply]
    split_ifs <;> rintro ⟨⟩
  · intro i hi task
    obtain rfl : i = 0 := by omega
    rintro ⟨⟩
  · intro p
    simp only [State.setPusher, State.setWorker, State.setCloser, State.initial,
      Function.update_apply]
    split_ifs <;> rfl
  · rw [Nat.cast_one, ← Set.encard_singleton 0]
    apply Set.encard_le_encard
    intro t ht
    by_contra hne
    simp only [State.setPusher, State.setWorker, State.setCloser, State.initial,
      Set.mem_ofPred_eq] at ht
    rw [Function.update_of_ne hne, Function.update_of_ne hne, Function.update_of_ne hne] at ht
    cases ht

theorem not_all_wakeUps_kept : (∃ c : State ℕ × Tags, TagRun 1 (State.initial 1, Tags.none) c ∧
    (∀ t, c.1.closer t = .idle) ∧ ¬ KeepsWakeUps 1 c) ∧
    ∃ c : State ℕ × Tags, TagRun 1 (State.initial 2, Tags.none) c ∧
      (∀ p, c.1.pusher p ≠ .threw) ∧ ¬ KeepsWakeUps 1 c :=
  ⟨not_keepsWakeUps_thrown, not_keepsWakeUps_shut⟩

end Mtfss.Pool
