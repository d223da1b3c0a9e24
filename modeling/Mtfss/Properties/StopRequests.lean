import Mtfss.Properties.ShutdownWaits

/-! What becomes of a `stop()` that the Ctrl+C handler calls. -/

namespace Mtfss.Shutdown

open Relation

variable {n : ℕ} {s s' : State} {sh sh' : Shared} {c c' : StopCall} {label : Label}

def Step (n : ℕ) (s s' : State) : Prop :=
  ∃ label, step n s label = some s'

def Main.StopReturned : Main → Prop
  | .server .returned | .pool _ | .gone | .terminated => True
  | _ => False

/-- A call of `stop()` has returned, in a handler or in `~Server`. -/
def State.StopReturned (s : State) : Prop :=
  (∃ h, s.handler h = .returned) ∨ s.main.StopReturned

/-- `running_` is false and no thread can add a connection to the queue. -/
structure Final (n : ℕ) (s : State) : Prop where
  running : s.shared.running = false
  queued : ∀ label s', step n s label = some s' → s'.shared.queued ≤ s.shared.queued

/-- `start()` will set `running_`, or can add a connection to the queue before it tests
`running_`. -/
def State.Admits (s : State) : Prop :=
  s.main = .starting ∨ s.shared.queueShut = false ∧
    (s.main = .pushing ∨ s.main = .accepting ∧ s.shared.socketOpen = true)

/-- When a handler comes to the `compare_exchange_strong` on `running_` and it fails, `start()` does
not admit a connection any more. -/
def Heeded (s : State) (label : Label) : Prop :=
  ∀ h, label = .handler h → s.handler h = .enter → s.shared.running = false → ¬ s.Admits

def HeededStep (n : ℕ) (s s' : State) : Prop :=
  ∃ label, Heeded s label ∧ step n s label = some s'

/-- What the threads share after a step of any of them, those of `start()` apart. -/
structure Lowers (sh sh' : Shared) : Prop where
  running : sh.running = false → sh'.running = false
  socket : sh.socketOpen = false → sh'.socketOpen = false
  queued : sh'.queued ≤ sh.queued
  shut : sh.queueShut = true → sh'.queueShut = true

/-- The call is past `queue_.shutdown()`. -/
def StopCall.Joins : StopCall → Prop
  | .pool (.joining _) | .pool .returning => True
  | _ => False

structure Heard (n : ℕ) (s : State) : Prop where
  inv : inStart s.main = true → Inv n s
  returned : s.StopReturned → s.shared.running = false ∧ ¬ s.Admits
  stopping : ∀ t, (s.call t).Stopping → s.shared.running = false ∧ s.main ≠ .starting
  joins : inStart s.main = true → ∀ h, (s.handler h).Joins → s.shared.queueShut = true

namespace Lowers

lemma refl (sh : Shared) : Lowers sh sh :=
  ⟨id, id, Nat.le_refl _, id⟩

lemma of_shutdown {call call' : PoolCall} (h : shutdown n call sh = some (call', sh')) :
    Lowers sh sh' := by
  cases call with
  | enter =>
    rw [shutdown] at h
    split_ifs at h <;> cases h
    · exact refl sh
    · exact ⟨id, id, Nat.le_refl _, id⟩
  | closing =>
    cases h
    exact ⟨id, id, Nat.le_refl _, fun _ => rfl⟩
  | joining i =>
    rw [shutdown] at h
    split_ifs at h <;> cases h
    · exact refl sh
    · exact ⟨id, id, Nat.le_refl _, id⟩
    · exact refl sh
  | returning => cases h

lemma of_stop (h : stop n c sh = some (c', sh')) : Lowers sh sh' := by
  cases c with
  | idle => cases h
  | enter =>
    rw [stop] at h
    split_ifs at h <;> cases h
    · exact ⟨fun _ => rfl, id, Nat.le_refl _, id⟩
    · exact refl sh
  | socket =>
    cases h
    exact ⟨id, fun _ => rfl, Nat.le_refl _, id⟩
  | pool call =>
    by_cases hcall : call = .returning
    · subst hcall
      cases h
      exact refl sh
    · rw [stop_pool hcall] at h
      obtain ⟨⟨_, _⟩, h, hpair⟩ := Option.map_eq_some_iff.mp h
      cases hpair
      exact of_shutdown h
  | returned => cases h

lemma of_step (hlabel : label ≠ .main) (hs : step n s label = some s') :
    Lowers s.shared s'.shared := by
  replace hs := (step_eq_some.mp hs).2
  cases label with
  | main => exact (hlabel rfl).elim
  | handler h =>
    obtain ⟨⟨_, _⟩, hstop, rfl⟩ := Option.map_eq_some_iff.mp hs
    exact of_stop hstop
  | acceptFails =>
    simp only [threadStep, Option.ite_none_right_eq_some, Option.some.injEq] at hs
    obtain ⟨-, rfl⟩ := hs
    exact refl s.shared
  | unwinds =>
    simp only [threadStep, Option.ite_none_right_eq_some, Option.some.injEq] at hs
    obtain ⟨-, rfl⟩ := hs
    exact refl s.shared
  | signal h =>
    simp only [threadStep, Option.ite_none_right_eq_some, Option.some.injEq] at hs
    obtain ⟨-, rfl⟩ := hs
    exact refl s.shared
  | take i =>
    simp only [threadStep, Option.ite_none_right_eq_some, Option.some.injEq] at hs
    obtain ⟨-, rfl⟩ := hs
    exact ⟨id, id, Nat.sub_le _ _, id⟩
  | finish i =>
    simp only [threadStep, Option.ite_none_right_eq_some, Option.some.injEq] at hs
    obtain ⟨-, rfl⟩ := hs
    exact ⟨id, id, Nat.le_refl _, id⟩
  | leave i =>
    simp only [threadStep, Option.ite_none_right_eq_some, Option.some.injEq] at hs
    obtain ⟨-, rfl⟩ := hs
    exact ⟨id, id, Nat.le_refl _, id⟩

end Lowers

lemma not_admits_of_lowers (h : ¬ s.Admits) (hsh : Lowers s.shared s'.shared)
    (hm : s'.main = s.main) : ¬ s'.Admits := by
  intro h'
  apply h
  rcases h' with h' | ⟨hshut, h'⟩
  · exact Or.inl (hm ▸ h')
  · have hopen : s.shared.queueShut = false := by
      by_contra hs
      rw [hsh.shut (by simpa using hs)] at hshut
      cases hshut
    refine Or.inr ⟨hopen, ?_⟩
    rcases h' with h' | ⟨h', hsocket⟩
    · exact Or.inl (hm ▸ h')
    · refine Or.inr ⟨hm ▸ h', ?_⟩
      by_contra hs
      rw [hsh.socket (by simpa using hs)] at hsocket
      cases hsocket

lemma not_admits_of_not_inStart (h : inStart s.main = false) : ¬ s.Admits := by
  rintro (h' | ⟨-, h' | ⟨h', -⟩⟩) <;> rw [h'] at h <;> cases h

lemma not_admits_of_shut (hm : s.main ≠ .starting) (h : s.shared.queueShut = true) :
    ¬ s.Admits := by
  rintro (h' | ⟨h', -⟩)
  · exact hm h'
  · rw [h] at h'
    cases h'

lemma running_of_stop (hc : c.Stopping → sh.running = false) (h : stop n c sh = some (c', sh')) :
    sh'.running = false := by
  cases c with
  | enter =>
    rw [stop] at h
    split_ifs at h with hr <;> cases h
    · rfl
    · simpa using hr
  | idle => cases h
  | socket => exact (Lowers.of_stop h).running (hc trivial)
  | pool => exact (Lowers.of_stop h).running (hc trivial)
  | returned => cases h

lemma stop_returns (h : stop n c sh = some (.returned, sh')) :
    (c = .enter ∧ sh.running = false) ∨ c = .pool .returning := by
  cases c with
  | enter =>
    rw [stop] at h
    split_ifs at h with hr
    · cases h
    · exact Or.inl ⟨rfl, by simpa using hr⟩
  | idle => cases h
  | socket => cases h
  | pool call =>
    by_cases hcall : call = .returning
    · exact Or.inr (by rw [hcall])
    · rw [stop_pool hcall] at h
      obtain ⟨⟨_, _⟩, -, hpair⟩ := Option.map_eq_some_iff.mp h
      cases hpair
  | returned => cases h

lemma shut_of_joins (hc : c.Joins → sh.queueShut = true)
    (hstopped : c = .pool .enter → sh.stopped = false)
    (h : stop n c sh = some (c', sh')) (hc' : c'.Joins) : sh'.queueShut = true := by
  cases c with
  | idle => cases h
  | enter =>
    rw [stop] at h
    split_ifs at h <;> cases h <;> exact hc'.elim
  | socket =>
    cases h
    exact hc'.elim
  | pool call =>
    cases call with
    | enter =>
      simp only [stop, shutdown, hstopped rfl, Bool.false_eq_true, if_false, Option.map_some,
        Option.some.injEq, Prod.mk.injEq] at h
      obtain ⟨rfl, -⟩ := h
      exact hc'.elim
    | closing =>
      cases h
      rfl
    | joining => exact (Lowers.of_stop h).shut (hc trivial)
    | returning => exact (Lowers.of_stop h).shut (hc trivial)
  | returned => cases h

lemma mainStep_outside {m m' : Main} (hm : inStart m = false)
    (hr : m.stopCall.Stopping ∨ m.StopReturned → sh.running = false)
    (h : mainStep n sh m = some (m', sh')) :
    inStart m' = false ∧ Lowers sh sh' ∧
      (m'.stopCall.Stopping ∨ m'.StopReturned → sh'.running = false) := by
  cases m with
  | starting => cases hm
  | testing => cases hm
  | accepting => cases hm
  | pushing => cases hm
  | started =>
    cases h
    refine ⟨rfl, ⟨id, id, Nat.le_refl _, id⟩, ?_⟩
    rintro (h | h) <;> exact h.elim
  | server call =>
    by_cases hcall : call = .returned
    · subst hcall
      cases h
      exact ⟨rfl, .refl sh, fun _ => hr (Or.inr trivial)⟩
    · rw [mainStep_server hcall] at h
      obtain ⟨⟨_, _⟩, h, hpair⟩ := Option.map_eq_some_iff.mp h
      cases hpair
      exact ⟨rfl, .of_stop h, fun _ => running_of_stop (fun hc => hr (Or.inl hc)) h⟩
  | pool call =>
    have hrunning : sh.running = false := hr (Or.inr trivial)
    by_cases hcall : call = .returning
    · subst hcall
      rw [mainStep] at h
      cases h
      exact ⟨by split <;> rfl, .refl sh, fun _ => hrunning⟩
    · rw [mainStep_pool hcall] at h
      obtain ⟨⟨_, _⟩, h, hpair⟩ := Option.map_eq_some_iff.mp h
      cases hpair
      exact ⟨rfl, .of_shutdown h, fun _ => (Lowers.of_shutdown h).running hrunning⟩
  | gone => cases h
  | terminated => cases h

namespace Heard

lemma initial : Heard n .initial where
  inv _ := inv_initial
  returned h := by
    rcases h with ⟨_, h⟩ | h
    · cases h
    · exact h.elim
  stopping t ht := by cases t <;> exact ht.elim
  joins _ _ h := h.elim

lemma not_starting (hheard : Heard n s) (h : s.StopReturned) : s.main ≠ .starting :=
  fun hm => (hheard.returned h).2 (Or.inl hm)

lemma handler (hheard : Heard n s) {h : ℕ} (hheeded : Heeded s (.handler h))
    (hs : stop n (s.handler h) s.shared = some (c', sh')) :
    Heard n { s with shared := sh', handler := Function.update s.handler h c' } := by
  have hlow := Lowers.of_stop hs
  have hrunning : sh'.running = false :=
    running_of_stop (fun hc => (hheard.stopping (some h) hc).1) hs
  refine ⟨fun hm => (hheard.inv hm).handler hs, fun hret => ?_, fun t ht => ?_, fun hm g hg => ?_⟩
  · refine ⟨hrunning, not_admits_of_lowers (s := s) ?_ hlow rfl⟩
    by_cases hc' : c' = .returned
    · subst hc'
      rcases stop_returns hs with ⟨hc, hr⟩ | hc
      · exact hheeded h rfl hc hr
      · have hstop : (s.handler h).Stopping := hc ▸ trivial
        by_cases hm : inStart s.main = true
        · apply not_admits_of_shut (hheard.stopping (some h) hstop).2
          exact hheard.joins hm h (hc ▸ trivial)
        · exact not_admits_of_not_inStart (by simpa using hm)
    · apply (hheard.returned _).2
      rcases hret with ⟨g, hg⟩ | hm
      · have hgh : g ≠ h := by
          rintro rfl
          exact hc' (by simpa using hg)
        exact Or.inl ⟨g, by simpa [Function.update_of_ne hgh] using hg⟩
      · exact Or.inr hm
  · refine ⟨hrunning, fun hm => ?_⟩
    have hm : s.main = .starting := hm
    obtain ⟨hr, -, hnone⟩ := (hheard.inv (by rw [hm]; rfl)).starting hm
    obtain ⟨rfl, rfl⟩ := stop_idle hr (hnone (some h)) hs
    rw [call_handler] at ht
    by_cases hth : t = some h
    · subst hth
      rw [Function.update_self] at ht
      exact ht
    · rw [Function.update_of_ne hth] at ht
      exact hnone t ht
  · by_cases hgh : g = h
    · subst hgh
      apply shut_of_joins (hheard.joins hm g) _ hs (by simpa using hg)
      intro hc
      have hrel := (hheard.inv hm).calls.reliable (some g)
      rwa [State.call, hc] at hrel
    · exact hlow.shut (hheard.joins hm g (by simpa [Function.update_of_ne hgh] using hg))

/-- `main` goes on in `start()`, or leaves it. -/
lemma goes (hheard : Heard n s) {m : Main} (hin : inStart s.main = true)
    (hinv : inStart m = true → Inv n { s with shared := sh', main := m })
    (hr : sh'.running = s.shared.running) (hshut : sh'.queueShut = s.shared.queueShut)
    (hstopping : ¬ m.stopCall.Stopping) (hreturned : ¬ m.StopReturned) (hm : m ≠ .starting)
    (hadmits : s.shared.running = false → ¬ s.Admits →
      ¬ State.Admits { s with shared := sh', main := m }) :
    Heard n { s with shared := sh', main := m } where
  inv := hinv
  returned hret := by
    rcases hret with hret | hret
    · obtain ⟨hrunning, hnot⟩ := hheard.returned (Or.inl hret)
      exact ⟨hr.trans hrunning, hadmits hrunning hnot⟩
    · exact (hreturned hret).elim
  stopping t ht := by
    rw [call_main] at ht
    cases t with
    | none => exact (hstopping (by simpa using ht)).elim
    | some h =>
      rw [Function.update_of_ne (by simp)] at ht
      exact ⟨hr.trans (hheard.stopping (some h) ht).1, hm⟩
  joins _ h hj := hshut.trans (hheard.joins hin h hj)

lemma worked (hheard : Heard n s) (hlow : Lowers s.shared sh')
    (hinv : inStart s.main = true → Inv n { s with shared := sh' }) :
    Heard n { s with shared := sh' } where
  inv := hinv
  returned hret :=
    ⟨hlow.running (hheard.returned hret).1, not_admits_of_lowers (hheard.returned hret).2 hlow rfl⟩
  stopping t ht := ⟨hlow.running (hheard.stopping t ht).1, (hheard.stopping t ht).2⟩
  joins hm h hj := hlow.shut (hheard.joins hm h hj)

lemma signal (hheard : Heard n s) {h : ℕ} (hidle : s.handler h = .idle) :
    Heard n { s with handler := Function.update s.handler h .enter } := by
  have hbefore : ∀ {P : StopCall → Prop}, ¬ P .enter → ∀ g,
      P (Function.update s.handler h .enter g) → P (s.handler g) := by
    intro P hP g hg
    by_cases hgh : g = h
    · subst hgh
      rw [Function.update_self] at hg
      exact (hP hg).elim
    · rwa [Function.update_of_ne hgh] at hg
  refine ⟨fun hm => (hheard.inv hm).signal hidle, fun hret => ?_, fun t ht => ?_, fun hm g hg => ?_⟩
  · have hret : s.StopReturned := by
      rcases hret with ⟨g, hg⟩ | hret
      · exact Or.inl ⟨g, hbefore (P := (· = .returned)) (by simp) g hg⟩
      · exact Or.inr hret
    exact ⟨(hheard.returned hret).1, not_admits_of_lowers (hheard.returned hret).2 (.refl _) rfl⟩
  · cases t with
    | none => exact hheard.stopping none ht
    | some g => exact hheard.stopping (some g) (hbefore id g ht)
  · exact hheard.joins hm g (hbefore id g hg)

lemma launch (hheard : Heard n s) (hm : s.main = .starting) :
    Heard n { s with shared := { s.shared with running := true }, main := .testing } where
  inv _ := (hheard.inv (by rw [hm]; rfl)).launch hm
  returned hret := by
    rcases hret with hret | hret
    · exact (hheard.not_starting (Or.inl hret) hm).elim
    · exact hret.elim
  stopping t ht := by
    cases t with
    | none => exact ht.elim
    | some h => exact ((hheard.stopping (some h) ht).2 hm).elim
  joins _ h hj := hheard.joins (by rw [hm]; rfl) h hj

lemma outside (hheard : Heard n s) (hm : inStart s.main = false) {m : Main}
    (hs : mainStep n s.shared s.main = some (m, sh')) :
    Heard n { s with shared := sh', main := m } := by
  have hbefore : s.main.stopCall.Stopping ∨ s.main.StopReturned → s.shared.running = false := by
    rintro (h | h)
    · exact (hheard.stopping none h).1
    · exact (hheard.returned (Or.inr h)).1
  obtain ⟨hm', hlow, hrunning⟩ := mainStep_outside hm hbefore hs
  have hnot : ∀ {m' : Main}, inStart m' = false → m' ≠ .starting := by
    rintro _ h rfl
    cases h
  refine ⟨fun h => ?_, fun hret => ⟨?_, not_admits_of_not_inStart hm'⟩, fun t ht => ⟨?_, hnot hm'⟩,
    fun h => ?_⟩
  · rw [hm'] at h
    cases h
  · rcases hret with hret | hret
    · exact hlow.running (hheard.returned (Or.inl hret)).1
    · exact hrunning (Or.inr hret)
  · cases t with
    | none => exact hrunning (Or.inl ht)
    | some h => exact hlow.running (hheard.stopping (some h) ht).1
  · rw [hm'] at h
    cases h

lemma main (hheard : Heard n s) (hs : threadStep n s .main = some s') : Heard n s' := by
  obtain ⟨⟨m, sh⟩, hnext, rfl⟩ := Option.map_eq_some_iff.mp hs
  by_cases hin : inStart s.main = true
  · have hinv : inStart m = true → Inv n { s with shared := sh, main := m } := by
      intro _
      refine (hheard.inv hin).main (fun _ hm => ?_) hs
      rw [hm] at hin
      cases hin
    cases hm : s.main with
    | starting =>
      rw [hm] at hnext
      cases hnext
      exact hheard.launch hm
    | testing =>
      rw [hm] at hnext
      simp only [mainStep, Option.some.injEq, Prod.mk.injEq] at hnext
      obtain ⟨rfl, rfl⟩ := hnext
      cases hr : s.shared.running
      · exact hheard.goes hin (by simpa [hr] using hinv) rfl rfl id id (by rintro ⟨⟩)
          (fun _ _ => not_admits_of_not_inStart rfl)
      · refine hheard.goes hin (by simpa [hr] using hinv) rfl rfl id id (by rintro ⟨⟩) ?_
        intro h
        rw [hr] at h
        cases h
    | accepting =>
      rw [hm, mainStep] at hnext
      split_ifs at hnext with hsocket
      cases hnext
      refine hheard.goes hin hinv rfl rfl id id (by rintro ⟨⟩) (fun _ hnot => ?_)
      refine not_admits_of_shut (by simp) ?_
      by_contra hshut
      exact hnot (Or.inr ⟨by simpa using hshut, Or.inr ⟨hm, hsocket⟩⟩)
    | pushing =>
      have htesting : ∀ sh : Shared, ¬ State.Admits { s with shared := sh, main := .testing } := by
        rintro sh (h | ⟨-, h | ⟨h, -⟩⟩) <;> cases h
      rw [hm, mainStep] at hnext
      split_ifs at hnext <;> cases hnext
      · exact hheard.goes hin hinv rfl rfl id id (by rintro ⟨⟩) (fun _ _ => htesting _)
      · exact hheard.goes hin hinv rfl rfl id id (by rintro ⟨⟩) (fun _ _ => htesting _)
    | started => rw [hm] at hin; cases hin
    | server => rw [hm] at hin; cases hin
    | pool => rw [hm] at hin; cases hin
    | gone => rw [hm] at hin; cases hin
    | terminated => rw [hm] at hin; cases hin
  · exact hheard.outside (by simpa using hin) hnext

lemma step (hheard : Heard n s) (hheeded : Heeded s label)
    (hs : Shutdown.step n s label = some s') : Heard n s' := by
  have hinv : label ≠ .main → inStart s.main = true → Inv n s' :=
    fun hlabel hm => (hheard.inv hm).step (fun h => (hlabel h).elim) hs
  have hlow : label ≠ .main → Lowers s.shared s'.shared := fun hlabel => .of_step hlabel hs
  replace hs := (step_eq_some.mp hs).2
  cases label with
  | main => exact hheard.main hs
  | acceptFails =>
    simp only [threadStep, Option.ite_none_right_eq_some, Option.some.injEq] at hs
    obtain ⟨hm, rfl⟩ := hs
    have hin : inStart s.main = true := by rw [hm]; rfl
    refine hheard.goes hin (fun _ => hinv (by rintro ⟨⟩) hin) rfl rfl id id (by rintro ⟨⟩)
      (fun _ _ => ?_)
    rintro (h | ⟨-, h | ⟨h, -⟩⟩) <;> cases h
  | unwinds =>
    simp only [threadStep, Option.ite_none_right_eq_some, Option.some.injEq] at hs
    obtain ⟨hin, rfl⟩ := hs
    exact hheard.goes hin (by rintro ⟨⟩) rfl rfl id id (by rintro ⟨⟩)
      (fun _ _ => not_admits_of_not_inStart rfl)
  | signal h =>
    simp only [threadStep, Option.ite_none_right_eq_some, Option.some.injEq] at hs
    obtain ⟨⟨hidle, -⟩, rfl⟩ := hs
    exact hheard.signal hidle
  | handler h =>
    obtain ⟨⟨c, sh⟩, hstop, rfl⟩ := Option.map_eq_some_iff.mp hs
    exact hheard.handler hheeded hstop
  | take i =>
    simp only [threadStep, Option.ite_none_right_eq_some, Option.some.injEq] at hs
    obtain ⟨-, rfl⟩ := hs
    exact hheard.worked (hlow (by rintro ⟨⟩)) (hinv (by rintro ⟨⟩))
  | finish i =>
    simp only [threadStep, Option.ite_none_right_eq_some, Option.some.injEq] at hs
    obtain ⟨-, rfl⟩ := hs
    exact hheard.worked (hlow (by rintro ⟨⟩)) (hinv (by rintro ⟨⟩))
  | leave i =>
    simp only [threadStep, Option.ite_none_right_eq_some, Option.some.injEq] at hs
    obtain ⟨-, rfl⟩ := hs
    exact hheard.worked (hlow (by rintro ⟨⟩)) (hinv (by rintro ⟨⟩))

lemma of_run (h : ReflTransGen (HeededStep n) .initial s) : Heard n s := by
  induction h with
  | refl => exact initial
  | tail _ hs ih =>
    obtain ⟨label, hheeded, hs⟩ := hs
    exact ih.step hheeded hs

lemma queued (hheard : Heard n s) (hret : s.StopReturned) (hs : Shutdown.step n s label = some s') :
    s'.shared.queued ≤ s.shared.queued := by
  obtain ⟨hrunning, hnot⟩ := hheard.returned hret
  by_cases hlabel : label = .main
  · subst hlabel
    obtain ⟨⟨m, sh⟩, hnext, rfl⟩ := Option.map_eq_some_iff.mp (step_eq_some.mp hs).2
    by_cases hin : inStart s.main = true
    · cases hm : s.main with
      | starting => exact (hnot (Or.inl hm)).elim
      | testing =>
        rw [hm] at hnext
        cases hnext
        exact Nat.le_refl _
      | accepting =>
        rw [hm, mainStep] at hnext
        split_ifs at hnext
        cases hnext
        exact Nat.le_refl _
      | pushing =>
        rw [hm, mainStep] at hnext
        split_ifs at hnext with hshut <;> cases hnext
        · exact Nat.le_refl _
        · exact (hnot (Or.inr ⟨by simpa using hshut, Or.inl hm⟩)).elim
      | started => rw [hm] at hin; cases hin
      | server => rw [hm] at hin; cases hin
      | pool => rw [hm] at hin; cases hin
      | gone => rw [hm] at hin; cases hin
      | terminated => rw [hm] at hin; cases hin
    · exact (mainStep_outside (by simpa using hin) (fun _ => hrunning) hnext).2.1.queued
  · exact (Lowers.of_step hlabel hs).queued

lemma final (hheard : Heard n s) (hret : s.StopReturned) : Final n s :=
  ⟨(hheard.returned hret).1, fun _ _ hs => hheard.queued hret hs⟩

lemma heeded (hheard : Heard n s) (hret : s.StopReturned) : Heeded s label :=
  fun _ _ _ _ => (hheard.returned hret).2

end Heard

lemma mainStep_stopReturned {m m' : Main} (hm : m.StopReturned)
    (h : mainStep n sh m = some (m', sh')) : m'.StopReturned := by
  cases m with
  | server call =>
    by_cases hcall : call = .returned
    · subst hcall
      cases h
      trivial
    · cases call <;> first | exact hm.elim | exact (hcall rfl).elim
  | pool call =>
    by_cases hcall : call = .returning
    · subst hcall
      rw [mainStep] at h
      cases h
      split <;> trivial
    · rw [mainStep_pool hcall] at h
      obtain ⟨⟨_, _⟩, -, hpair⟩ := Option.map_eq_some_iff.mp h
      cases hpair
      trivial
  | gone => cases h
  | terminated => cases h
  | starting => exact hm.elim
  | testing => exact hm.elim
  | accepting => exact hm.elim
  | pushing => exact hm.elim
  | started => exact hm.elim

lemma handler_returned {h : ℕ} (hret : s.handler h = .returned) (hs : step n s label = some s') :
    s'.handler h = .returned := by
  replace hs := (step_eq_some.mp hs).2
  cases label with
  | main =>
    obtain ⟨⟨_, _⟩, -, rfl⟩ := Option.map_eq_some_iff.mp hs
    exact hret
  | handler g =>
    obtain ⟨⟨_, _⟩, hstop, rfl⟩ := Option.map_eq_some_iff.mp hs
    have hgh : h ≠ g := by
      rintro rfl
      rw [hret] at hstop
      cases hstop
    exact (Function.update_of_ne hgh _ _).trans hret
  | signal g =>
    simp only [threadStep, Option.ite_none_right_eq_some, Option.some.injEq] at hs
    obtain ⟨⟨hidle, -⟩, rfl⟩ := hs
    have hgh : h ≠ g := by
      rintro rfl
      rw [hret] at hidle
      cases hidle
    exact (Function.update_of_ne hgh _ _).trans hret
  | acceptFails =>
    simp only [threadStep, Option.ite_none_right_eq_some, Option.some.injEq] at hs
    exact hs.2 ▸ hret
  | unwinds =>
    simp only [threadStep, Option.ite_none_right_eq_some, Option.some.injEq] at hs
    exact hs.2 ▸ hret
  | take i =>
    simp only [threadStep, Option.ite_none_right_eq_some, Option.some.injEq] at hs
    exact hs.2 ▸ hret
  | finish i =>
    simp only [threadStep, Option.ite_none_right_eq_some, Option.some.injEq] at hs
    exact hs.2 ▸ hret
  | leave i =>
    simp only [threadStep, Option.ite_none_right_eq_some, Option.some.injEq] at hs
    exact hs.2 ▸ hret

lemma main_stopReturned (hret : s.main.StopReturned) (hs : step n s label = some s') :
    s'.main.StopReturned := by
  replace hs := (step_eq_some.mp hs).2
  cases label with
  | main =>
    obtain ⟨⟨_, _⟩, hnext, rfl⟩ := Option.map_eq_some_iff.mp hs
    exact mainStep_stopReturned hret hnext
  | handler g =>
    obtain ⟨⟨_, _⟩, -, rfl⟩ := Option.map_eq_some_iff.mp hs
    exact hret
  | signal g =>
    simp only [threadStep, Option.ite_none_right_eq_some, Option.some.injEq] at hs
    exact hs.2 ▸ hret
  | acceptFails =>
    simp only [threadStep, Option.ite_none_right_eq_some, Option.some.injEq] at hs
    rw [hs.1] at hret
    exact hret.elim
  | unwinds =>
    simp only [threadStep, Option.ite_none_right_eq_some, Option.some.injEq] at hs
    cases hm : s.main <;> rw [hm] at hret hs <;> first | exact hret.elim | cases hs.1
  | take i =>
    simp only [threadStep, Option.ite_none_right_eq_some, Option.some.injEq] at hs
    exact hs.2 ▸ hret
  | finish i =>
    simp only [threadStep, Option.ite_none_right_eq_some, Option.some.injEq] at hs
    exact hs.2 ▸ hret
  | leave i =>
    simp only [threadStep, Option.ite_none_right_eq_some, Option.some.injEq] at hs
    exact hs.2 ▸ hret

lemma stopReturned_of_step (hret : s.StopReturned) (hs : step n s label = some s') :
    s'.StopReturned := by
  rcases hret with ⟨h, hret⟩ | hret
  · exact Or.inl ⟨h, handler_returned hret hs⟩
  · exact Or.inr (main_stopReturned hret hs)

/-- In a run in which every request is heeded, a `stop()` that has returned is final, whatever
comes after it. -/
theorem stop_final (n : ℕ) (s s' : State) (hrun : ReflTransGen (HeededStep n) .initial s)
    (hret : s.StopReturned) (hafter : ReflTransGen (Step n) s s') : Final n s' := by
  have hboth : Heard n s' ∧ s'.StopReturned := by
    induction hafter with
    | refl => exact ⟨.of_run hrun, hret⟩
    | tail _ hs ih =>
      obtain ⟨label, hs⟩ := hs
      exact ⟨ih.1.step (ih.1.heeded ih.2) hs, stopReturned_of_step ih.2 hs⟩
  exact hboth.1.final hboth.2

/-- The worker is in a task when Ctrl+C comes, and `main` in `accept`. -/
theorem stop_final_busy : ∃ s, s.StopReturned ∧ Final 1 s := by
  have h : ∃ s, ReflTransGen (HeededStep 1) .initial s ∧ s.StopReturned := by
    refine ⟨_, .head ⟨.main, nofun, rfl⟩ <| .head ⟨.main, nofun, rfl⟩ <|
      .head ⟨.main, nofun, rfl⟩ <| .head ⟨.main, nofun, rfl⟩ <| .head ⟨.take 0, nofun, rfl⟩ <|
      .head ⟨.main, nofun, rfl⟩ <| .head ⟨.signal 0, nofun, rfl⟩ <|
      .head ⟨.handler 0, ?_, rfl⟩ <| .head ⟨.handler 0, ?_, rfl⟩ <| .head ⟨.handler 0, ?_, rfl⟩ <|
      .head ⟨.handler 0, ?_, rfl⟩ <| .head ⟨.finish 0, nofun, rfl⟩ <|
        .head ⟨.leave 0, nofun, rfl⟩ <|
      .head ⟨.handler 0, ?_, rfl⟩ <| .head ⟨.handler 0, ?_, rfl⟩ <| .single ⟨.handler 0, ?_, rfl⟩,
      Or.inl ⟨0, rfl⟩⟩
    · rintro h ⟨⟩ - hrunning
      cases hrunning
    all_goals
      rintro h ⟨⟩ henter
      cases henter
  obtain ⟨s, hrun, hret⟩ := h
  exact ⟨s, hret, stop_final 1 s s hrun hret .refl⟩

/-- Ctrl+C comes before `start()`. -/
theorem stop_not_final : ¬ ∀ (n : ℕ) (s s' : State), ReflTransGen (Step n) .initial s →
    s.StopReturned → ReflTransGen (Step n) s s' → Final n s' := by
  intro hall
  have hrun : ∃ s, ReflTransGen (Step 1) .initial s ∧ s.StopReturned ∧
      ∃ s', ReflTransGen (Step 1) s s' ∧ s'.shared.running = true :=
    ⟨_, .head ⟨.signal 0, rfl⟩ <| .single ⟨.handler 0, rfl⟩, Or.inl ⟨0, rfl⟩,
      _, .single ⟨.main, rfl⟩, rfl⟩
  obtain ⟨s, hrun, hret, s', hafter, hrunning⟩ := hrun
  have hfinal := hall 1 s s' hrun hret hafter
  rw [hfinal.running] at hrunning
  cases hrunning

end Mtfss.Shutdown
