import Mtfss.Properties.StopRequests

/-! Where the threads are in `stop()` and `shutdown()`, and what `main` can rely on there. -/

namespace Mtfss.Shutdown

open Relation

variable {n m : ℕ} {s s' : State} {sh sh' : Shared} {c c' : StopCall}

section Cases

lemma stop_cases (h : stop n c sh = some (c', sh')) :
    (c = .enter ∧ sh.running = true ∧ c' = .socket ∧ sh' = { sh with running := false }) ∨
    (c = .enter ∧ sh.running = false ∧ c' = .returned ∧ sh' = sh) ∨
    (c = .socket ∧ c' = .pool .enter ∧ sh' = { sh with socketOpen := false }) ∨
    (c = .pool .enter ∧ sh.stopped = true ∧ c' = .pool .returning ∧ sh' = sh) ∨
    (c = .pool .enter ∧ sh.stopped = false ∧ c' = .pool .closing ∧
      sh' = { sh with stopped := true }) ∨
    (c = .pool .closing ∧ c' = .pool (.joining 0) ∧ sh' = { sh with queueShut := true }) ∨
    (∃ i, c = .pool (.joining i) ∧ i < n ∧ c' = .pool (.joining (i + 1)) ∧
      ∃ j, (∀ k, sh.joined k = true → j k = true) ∧ sh' = { sh with joined := j }) ∨
    (∃ i, c = .pool (.joining i) ∧ c' = .pool .returning ∧ sh' = sh) ∨
    (c = .pool .returning ∧ c' = .returned ∧ sh' = sh) := by
  cases c with
  | idle => cases h
  | returned => cases h
  | enter =>
    rw [stop] at h
    split_ifs at h with hr <;> cases h
    · simp [hr]
    · simp [Bool.not_eq_true _ ▸ hr]
  | socket =>
    cases h
    simp
  | pool call =>
    cases call with
    | enter =>
      simp only [stop, shutdown] at h
      split_ifs at h with hs <;> cases h
      · simp [hs]
      · simp [Bool.not_eq_true _ ▸ hs]
    | closing =>
      cases h
      simp
    | joining i =>
      have hset : ∀ k, sh.joined k = true → Function.update sh.joined i true k = true := by
        grind [Function.update_apply]
      simp only [stop, shutdown] at h
      split_ifs at h <;> cases h <;> grind
    | returning =>
      cases h
      simp

lemma stop_keeps (h : stop n c sh = some (c', sh')) :
    sh'.worker = sh.worker ∧ sh'.queued = sh.queued ∧
      (sh.stopped = true → sh'.stopped = true) := by
  rcases stop_cases h with ⟨-, -, -, rfl⟩ | ⟨-, -, -, rfl⟩ | ⟨-, -, rfl⟩ | ⟨-, -, -, rfl⟩ |
    ⟨-, -, -, rfl⟩ | ⟨-, -, rfl⟩ | ⟨-, -, -, -, -, -, rfl⟩ | ⟨-, -, -, rfl⟩ | ⟨-, -, rfl⟩ <;> simp

lemma stop_joined (h : stop n c sh = some (c', sh')) (i : ℕ) (hi : sh.joined i = true) :
    sh'.joined i = true := by
  rcases stop_cases h with ⟨-, -, -, rfl⟩ | ⟨-, -, -, rfl⟩ | ⟨-, -, rfl⟩ | ⟨-, -, -, rfl⟩ |
    ⟨-, -, -, rfl⟩ | ⟨-, -, rfl⟩ | ⟨-, -, -, -, _, hj, rfl⟩ | ⟨-, -, -, rfl⟩ | ⟨-, -, rfl⟩
  case inr.inr.inr.inr.inr.inr.inl => exact hj i hi
  all_goals exact hi

/-- A call that is before its change of `running_` changes it, or returns. -/
lemma stop_enter (h : stop n c sh = some (c', sh')) (hc : ¬ c.Stopping) :
    (sh.running = true ∧ c' = .socket ∧ sh' = { sh with running := false }) ∨
      (sh.running = false ∧ c' = .returned ∧ sh' = sh) := by
  rcases stop_cases h with ⟨-, h⟩ | ⟨-, h⟩ | ⟨rfl, -⟩ | ⟨rfl, -⟩ | ⟨rfl, -⟩ | ⟨rfl,
    -⟩ | ⟨_, rfl, -⟩ |
    ⟨_, rfl, -⟩ | ⟨rfl, -⟩
  · exact Or.inl h
  · exact Or.inr h
  all_goals exact (hc trivial).elim

lemma mainStep_cases {main main' : Main} (h : mainStep n sh main = some (main', sh')) :
    (main = .starting ∧ main' = .testing ∧ sh' = { sh with running := true }) ∨
    (main = .testing ∧ sh.running = true ∧ main' = .accepting ∧ sh' = sh) ∨
    (main = .testing ∧ sh.running = false ∧ main' = .started ∧ sh' = sh) ∨
    (main = .accepting ∧ sh.socketOpen = true ∧ main' = .pushing ∧ sh' = sh) ∨
    (main = .pushing ∧ sh.queueShut = true ∧ main' = .testing ∧ sh' = sh) ∨
    (main = .pushing ∧ sh.queueShut = false ∧ main' = .testing ∧
      sh' = { sh with queued := sh.queued + 1 }) ∨
    (main = .started ∧ main' = .server .enter ∧ sh' = { sh with published := false }) ∨
    (main = .server .returned ∧ main' = .pool .enter ∧ sh' = sh) ∨
    (∃ c c', main = .server c ∧ main' = .server c' ∧ stop n c sh = some (c', sh')) ∨
    (main = .pool .returning ∧ (main' = .gone ∧ (∀ i < n, sh.joined i = true) ∨
      main' = .terminated ∧ ∃ i < n, sh.joined i = false) ∧ sh' = sh) ∨
    (∃ c c', main = .pool c ∧ main' = .pool c' ∧ stop n (.pool c) sh = some (.pool c', sh')) := by
  cases main with
  | starting => cases h; simp
  | testing =>
    rw [mainStep] at h
    split_ifs at h with hr <;> cases h
    · simp [hr]
    · simp [Bool.not_eq_true _ ▸ hr]
  | accepting =>
    rw [mainStep] at h
    split_ifs at h with hopen
    cases h
    simp [hopen]
  | pushing =>
    rw [mainStep] at h
    split_ifs at h with hshut hfull <;> cases h
    · simp [hshut]
    · simp [hshut]
  | started => cases h; simp
  | server call =>
    by_cases hcall : call = .returned
    · subst hcall
      cases h
      simp
    · rw [mainStep_server hcall] at h
      obtain ⟨⟨call', _⟩, hs, hpair⟩ := Option.map_eq_some_iff.mp h
      cases hpair
      simp [hs]
  | pool call =>
    by_cases hcall : call = .returning
    · subst hcall
      rw [mainStep] at h
      cases h
      split_ifs with hjoined
      · simpa using hjoined
      · simpa using hjoined
    · rw [mainStep_pool hcall] at h
      obtain ⟨⟨call', _⟩, hs, hpair⟩ := Option.map_eq_some_iff.mp h
      cases hpair
      simp [stop_pool hcall, hs]
  | gone => cases h
  | terminated => cases h

end Cases

/-- What the threads share goes with where they are in `stop()` and `shutdown()`. -/
structure Linked (sh : Shared) (call : Option ℕ → StopCall) : Prop where
  left : ∀ i, sh.worker i = .left → sh.queueShut = true
  shut : sh.queueShut = true → sh.stopped = true
  stopped : sh.stopped = true → sh.queueShut = true ∨ ∃ t, call t = .pool .closing
  closing : ∀ t, call t = .pool .closing → sh.stopped = true
  joining : ∀ t i, call t = .pool (.joining i) → sh.queueShut = true
  returning : ∀ t, call t = .pool .returning → sh.stopped = true
  won : ∀ t, (call t).Stopping → sh.running = false
  closed : sh.socketOpen = false → sh.running = false

section Linked

variable {call : Option ℕ → StopCall} {t : Option ℕ}

lemma Linked.set (h : Linked sh call) (hw : sh'.worker = sh.worker)
    (hshut : sh.queueShut = true → sh'.queueShut = true)
    (hstopped : sh.stopped = true → sh'.stopped = true)
    (hrunning : sh.running = false → sh'.running = false)
    (hkept : sh'.queueShut = true → sh'.stopped = true)
    (hnew : sh'.stopped = true → sh'.queueShut = true ∨ (∃ u ≠ t, call u = .pool .closing) ∨
      c' = .pool .closing)
    (hclosing : c' = .pool .closing ∨ c' = .pool .returning → sh'.stopped = true)
    (hjoining : ∀ i, c' = .pool (.joining i) → sh'.queueShut = true)
    (hwon : c'.Stopping → sh'.running = false)
    (hclosed : sh'.socketOpen = false → sh'.running = false) :
    Linked sh' (Function.update call t c') := by
  refine ⟨fun i hi => hshut (h.left i (hw ▸ hi)), hkept, fun hst => ?_, ?_, ?_, ?_, ?_, hclosed⟩
  · rcases hnew hst with hs | ⟨u, hu, hc⟩ | hc
    · exact Or.inl hs
    · exact Or.inr ⟨u, by rw [Function.update_of_ne hu, hc]⟩
    · exact Or.inr ⟨t, by rw [Function.update_self, hc]⟩
  · exact (Function.forall_update_iff call fun _ c => c = .pool .closing → sh'.stopped = true).mpr
      ⟨fun hc => hclosing (Or.inl hc), fun u _ hu => hstopped (h.closing u hu)⟩
  · exact (Function.forall_update_iff call fun _ c => ∀ i, c = .pool (.joining i) →
      sh'.queueShut = true).mpr ⟨hjoining, fun u _ i hu => hshut (h.joining u i hu)⟩
  · exact (Function.forall_update_iff call fun _ c => c = .pool .returning → sh'.stopped = true).mpr
      ⟨fun hc => hclosing (Or.inr hc), fun u _ hu => hstopped (h.returning u hu)⟩
  · exact (Function.forall_update_iff call fun _ c => c.Stopping → sh'.running = false).mpr
      ⟨hwon, fun u _ hu => hrunning (h.won u hu)⟩

lemma Linked.others {p : Prop} (h : Linked sh call) (ht : call t ≠ .pool .closing)
    (hst : sh.stopped = true) : sh.queueShut = true ∨ (∃ u ≠ t, call u = .pool .closing) ∨ p := by
  rcases h.stopped hst with hshut | ⟨u, hu⟩
  · exact Or.inl hshut
  · exact Or.inr (Or.inl ⟨u, fun he => ht (he ▸ hu), hu⟩)

lemma Linked.stop (h : Linked sh call) (hs : stop n (call t) sh = some (c', sh')) :
    Linked sh' (Function.update call t c') := by
  have hwon : call t = .socket ∨ (∃ call', call t = .pool call') → sh.running = false := by
    rintro (hc | ⟨call', hc⟩) <;> exact h.won t (by rw [hc]; trivial)
  rcases stop_cases hs with ⟨hc, hr, rfl, rfl⟩ | ⟨hc, hr, rfl, rfl⟩ | ⟨hc, rfl, rfl⟩ | ⟨hc,
    hst, rfl, rfl⟩ |
    ⟨hc, hst, rfl, rfl⟩ | ⟨hc, rfl, rfl⟩ | ⟨i, hc, hi, rfl, j, -, rfl⟩ | ⟨i, hc, rfl,
      rfl⟩ | ⟨hc, rfl, rfl⟩
  · exact h.set rfl id id (fun _ => rfl) h.shut (h.others (by rw [hc]; nofun)) (by simp) (by simp)
      (fun _ => rfl) fun _ => rfl
  · exact h.set rfl id id id h.shut (h.others (by rw [hc]; nofun)) (by simp) (by simp)
      False.elim h.closed
  · exact h.set rfl id id id h.shut (h.others (by rw [hc]; nofun)) (by simp) (by simp)
      (fun _ => hwon (Or.inl hc)) fun _ => hwon (Or.inl hc)
  · exact h.set rfl id id id h.shut (h.others (by rw [hc]; nofun)) (fun _ => hst) (by simp)
      (fun _ => hwon (Or.inr ⟨_, hc⟩)) h.closed
  · exact h.set rfl id (fun _ => rfl) id (fun _ => rfl) (fun _ => Or.inr (Or.inr rfl))
      (fun _ => rfl) (by simp) (fun _ => hwon (Or.inr ⟨_, hc⟩)) h.closed
  · exact h.set rfl (fun _ => rfl) id id (fun _ => h.closing t hc) (fun _ => Or.inl rfl) (by simp)
      (fun _ _ => rfl) (fun _ => hwon (Or.inr ⟨_, hc⟩)) h.closed
  · have hshut := h.joining t i hc
    exact h.set rfl id id id h.shut (fun _ => Or.inl hshut) (by simp) (fun _ _ => hshut)
      (fun _ => hwon (Or.inr ⟨_, hc⟩)) h.closed
  · have hshut := h.joining t i hc
    exact h.set rfl id id id h.shut (fun _ => Or.inl hshut) (fun _ => h.shut hshut) (by simp)
      (fun _ => hwon (Or.inr ⟨_, hc⟩)) h.closed
  · exact h.set rfl id id id h.shut (h.others (by rw [hc]; nofun)) (by simp) (by simp)
      False.elim h.closed

/-- A thread that is not in `stop()` or before its tests. -/
lemma Linked.idle (h : Linked sh call) (hc : c' = .idle ∨ c' = .enter ∨ c' = .returned)
    (ht : ¬ (call t).Stopping) : Linked sh (Function.update call t c') := by
  refine h.set rfl id id id h.shut (h.others ?_) ?_ ?_ ?_ h.closed
  · intro hclosing
    exact ht (by rw [hclosing]; trivial)
  all_goals rcases hc with rfl | rfl | rfl <;> simp [StopCall.Stopping]

lemma Linked.shared (h : Linked sh call) (hw : ∀ i, sh'.worker i = .left → sh'.queueShut = true)
    (hq : sh'.queueShut = sh.queueShut) (hst : sh'.stopped = sh.stopped)
    (hr : sh'.running = sh.running) (ho : sh'.socketOpen = sh.socketOpen) : Linked sh' call := by
  obtain ⟨h₁, h₂, h₃, h₄, h₅, h₆, h₇, h₈⟩ := h
  refine ⟨hw, ?_, ?_, ?_, ?_, ?_, ?_, ?_⟩
  · rwa [hq, hst]
  · rwa [hq, hst]
  · rwa [hst]
  · rwa [hq]
  · rwa [hst]
  · rwa [hr]
  · rwa [ho, hr]

end Linked

/-- `main` as one more thread that calls `stop()` and `shutdown()`. -/
def Main.thread : Main → StopCall
  | .server call => call
  | .pool call => .pool call
  | _ => .idle

def State.threads (s : State) : Option ℕ → StopCall
  | none => s.main.thread
  | some h => s.handler h

/-- What goes with the place of `main`. -/
structure Placed (n : ℕ) (s : State) : Prop where
  linked : Linked s.shared s.threads
  beyond : ∀ i, n ≤ i → s.shared.worker i = .waiting
  idle : s.main ≠ .server .idle
  early : s.main = .starting →
    s.shared.running = false ∧ s.shared.socketOpen = true ∧ ∀ h, ¬ (s.handler h).Stopping
  serving : inStart s.main = true → s.shared.socketOpen = true → s.shared.stopped = false ∧
    (∀ h call, s.handler h ≠ .pool call) ∧
      (s.shared.running = false → s.main = .starting ∨ ∃ h, s.handler h = .socket)
  late : s.main = .server .returned → s.shared.running = false
  gone : s.main = .gone → s.shared.stopped = true ∧ ∀ i < n, s.shared.joined i = true
  terminated : s.main = .terminated → ∃ i < n, s.shared.joined i = false

section Placed

variable {main' : Main}

lemma threads_main {sh : Shared} : State.threads ⟨sh, main', s.handler⟩ =
    Function.update s.threads none main'.thread := by
  funext t
  rcases t with _ | h
  · rw [Function.update_self]
    rfl
  · rw [Function.update_of_ne (by simp)]
    rfl

lemma threads_handler {sh : Shared} {h : ℕ} :
    State.threads ⟨sh, s.main, Function.update s.handler h c'⟩ =
    Function.update s.threads (some h) c' := by
  funext t
  rcases t with _ | j
  · rw [Function.update_of_ne (by simp)]
    rfl
  · by_cases hj : j = h
    · subst hj
      rw [Function.update_self]
      exact Function.update_self ..
    · rw [Function.update_of_ne (by simpa using hj)]
      exact Function.update_of_ne hj ..

lemma thread_inStart (h : inStart s.main = true) : s.main.thread = .idle := by
  cases hm : s.main <;> rw [hm] at h <;> first | rfl | cases h

/-- A round of the loop in `start()`. -/
lemma Placed.serve (h : Placed n s) {q : ℕ} (hin : inStart s.main = true) (hne : s.main ≠ .starting)
    (hin' : inStart main' = true) (hne' : main' ≠ .starting) :
    Placed n ⟨{ s.shared with queued := q }, main', s.handler⟩ := by
  have hthread : main'.thread = .idle := thread_inStart (s := ⟨s.shared, main', s.handler⟩) hin'
  have hidle : s.threads none = .idle := thread_inStart hin
  refine ⟨?_, h.beyond, ?_, fun hm => (hne' hm).elim, fun _ hopen => ?_, ?_, ?_, ?_⟩
  · rw [threads_main, hthread]
    have hlinked : Linked { s.shared with queued := q } s.threads :=
      h.linked.shared h.linked.left rfl rfl rfl rfl
    exact hlinked.idle (Or.inl rfl) (by rw [hidle]; exact id)
  · rintro rfl
    cases hin'
  · obtain ⟨hst, hpools, hr⟩ := h.serving hin hopen
    exact ⟨hst, hpools, fun hrun => Or.inr ((hr hrun).resolve_left hne)⟩
  · rintro rfl
    cases hin'
  · rintro rfl
    cases hin'
  · rintro rfl
    cases hin'

/-- `start()` is left, or `stop()` called by `~Server`. -/
lemma Placed.depart (h : Placed n s) {p : Bool} (hin : inStart s.main = true ∨ s.main = .started)
    (hm : main' = .started ∨ main' = .server .enter) :
    Placed n ⟨{ s.shared with published := p }, main', s.handler⟩ := by
  have hidle : s.threads none = .idle := by
    rcases hin with hin | hin
    · exact thread_inStart hin
    · change s.main.thread = .idle
      rw [hin]
      rfl
  refine ⟨?_, h.beyond, ?_, ?_, ?_, ?_, ?_, ?_⟩
  · rw [threads_main]
    have hlinked : Linked { s.shared with published := p } s.threads :=
      h.linked.shared h.linked.left rfl rfl rfl rfl
    refine hlinked.idle ?_ (by rw [hidle]; exact id)
    rcases hm with rfl | rfl
    · exact Or.inl rfl
    · exact Or.inr (Or.inl rfl)
  all_goals rcases hm with rfl | rfl <;> simp [inStart]

/-- A handler in `stop()`. -/
lemma Placed.handler (h : Placed n s) (halive : s.main ≠ .terminated) {j : ℕ}
    (hs : stop n (s.handler j) s.shared = some (c', sh')) :
    Placed n ⟨sh', s.main, Function.update s.handler j c'⟩ := by
  have hlinked := h.linked.stop (t := some j) hs
  rw [← threads_handler] at hlinked
  have hlow := Lowers.of_stop hs
  obtain ⟨hworker, -, hstopped⟩ := stop_keeps hs
  refine ⟨hlinked, fun i hi => ?_, h.idle, fun hm => ?_, fun hin hopen => ?_, fun hm =>
    hlow.running (h.late hm),
    fun hm => ⟨hstopped (h.gone hm).1, fun i hi => stop_joined hs i ((h.gone hm).2 i hi)⟩,
    fun hm => (halive hm).elim⟩
  · rw [hworker]
    exact h.beyond i hi
  · obtain ⟨hr, hopen, hnone⟩ := h.early hm
    rcases stop_enter hs (hnone j) with ⟨hr', -⟩ | ⟨-, rfl, rfl⟩
    · rw [hr] at hr'
      cases hr'
    · refine ⟨hr, hopen, ?_⟩
      exact (Function.forall_update_iff s.handler fun _ c => ¬ c.Stopping).mpr
        ⟨id, fun i _ => hnone i⟩
  · have hbefore : s.shared.socketOpen = true := by
      by_contra hclosed
      rw [hlow.socket (Bool.not_eq_true _ ▸ hclosed)] at hopen
      cases hopen
    obtain ⟨hst, hpools, hr⟩ := h.serving hin hbefore
    have hupdate : ∀ c, (∀ call, c ≠ .pool call) →
        ∀ i call, Function.update s.handler j c i ≠ .pool call := fun c hc =>
      (Function.forall_update_iff s.handler fun _ c => ∀ call, c ≠ .pool call).mpr
        ⟨hc, fun i _ => hpools i⟩
    by_cases hc : (s.handler j).Stopping
    · cases hcall : s.handler j with
      | socket =>
        rw [hcall] at hs
        cases hs
        cases hopen
      | pool call => exact (hpools j call hcall).elim
      | _ => exact (hcall ▸ hc).elim
    · rcases stop_enter hs hc with ⟨-, rfl, rfl⟩ | ⟨hrun, rfl, rfl⟩
      · exact ⟨hst, hupdate _ nofun, fun _ => Or.inr ⟨j, Function.update_self ..⟩⟩
      · refine ⟨hst, hupdate _ nofun, fun hrun => (hr hrun).imp_right ?_⟩
        rintro ⟨i, hi⟩
        have hne : i ≠ j := by
          rintro rfl
          exact hc (hi ▸ trivial)
        exact ⟨i, (Function.update_of_ne hne ..).trans hi⟩

lemma Placed.main_stop (h : Placed n s) (hin : inStart main' = false)
    (hidle : main' ≠ .server .idle) (hlate : main' = .server .returned → sh'.running = false)
    (hgone : main' = .gone → sh'.stopped = true ∧ ∀ i < n, sh'.joined i = true)
    (hend : main' = .terminated → ∃ i < n, sh'.joined i = false)
    (hworker : sh'.worker = s.shared.worker)
    (hlinked : Linked sh' (Function.update s.threads none main'.thread)) :
    Placed n ⟨sh', main', s.handler⟩ := by
  refine ⟨?_, fun i hi => ?_, hidle, ?_, ?_, hlate, hgone, hend⟩
  · rwa [threads_main]
  · rw [hworker]
    exact h.beyond i hi
  · rintro rfl
    cases hin
  · rintro hin'
    cases hin.symm.trans hin'

lemma Placed.main (h : Placed n s) (hs : mainStep n s.shared s.main = some (main', sh')) :
    Placed n ⟨sh', main', s.handler⟩ := by
  rcases mainStep_cases hs with
    ⟨hm, rfl, rfl⟩ | ⟨hm, -, rfl, rfl⟩ | ⟨hm, -, rfl, rfl⟩ | ⟨hm, -, rfl, rfl⟩ |
    ⟨hm, -, rfl, rfl⟩ | ⟨hm, -, rfl, rfl⟩ | ⟨hm, rfl, rfl⟩ | ⟨hm, rfl, rfl⟩ |
    ⟨c, c', hm, rfl, hstop⟩ | ⟨hm, hend, rfl⟩ | ⟨c, c', hm, rfl, hstop⟩
  · obtain ⟨-, hopen, hnone⟩ := h.early hm
    have hidle : s.threads none = .idle := thread_inStart (by rw [hm]; rfl)
    have hthreads : State.threads
        ⟨{ s.shared with running := true }, .testing, s.handler⟩ = s.threads := by
      rw [threads_main]
      exact Function.update_eq_self_iff.mpr hidle.symm
    obtain ⟨h₁, h₂, h₃, h₄, h₅, h₆, -, -⟩ := h.linked
    refine ⟨?_, h.beyond, nofun, nofun, fun _ _ => ?_, nofun, nofun, nofun⟩
    · rw [hthreads]
      refine ⟨h₁, h₂, h₃, h₄, h₅, h₆, ?_, fun hclosed => ?_⟩
      · rintro (_ | j) ht
        · rw [hidle] at ht
          exact ht.elim
        · exact (hnone j ht).elim
      · cases hopen.symm.trans hclosed
    · obtain ⟨hst, hpools, -⟩ := h.serving (by rw [hm]; rfl) hopen
      exact ⟨hst, hpools, nofun⟩
  · exact h.serve (by rw [hm]; rfl) (by rw [hm]; nofun) rfl nofun
  · exact h.depart (Or.inl (by rw [hm]; rfl)) (Or.inl rfl)
  · exact h.serve (by rw [hm]; rfl) (by rw [hm]; nofun) rfl nofun
  · exact h.serve (by rw [hm]; rfl) (by rw [hm]; nofun) rfl nofun
  · exact h.serve (by rw [hm]; rfl) (by rw [hm]; nofun) rfl nofun
  · exact h.depart (Or.inr hm) (Or.inr rfl)
  · have hthread : s.threads none = .returned := by rw [State.threads, hm]; rfl
    refine h.main_stop rfl nofun nofun nofun nofun rfl ?_
    exact h.linked.set rfl id id id h.linked.shut
      (h.linked.others (by rw [hthread]; nofun)) nofun nofun
      (fun _ => h.late hm) h.linked.closed
  · have hthread : s.threads none = c := by rw [State.threads, hm]; rfl
    have hlinked := h.linked.stop (hthread.symm ▸ hstop)
    refine h.main_stop rfl ?_ ?_ nofun nofun (stop_keeps hstop).1 hlinked
    · rintro ⟨⟩
      have := stop_cases hstop
      simp at this
    · rintro ⟨⟩
      by_cases hc : c.Stopping
      · exact (Lowers.of_stop hstop).running (h.linked.won none (hthread.symm ▸ hc))
      · rcases stop_enter hstop hc with ⟨-, hcall, -⟩ | ⟨hr, -, rfl⟩
        · cases hcall
        · exact hr
  · have hthread : s.threads none = .pool .returning := by rw [State.threads, hm]; rfl
    have hlinked : Linked s.shared (Function.update s.threads none .idle) :=
      h.linked.set rfl id id id h.linked.shut (h.linked.others (by rw [hthread]; nofun)) nofun nofun
        False.elim h.linked.closed
    rcases hend with ⟨rfl, hjoined⟩ | ⟨rfl, hjoined⟩
    · exact h.main_stop rfl nofun nofun (fun _ => ⟨h.linked.returning none hthread, hjoined⟩) nofun
        rfl hlinked
    · exact h.main_stop rfl nofun nofun nofun (fun _ => hjoined) rfl hlinked
  · have hthread : s.threads none = .pool c := by rw [State.threads, hm]; rfl
    have hlinked := h.linked.stop (hthread.symm ▸ hstop)
    exact h.main_stop rfl nofun nofun nofun nofun (stop_keeps hstop).1 hlinked

lemma Placed.signal (h : Placed n s) {j : ℕ} (hj : s.handler j = .idle) :
    Placed n ⟨s.shared, s.main, Function.update s.handler j .enter⟩ := by
  have hthread : s.threads (some j) = .idle := hj
  refine ⟨?_, h.beyond, h.idle, fun hm => ?_, fun hin hopen => ?_, h.late, h.gone, h.terminated⟩
  · rw [threads_handler]
    exact h.linked.idle (Or.inr (Or.inl rfl)) (by rw [hthread]; exact id)
  · obtain ⟨hr, hopen, hnone⟩ := h.early hm
    refine ⟨hr, hopen, ?_⟩
    exact (Function.forall_update_iff s.handler fun _ c => ¬ c.Stopping).mpr
      ⟨id, fun i _ => hnone i⟩
  · obtain ⟨hst, hpools, hr⟩ := h.serving hin hopen
    refine ⟨hst, ?_, fun hrun => (hr hrun).imp_right ?_⟩
    · exact (Function.forall_update_iff s.handler fun _ c => ∀ call, c ≠ .pool call).mpr
        ⟨nofun, fun i _ => hpools i⟩
    · rintro ⟨i, hi⟩
      have hne : i ≠ j := by
        rintro rfl
        cases hj.symm.trans hi
      exact ⟨i, (Function.update_of_ne hne ..).trans hi⟩

/-- What a worker does. -/
lemma Placed.worked (h : Placed n s) {i q : ℕ} {x : Worker} (hi : i < n)
    (hleft : x = .left → s.shared.queueShut = true) :
    Placed n { s with
      shared := { s.shared with queued := q, worker := Function.update s.shared.worker i x } } := by
  have hlinked : Linked { s.shared with queued := q, worker := Function.update s.shared.worker i x }
      s.threads := by
    refine h.linked.shared ?_ rfl rfl rfl rfl
    exact (Function.forall_update_iff s.shared.worker fun _ w => w = .left →
      s.shared.queueShut = true).mpr ⟨hleft, fun j _ => h.linked.left j⟩
  refine ⟨hlinked, fun j hj => ?_, h.idle, h.early, h.serving, h.late, h.gone,
    h.terminated⟩
  have hne : j ≠ i := by omega
  exact (Function.update_of_ne hne ..).trans (h.beyond j hj)

lemma Placed.step (h : Placed n s) (hs : Step n s s') : Placed n s' := by
  obtain ⟨label, hs⟩ := hs
  obtain ⟨halive, hs⟩ := step_eq_some.mp hs
  cases label with
  | main =>
    obtain ⟨⟨main', sh'⟩, hmain, rfl⟩ := Option.map_eq_some_iff.mp hs
    exact h.main hmain
  | acceptFails =>
    obtain ⟨hm, hs⟩ := Option.ite_none_right_eq_some.mp hs
    cases hs
    exact h.serve (by rw [hm]; rfl) (by rw [hm]; nofun) rfl nofun
  | unwinds =>
    obtain ⟨hin, hs⟩ := Option.ite_none_right_eq_some.mp hs
    cases hs
    exact h.depart (Or.inl hin) (Or.inr rfl)
  | signal j =>
    obtain ⟨⟨hidle, -⟩, hs⟩ := Option.ite_none_right_eq_some.mp hs
    cases hs
    exact h.signal hidle
  | handler j =>
    obtain ⟨⟨c', sh'⟩, hstop, rfl⟩ := Option.map_eq_some_iff.mp hs
    exact h.handler halive hstop
  | take i =>
    obtain ⟨⟨hi, hw, -⟩, hs⟩ := Option.ite_none_right_eq_some.mp hs
    cases hs
    exact h.worked hi nofun
  | finish i =>
    obtain ⟨hw, hs⟩ := Option.ite_none_right_eq_some.mp hs
    cases hs
    have hi : i < n := by
      by_contra hge
      rw [h.beyond i (Nat.not_lt.mp hge)] at hw
      cases hw
    exact h.worked hi nofun
  | leave i =>
    obtain ⟨⟨hi, hw, -, hshut⟩, hs⟩ := Option.ite_none_right_eq_some.mp hs
    cases hs
    exact h.worked hi fun _ => hshut

end Placed

end Mtfss.Shutdown
