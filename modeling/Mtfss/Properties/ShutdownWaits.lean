import Mtfss.Server.Shutdown

/-! A shutdown of the thread pool returns after all workers have been joined. -/

namespace Mtfss.Shutdown

open Relation

variable {n : ℕ} {s s' : State} {sh sh' : Shared} {c c' : StopCall}

/-- Every worker has left `worker_loop` and has been joined. -/
def AllJoined (n : ℕ) (sh : Shared) : Prop :=
  ∀ i < n, sh.worker i = .left ∧ sh.joined i = true

/-- Some thread is in `ThreadPool::shutdown`, at `call`. -/
def State.InShutdown (s : State) (call : PoolCall) : Prop :=
  s.main = .server (.pool call) ∨ s.main = .pool call ∨ ∃ h, s.handler h = .pool call

structure Waited (n : ℕ) (s : State) : Prop where
  returning : s.InShutdown .returning → AllJoined n s.shared
  destroyed : s.main = .gone → AllJoined n s.shared ∧ ∀ call, ¬ s.InShutdown call
  alive : s.main ≠ .terminated

/-- The call has changed `running_` and has not returned. -/
def StopCall.Stopping : StopCall → Prop
  | .socket | .pool _ => True
  | _ => False

/-- When `~ThreadPool` comes to the test of `stopped_`, no handler is in a `stop()` that has changed
`running_`. -/
def Orderly (s : State) (label : Label) : Prop :=
  label = .main → s.main = .pool .enter → ∀ h, ¬ (s.handler h).Stopping

def OrderlyStep (n : ℕ) (s s' : State) : Prop :=
  ∃ label, Orderly s label ∧ step n s label = some s'

/-- `main` as one more caller of `stop()`: its own call in `~ThreadPool` counts from the test of
`stopped_` on. -/
def Main.stopCall : Main → StopCall
  | .server call => call
  | .pool .enter => .returned
  | .pool call => .pool call
  | .gone | .terminated => .returned
  | _ => .idle

/-- The calls of `stop()`, that of `main` first. -/
def State.call (s : State) : Option ℕ → StopCall
  | none => s.main.stopCall
  | some h => s.handler h

/-- What a call that changed `running_` relies on. -/
def Reliable (n : ℕ) (sh : Shared) : StopCall → Prop
  | .socket | .pool .enter => sh.stopped = false
  | .pool .closing => sh.stopped = true
  | .pool (.joining i) => sh.stopped = true ∧ ∀ j < i, sh.joined j = true
  | .pool .returning => AllJoined n sh
  | _ => True

/-- The shared state and the calls of `stop()`: at most one of them has changed `running_`. -/
structure Calls (n : ℕ) (sh : Shared) (call : Option ℕ → StopCall) : Prop where
  joined_left : ∀ i, sh.joined i = true → sh.worker i = .left
  alone : ∀ t u, (call t).Stopping → (call u).Stopping → t = u
  reliable : ∀ t, Reliable n sh (call t)
  running : sh.running = true → sh.stopped = false ∧ ∀ t, ¬ (call t).Stopping
  stopped : sh.stopped = true → AllJoined n sh ∨ ∃ t, (call t).Stopping

structure Inv (n : ℕ) (s : State) : Prop where
  calls : Calls n s.shared s.call
  starting : s.main = .starting →
    s.shared.running = false ∧ s.shared.stopped = false ∧ ∀ t, ¬ (s.call t).Stopping
  late : (s.main = .server .returned ∨ (∃ call, s.main = .pool call) ∨ s.main = .gone) →
    s.shared.running = false
  gone : s.main = .gone → AllJoined n s.shared ∧ ∀ t, ¬ (s.call t).Stopping
  alive : s.main ≠ .terminated

/-- What a step does that is made while no other call has changed `running_`. -/
structure Advances (n : ℕ) (sh : Shared) (c' : StopCall) (sh' : Shared) : Prop where
  worker : sh'.worker = sh.worker
  joined : ∀ i, sh'.joined i = true → sh.joined i = true ∨ sh.worker i = .left
  running : sh'.running = false
  reliable : Reliable n sh' c'
  ends : c'.Stopping ∨ AllJoined n sh'

lemma reliable_of_not_stopping (h : ¬ c.Stopping) : Reliable n sh c := by
  cases c with
  | socket => exact (h trivial).elim
  | pool => exact (h trivial).elim
  | idle => trivial
  | enter => trivial
  | returned => trivial

lemma Reliable.worked (h : Reliable n sh c) (hw : ∀ i, sh.worker i = .left → sh'.worker i = .left)
    (hj : sh'.joined = sh.joined) (hs : sh'.stopped = sh.stopped) : Reliable n sh' c := by
  cases c with
  | socket => exact hs.trans h
  | pool call =>
    cases call with
    | enter => exact hs.trans h
    | closing => exact hs.trans h
    | joining i => exact ⟨hs.trans h.1, fun j hlt => hj ▸ h.2 j hlt⟩
    | returning => exact fun i hi => ⟨hw i (h i hi).1, hj ▸ (h i hi).2⟩
  | idle => trivial
  | enter => trivial
  | returned => trivial

lemma advances_of_shutdown {call call' : PoolCall}
    (hleft : ∀ i, sh.joined i = true → sh.worker i = .left)
    (hr : sh.running = false) (hrel : Reliable n sh (.pool call))
    (h : shutdown n call sh = some (call', sh')) :
    Advances n sh (.pool call') sh' := by
  cases call with
  | enter =>
    have hstopped : sh.stopped = false := hrel
    simp only [shutdown, hstopped, Bool.false_eq_true, if_false, Option.some.injEq,
      Prod.mk.injEq] at h
    obtain ⟨rfl, rfl⟩ := h
    exact ⟨rfl, fun _ hi => Or.inl hi, hr, rfl, Or.inl trivial⟩
  | closing =>
    simp only [shutdown, Option.some.injEq, Prod.mk.injEq] at h
    obtain ⟨rfl, rfl⟩ := h
    exact ⟨rfl, fun _ hi => Or.inl hi, hr, ⟨hrel, by simp⟩, Or.inl trivial⟩
  | joining i =>
    obtain ⟨hstopped, hjoined⟩ := hrel
    simp only [shutdown] at h
    split_ifs at h with hi hj hl
    · simp only [Option.some.injEq, Prod.mk.injEq] at h
      obtain ⟨rfl, rfl⟩ := h
      refine ⟨rfl, fun _ hi => Or.inl hi, hr, ⟨hstopped, fun j hlt => ?_⟩, Or.inl trivial⟩
      rcases Nat.lt_succ_iff_lt_or_eq.mp hlt with hlt | rfl
      · exact hjoined j hlt
      · exact hj
    · simp only [Option.some.injEq, Prod.mk.injEq] at h
      obtain ⟨rfl, rfl⟩ := h
      refine ⟨rfl, fun j hj => ?_, hr, ⟨hstopped, fun j hlt => ?_⟩, Or.inl trivial⟩
      · by_cases hji : j = i
        · subst hji
          exact Or.inr hl
        · exact Or.inl (by simpa [Function.update_of_ne hji] using hj)
      · by_cases hji : j = i
        · simp [hji]
        · simpa [Function.update_of_ne hji] using hjoined j (by omega)
    · simp only [Option.some.injEq, Prod.mk.injEq] at h
      obtain ⟨rfl, rfl⟩ := h
      have hall : AllJoined n sh :=
        fun j hj => ⟨hleft j (hjoined j (by omega)), hjoined j (by omega)⟩
      exact ⟨rfl, fun _ hi => Or.inl hi, hr, hall, Or.inl trivial⟩
  | returning => cases h

lemma stop_pool {call : PoolCall} (hcall : call ≠ .returning) :
    stop n (.pool call) sh = (shutdown n call sh).map (fun (call', sh') => (.pool call', sh')) := by
  cases call with
  | returning => exact (hcall rfl).elim
  | enter => rfl
  | closing => rfl
  | joining => rfl

lemma mainStep_server {call : StopCall} (hcall : call ≠ .returned) :
    mainStep n sh (.server call) = (stop n call sh).map
      (fun (call', sh') => (.server call', sh')) := by
  cases call with
  | returned => exact (hcall rfl).elim
  | idle => rfl
  | enter => rfl
  | socket => rfl
  | pool => rfl

lemma mainStep_pool {call : PoolCall} (hcall : call ≠ .returning) :
    mainStep n sh (.pool call) = (shutdown n call sh).map
      (fun (call', sh') => (.pool call', sh')) := by
  cases call with
  | returning => exact (hcall rfl).elim
  | enter => rfl
  | closing => rfl
  | joining => rfl

lemma advances_of_stop (hleft : ∀ i, sh.joined i = true → sh.worker i = .left)
    (hr : sh.running = false)
    (hc : c.Stopping) (hrel : Reliable n sh c) (h : stop n c sh = some (c', sh')) :
    Advances n sh c' sh' := by
  cases c with
  | socket =>
    simp only [stop, Option.some.injEq, Prod.mk.injEq] at h
    obtain ⟨rfl, rfl⟩ := h
    exact ⟨rfl, fun _ hi => Or.inl hi, hr, hrel, Or.inl trivial⟩
  | pool call =>
    by_cases hcall : call = .returning
    · subst hcall
      simp only [stop, Option.some.injEq, Prod.mk.injEq] at h
      obtain ⟨rfl, rfl⟩ := h
      exact ⟨rfl, fun _ hi => Or.inl hi, hr, trivial, Or.inr hrel⟩
    · rw [stop_pool hcall, Option.map_eq_some_iff] at h
      obtain ⟨⟨call', sh'⟩, h, hpair⟩ := h
      cases hpair
      exact advances_of_shutdown hleft hr hrel h
  | idle => exact hc.elim
  | enter => exact hc.elim
  | returned => exact hc.elim

namespace Calls

variable {call call' : Option ℕ → StopCall} {t : Option ℕ}

lemma others_not_stopping (h : Calls n sh call) (ht : (call t).Stopping) {u : Option ℕ}
    (hu : u ≠ t) : ¬ (call u).Stopping :=
  fun hs => hu (h.alone u t hs ht)

lemma not_running (h : Calls n sh call) (ht : (call t).Stopping) : sh.running = false := by
  by_contra hr
  exact (h.running (by simpa using hr)).2 t ht

lemma advance (h : Calls n sh call) (hothers : ∀ u, u ≠ t → ¬ (call u).Stopping)
    (hadv : Advances n sh c' sh') : Calls n sh' (Function.update call t c') where
  joined_left i hi := by
    rw [hadv.worker]
    rcases hadv.joined i hi with hi | hi
    · exact h.joined_left i hi
    · exact hi
  alone u v hu hv := by
    have hall : ∀ u, (Function.update call t c' u).Stopping → u = t := by
      intro u hu
      by_contra hne
      rw [Function.update_of_ne hne] at hu
      exact hothers u hne hu
    rw [hall u hu, hall v hv]
  reliable u := by
    by_cases hu : u = t
    · subst hu
      rw [Function.update_self]
      exact hadv.reliable
    · rw [Function.update_of_ne hu]
      exact reliable_of_not_stopping (hothers u hu)
  running hr := by
    rw [hadv.running] at hr
    cases hr
  stopped _ := by
    rcases hadv.ends with hc | hall
    · exact Or.inr ⟨t, by rwa [Function.update_self]⟩
    · exact Or.inl hall

/-- A thread takes a step outside the part that follows the change of `running_`. -/
lemma rest (h : Calls n sh call) (ht : ¬ (call t).Stopping) (hc : ¬ c'.Stopping) :
    Calls n sh (Function.update call t c') where
  joined_left := h.joined_left
  alone u v hu hv := by
    have hall : ∀ u, (Function.update call t c' u).Stopping → (call u).Stopping := by
      intro u hu
      by_cases hut : u = t
      · subst hut
        rw [Function.update_self] at hu
        exact (hc hu).elim
      · rwa [Function.update_of_ne hut] at hu
    exact h.alone u v (hall u hu) (hall v hv)
  reliable u := by
    by_cases hu : u = t
    · subst hu
      rw [Function.update_self]
      exact reliable_of_not_stopping hc
    · rw [Function.update_of_ne hu]
      exact h.reliable u
  running hr := by
    refine ⟨(h.running hr).1, fun u => ?_⟩
    by_cases hu : u = t
    · subst hu
      rwa [Function.update_self]
    · rw [Function.update_of_ne hu]
      exact (h.running hr).2 u
  stopped hs := by
    rcases h.stopped hs with hall | ⟨u, hu⟩
    · exact Or.inl hall
    · have hut : u ≠ t := by
        rintro rfl
        exact ht hu
      exact Or.inr ⟨u, by rwa [Function.update_of_ne hut]⟩

lemma stop (h : Calls n sh call) (hs : Shutdown.stop n (call t) sh = some (c', sh')) :
    Calls n sh' (Function.update call t c') := by
  by_cases ht : (call t).Stopping
  · exact h.advance (fun _ hu => h.others_not_stopping ht hu)
      (advances_of_stop h.joined_left (h.not_running ht) ht (h.reliable t) hs)
  · cases hc : call t with
    | idle => rw [hc] at hs; cases hs
    | returned => rw [hc] at hs; cases hs
    | socket => rw [hc] at ht; exact (ht trivial).elim
    | pool => rw [hc] at ht; exact (ht trivial).elim
    | enter =>
      rw [hc, Shutdown.stop] at hs
      split_ifs at hs with hr <;> simp only [Option.some.injEq, Prod.mk.injEq] at hs <;>
        obtain ⟨rfl, rfl⟩ := hs
      · exact h.advance (fun u _ => (h.running hr).2 u)
          ⟨rfl, fun _ hi => Or.inl hi, rfl, (h.running hr).1, Or.inl trivial⟩
      · exact h.rest ht id

lemma worked (h : Calls n sh call) (hw : ∀ i, sh.worker i = .left → sh'.worker i = .left)
    (hj : sh'.joined = sh.joined) (hr : sh'.running = sh.running)
    (hs : sh'.stopped = sh.stopped) : Calls n sh' call where
  joined_left i hi := hw i (h.joined_left i (hj ▸ hi))
  alone := h.alone
  reliable u := (h.reliable u).worked hw hj hs
  running hr' := by rw [hs]; exact h.running (hr ▸ hr')
  stopped hs' := by
    rcases h.stopped (hs ▸ hs') with hall | hu
    · exact Or.inl fun i hi => ⟨hw i (hall i hi).1, by rw [hj]; exact (hall i hi).2⟩
    · exact Or.inr hu

end Calls

lemma call_handler (s : State) (sh : Shared) (h : ℕ) (c : StopCall) :
    ({ s with shared := sh, handler := Function.update s.handler h c } : State).call =
      Function.update s.call (some h) c := by
  funext t
  cases t with
  | none => rw [Function.update_of_ne (by simp)]; rfl
  | some g =>
    by_cases hg : g = h
    · subst hg
      simp [State.call]
    · rw [Function.update_of_ne (by simpa using hg)]
      exact Function.update_of_ne hg _ _

lemma call_main (s : State) (sh : Shared) (m : Main) :
    ({ s with shared := sh, main := m } : State).call = Function.update s.call none m.stopCall := by
  funext t
  cases t with
  | none => simp [State.call]
  | some h => rw [Function.update_of_ne (by simp)]; rfl

lemma inv_initial : Inv n .initial := by
  have hidle : ∀ t, ¬ (State.initial.call t).Stopping := by
    intro t
    cases t <;> exact id
  refine ⟨⟨nofun, fun t _ ht => (hidle t ht).elim, ?_, nofun, nofun⟩, fun _ =>
    ⟨rfl, rfl, hidle⟩, ?_,
    nofun, nofun⟩
  · exact fun t => reliable_of_not_stopping (hidle t)
  · rintro (h | ⟨_, h⟩ | h) <;> cases h

lemma stop_idle (hr : sh.running = false) (hc : ¬ c.Stopping) (h : stop n c sh = some (c', sh')) :
    c' = .returned ∧ sh' = sh := by
  cases c with
  | enter =>
    rw [stop, hr] at h
    cases h
    exact ⟨rfl, rfl⟩
  | idle => cases h
  | returned => cases h
  | socket => exact (hc trivial).elim
  | pool => exact (hc trivial).elim

namespace Calls

variable {call : Option ℕ → StopCall} {t : Option ℕ}

/-- A step of `stop()` never starts the server again. -/
lemma stays_stopped (h : Calls n sh call) (hr : sh.running = false)
    (hs : Shutdown.stop n (call t) sh = some (c', sh')) : sh'.running = false := by
  by_cases ht : (call t).Stopping
  · exact (advances_of_stop h.joined_left hr ht (h.reliable t) hs).running
  · rw [(stop_idle hr ht hs).2, hr]

lemma returned_stopped (h : Calls n sh call)
    (hs : Shutdown.stop n (call t) sh = some (.returned, sh')) : sh'.running = false := by
  by_cases hr : sh.running = false
  · exact h.stays_stopped hr hs
  · have hidle := (h.running (by simpa using hr)).2 t
    cases hc : call t with
    | enter =>
      rw [hc, Shutdown.stop, if_pos (by simpa using hr)] at hs
      cases hs
    | idle => rw [hc] at hs; cases hs
    | returned => rw [hc] at hs; cases hs
    | socket => exact (hidle (hc ▸ trivial)).elim
    | pool => exact (hidle (hc ▸ trivial)).elim

end Calls

lemma step_eq_some {label : Label} :
    step n s label = some s' ↔ s.main ≠ .terminated ∧ threadStep n s label = some s' := by
  rw [step]
  split_ifs with h <;> simp [h]

namespace Inv

lemma handler (hinv : Inv n s) {h : ℕ} (hs : stop n (s.handler h) s.shared = some (c', sh')) :
    Inv n { s with shared := sh', handler := Function.update s.handler h c' } := by
  have hcalls := hinv.calls
  have hidle : (∀ t, ¬ (s.call t).Stopping) → s.shared.running = false →
      sh' = s.shared ∧ ∀ t, ¬ (Function.update s.call (some h) c' t).Stopping := by
    intro hnone hr
    obtain ⟨rfl, rfl⟩ := stop_idle hr (hnone (some h)) hs
    refine ⟨rfl, fun t => ?_⟩
    by_cases ht : t = some h
    · subst ht
      rw [Function.update_self]
      exact id
    · rw [Function.update_of_ne ht]
      exact hnone t
  refine ⟨?_, fun hm => ?_, fun hm => ?_, fun hm => ?_, hinv.alive⟩
  · rw [call_handler]
    exact hcalls.stop (t := some h) hs
  · obtain ⟨hr, hstopped, hnone⟩ := hinv.starting hm
    obtain ⟨rfl, hnone⟩ := hidle hnone hr
    exact ⟨hr, hstopped, fun t => by rw [call_handler]; exact hnone t⟩
  · exact hcalls.stays_stopped (t := some h) (hinv.late hm) hs
  · obtain ⟨hall, hnone⟩ := hinv.gone hm
    obtain ⟨rfl, hnone⟩ := hidle hnone (hinv.late (Or.inr (Or.inr hm)))
    exact ⟨hall, fun t => by rw [call_handler]; exact hnone t⟩

lemma worked (hinv : Inv n s) {sh : Shared}
    (hw : ∀ i, s.shared.worker i = .left → sh.worker i = .left)
    (hj : sh.joined = s.shared.joined) (hr : sh.running = s.shared.running)
    (hs : sh.stopped = s.shared.stopped) : Inv n { s with shared := sh } where
  calls := hinv.calls.worked hw hj hr hs
  starting hm := by
    obtain ⟨hrun, hstop, hnone⟩ := hinv.starting hm
    exact ⟨hr.trans hrun, hs.trans hstop, hnone⟩
  late hm := hr.trans (hinv.late hm)
  gone hm := by
    obtain ⟨hall, hnone⟩ := hinv.gone hm
    exact ⟨fun i hi => ⟨hw i (hall i hi).1, hj ▸ (hall i hi).2⟩, hnone⟩
  alive := hinv.alive

/-- `main` goes on outside the part of `stop()` that follows the change of `running_`. -/
lemma goes (hinv : Inv n s) {m : Main} (hm : ¬ s.main.stopCall.Stopping)
    (hm' : ¬ m.stopCall.Stopping)
    (hstarting : m ≠ .starting) (hgone : m ≠ .gone) (halive : m ≠ .terminated)
    (hlate : (m = .server .returned ∨ ∃ call, m = .pool call) → s.shared.running = false) :
    Inv n { s with main := m } where
  calls := by
    have hcall := call_main s s.shared m
    rw [show ({ s with main := m } : State) = { s with shared := s.shared, main := m } from rfl,
      hcall]
    exact hinv.calls.rest (t := none) hm hm'
  starting h := (hstarting h).elim
  late h := by
    rcases h with h | h | h
    · exact hlate (Or.inl h)
    · exact hlate (Or.inr h)
    · exact (hgone h).elim
  gone h := (hgone h).elim
  alive := halive

lemma server (hinv : Inv n s) {c : StopCall} (hm : s.main = .server c)
    (hs : stop n c s.shared = some (c', sh')) :
    Inv n { s with shared := sh', main := .server c' } := by
  have hcall : s.call none = c := by rw [State.call, hm, Main.stopCall]
  rw [← hcall] at hs
  refine ⟨?_, nofun, ?_, nofun, nofun⟩
  · rw [call_main]
    exact hinv.calls.stop hs
  · rintro (h | ⟨_, h⟩ | h) <;> cases h
    exact hinv.calls.returned_stopped hs

lemma pool (hinv : Inv n s) {m : Main}
    (hothers : ∀ h, ¬ (s.handler h).Stopping) (hm : (∃ call, m = .pool call) ∨ m = .gone)
    (hgone : m = .gone → AllJoined n sh') (hadv : Advances n s.shared m.stopCall sh') :
    Inv n { s with shared := sh', main := m } := by
  have hothers : ∀ u, u ≠ none → ¬ (s.call u).Stopping := by
    intro u hu
    cases u with
    | none => exact (hu rfl).elim
    | some h => exact hothers h
  refine ⟨?_, fun h => ?_, fun _ => hadv.running, fun h => ⟨hgone h, fun t => ?_⟩, ?_⟩
  · rw [call_main]
    exact hinv.calls.advance hothers hadv
  · rcases hm with ⟨_, rfl⟩ | rfl <;> cases h
  · rw [call_main]
    by_cases ht : t = none
    · subst ht
      cases h
      exact id
    · rw [Function.update_of_ne ht]
      exact hothers t ht
  · rcases hm with ⟨_, rfl⟩ | rfl <;> nofun

lemma signal (hinv : Inv n s) {h : ℕ} (hidle : s.handler h = .idle) :
    Inv n { s with handler := Function.update s.handler h .enter } := by
  have hcall := call_handler s s.shared h .enter
  have hh : ¬ (s.call (some h)).Stopping := by
    rw [State.call, hidle]
    exact id
  have hnone : (∀ t, ¬ (s.call t).Stopping) →
      ∀ t, ¬ (Function.update s.call (some h) .enter t).Stopping := by
    intro hnone t
    by_cases ht : t = some h
    · subst ht
      rw [Function.update_self]
      exact id
    · rw [Function.update_of_ne ht]
      exact hnone t
  refine ⟨?_, fun hm => ?_, hinv.late, fun hm => ?_, hinv.alive⟩
  · exact hcall.symm ▸ hinv.calls.rest hh id
  · obtain ⟨hr, hstopped, hall⟩ := hinv.starting hm
    exact ⟨hr, hstopped, hcall.symm ▸ hnone hall⟩
  · obtain ⟨hall, hidle⟩ := hinv.gone hm
    exact ⟨hall, hcall.symm ▸ hnone hidle⟩

lemma launch (hinv : Inv n s) (hm : s.main = .starting) :
    Inv n { s with shared := { s.shared with running := true }, main := .testing } := by
  obtain ⟨-, hstopped, hnone⟩ := hinv.starting hm
  have hcalls : Calls n { s.shared with running := true } s.call :=
    { joined_left := hinv.calls.joined_left
      alone := hinv.calls.alone
      reliable := fun t => reliable_of_not_stopping (hnone t)
      running := fun _ => ⟨hstopped, hnone⟩
      stopped := fun h => by rw [hstopped] at h; cases h }
  refine ⟨?_, nofun, ?_, nofun, nofun⟩
  · rw [call_main]
    exact hcalls.rest (hnone none) id
  · rintro (h | ⟨_, h⟩ | h) <;> cases h

/-- `main` tests `stopped_` in `~ThreadPool`, or goes on after that test. -/
lemma destroy (hinv : Inv n s) (horderly : Orderly s .main) {call call' : PoolCall}
    (hm : s.main = .pool call) (hs : shutdown n call s.shared = some (call', sh')) :
    Inv n { s with shared := sh', main := .pool call' } := by
  have hlate : s.shared.running = false := hinv.late (Or.inr (Or.inl ⟨_, hm⟩))
  by_cases hcall : call = .enter
  · subst hcall
    have hothers := horderly rfl hm
    have hnone : ∀ t, ¬ (s.call t).Stopping := by
      intro t
      cases t with
      | none => rw [State.call, hm]; exact id
      | some h => exact hothers h
    rw [shutdown] at hs
    split_ifs at hs with hstopped <;> cases hs
    · have hall : AllJoined n s.shared := by
        rcases hinv.calls.stopped hstopped with hall | ⟨t, ht⟩
        · exact hall
        · exact (hnone t ht).elim
      exact hinv.pool hothers (Or.inl ⟨_, rfl⟩) nofun
        ⟨rfl, fun _ hi => Or.inl hi, hlate, hall, Or.inl trivial⟩
    · exact hinv.pool hothers (Or.inl ⟨_, rfl⟩) nofun
        ⟨rfl, fun _ hi => Or.inl hi, hlate, rfl, Or.inl trivial⟩
  · have hmain : s.call none = .pool call := by
      rw [State.call, hm]
      cases call <;> first | rfl | exact (hcall rfl).elim
    have hstop : (s.call none).Stopping := hmain ▸ trivial
    have hadv := advances_of_shutdown hinv.calls.joined_left hlate
      (hmain ▸ hinv.calls.reliable none) hs
    have hnext : (Main.pool call').stopCall = .pool call' := by
      cases call <;> simp only [shutdown] at hs
      · exact (hcall rfl).elim
      · cases hs
        rfl
      · split_ifs at hs <;> cases hs <;> rfl
      · cases hs
    exact hinv.pool (fun h => hinv.calls.others_not_stopping hstop (u := some h) nofun)
      (Or.inl ⟨_, rfl⟩) nofun (hnext.symm ▸ hadv)

lemma main (hinv : Inv n s) (horderly : Orderly s .main) (hs : threadStep n s .main = some s') :
    Inv n s' := by
  obtain ⟨⟨m, sh⟩, hnext, rfl⟩ := Option.map_eq_some_iff.mp hs
  have hrest : ∀ {m'}, s.main = m' → ¬ m'.stopCall.Stopping → ¬ s.main.stopCall.Stopping :=
    fun h hm => h ▸ hm
  cases hm : s.main with
  | starting =>
    rw [hm] at hnext
    cases hnext
    exact hinv.launch hm
  | testing =>
    rw [hm] at hnext
    simp only [mainStep, Option.some.injEq, Prod.mk.injEq] at hnext
    obtain ⟨rfl, rfl⟩ := hnext
    cases s.shared.running
    · exact hinv.goes (hrest hm id) id nofun nofun nofun (by simp)
    · exact hinv.goes (hrest hm id) id nofun nofun nofun (by simp)
  | accepting =>
    rw [hm, mainStep] at hnext
    split_ifs at hnext
    cases hnext
    exact hinv.goes (hrest hm id) id nofun nofun nofun (by simp)
  | pushing =>
    rw [hm, mainStep] at hnext
    split_ifs at hnext <;> cases hnext
    · exact hinv.goes (hrest hm id) id nofun nofun nofun (by simp)
    · have hpushed : Inv n { s with shared := { s.shared with queued := s.shared.queued + 1 } } :=
        hinv.worked (fun _ h => h) rfl rfl rfl
      exact hpushed.goes (hrest hm id) id nofun nofun nofun (by simp)
  | started =>
    rw [hm] at hnext
    cases hnext
    have hcleared : Inv n { s with shared := { s.shared with published := false } } :=
      hinv.worked (fun _ h => h) rfl rfl rfl
    exact hcleared.goes (hrest hm id) id nofun nofun nofun (by simp)
  | server call =>
    rw [hm] at hnext
    by_cases hcall : call = .returned
    · subst hcall
      cases hnext
      exact hinv.goes (hrest hm id) id nofun nofun nofun (fun _ => hinv.late (Or.inl hm))
    · rw [mainStep_server hcall] at hnext
      obtain ⟨⟨c, sh⟩, hnext, hpair⟩ := Option.map_eq_some_iff.mp hnext
      cases hpair
      exact hinv.server hm hnext
  | pool call =>
    rw [hm] at hnext
    by_cases hcall : call = .returning
    · subst hcall
      have hstop : (s.call none).Stopping := by rw [State.call, hm]; trivial
      have hall : AllJoined n s.shared := by
        have hrel := hinv.calls.reliable none
        rwa [State.call, hm] at hrel
      rw [mainStep, if_pos fun i hi => (hall i hi).2] at hnext
      cases hnext
      exact hinv.pool (fun h => hinv.calls.others_not_stopping hstop (u := some h) nofun)
        (Or.inr rfl) (fun _ => hall)
        ⟨rfl, fun _ hi => Or.inl hi, hinv.late (Or.inr (Or.inl ⟨_, hm⟩)), trivial, Or.inr hall⟩
    · rw [mainStep_pool hcall] at hnext
      obtain ⟨⟨c, sh⟩, hnext, hpair⟩ := Option.map_eq_some_iff.mp hnext
      cases hpair
      exact hinv.destroy horderly hm hnext
  | gone =>
    rw [hm] at hnext
    cases hnext
  | terminated => exact (hinv.alive hm).elim

lemma stays_left {worker : ℕ → Worker} {i : ℕ} {w : Worker} (hi : worker i ≠ .left) (j : ℕ)
    (hj : worker j = .left) : Function.update worker i w j = .left := by
  have hji : j ≠ i := by
    rintro rfl
    exact hi hj
  rw [Function.update_of_ne hji, hj]

lemma step (hinv : Inv n s) {label : Label} (horderly : Orderly s label)
    (hs : Shutdown.step n s label = some s') : Inv n s' := by
  replace hs := (step_eq_some.mp hs).2
  cases label with
  | main => exact hinv.main horderly hs
  | acceptFails =>
    simp only [threadStep, Option.ite_none_right_eq_some, Option.some.injEq] at hs
    obtain ⟨hm, rfl⟩ := hs
    exact hinv.goes (by rw [hm]; exact id) id nofun nofun nofun (by simp)
  | unwinds =>
    simp only [threadStep, Option.ite_none_right_eq_some, Option.some.injEq] at hs
    obtain ⟨hm, rfl⟩ := hs
    refine hinv.goes ?_ id nofun nofun nofun (by simp)
    cases hmain : s.main <;> rw [hmain] at hm <;> first | exact id | cases hm
  | signal h =>
    simp only [threadStep, Option.ite_none_right_eq_some, Option.some.injEq] at hs
    obtain ⟨⟨hidle, -⟩, rfl⟩ := hs
    exact hinv.signal hidle
  | handler h =>
    obtain ⟨⟨c, sh⟩, hstop, rfl⟩ := Option.map_eq_some_iff.mp hs
    exact hinv.handler hstop
  | take i =>
    simp only [threadStep, Option.ite_none_right_eq_some, Option.some.injEq] at hs
    obtain ⟨⟨-, hw, -⟩, rfl⟩ := hs
    exact hinv.worked (stays_left (by rw [hw]; nofun)) rfl rfl rfl
  | finish i =>
    simp only [threadStep, Option.ite_none_right_eq_some, Option.some.injEq] at hs
    obtain ⟨hw, rfl⟩ := hs
    exact hinv.worked (stays_left (by rw [hw]; nofun)) rfl rfl rfl
  | leave i =>
    simp only [threadStep, Option.ite_none_right_eq_some, Option.some.injEq] at hs
    obtain ⟨⟨-, hw, -⟩, rfl⟩ := hs
    exact hinv.worked (stays_left (by rw [hw]; nofun)) rfl rfl rfl

lemma waited (hinv : Inv n s) : Waited n s where
  returning h := by
    have hrel : ∀ t, s.call t = .pool .returning → AllJoined n s.shared := by
      intro t ht
      have hreliable := hinv.calls.reliable t
      rwa [ht] at hreliable
    rcases h with h | h | ⟨g, h⟩
    · exact hrel none (by rw [State.call, h, Main.stopCall])
    · exact hrel none (by rw [State.call, h, Main.stopCall]; nofun)
    · exact hrel (some g) h
  destroyed hm := by
    obtain ⟨hall, hnone⟩ := hinv.gone hm
    refine ⟨hall, ?_⟩
    rintro call (h | h | ⟨g, h⟩)
    · rw [hm] at h; cases h
    · rw [hm] at h; cases h
    · exact hnone (some g) (by rw [State.call, h]; trivial)
  alive := hinv.alive

end Inv

/-- In a run in which main begins to destroy the pool only when no handler is shutting the server
down any more, every shutdown of the pool waits for the workers. -/
theorem shutdown_waits (n : ℕ) (s : State)
    (h : ReflTransGen (OrderlyStep n) .initial s) : Waited n s := by
  have hinv : Inv n s := by
    induction h with
    | refl => exact inv_initial
    | tail _ hs ih =>
      obtain ⟨label, horderly, hs⟩ := hs
      exact ih.step horderly hs
  exact hinv.waited

theorem shutdown_waits_unwound : ∃ s, s.InShutdown .returning ∧ Waited 1 s := by
  have h : ∃ s, ReflTransGen (OrderlyStep 1) .initial s ∧ s.InShutdown .returning := by
    refine ⟨_, .head ⟨.unwinds, nofun, rfl⟩ <| .head ⟨.main, nofun, rfl⟩ <|
      .head ⟨.main, nofun, rfl⟩ <| .head ⟨.main, fun _ _ _ => id, rfl⟩ <|
        .head ⟨.main, nofun, rfl⟩ <|
      .head ⟨.leave 0, nofun, rfl⟩ <| .head ⟨.main, nofun, rfl⟩ <| .single ⟨.main, nofun, rfl⟩,
      Or.inr (Or.inl rfl)⟩
  obtain ⟨s, hrun, hreturning⟩ := h
  exact ⟨s, hreturning, shutdown_waits 1 s hrun⟩

/-- The run in which `main` passes both guards while the handler is still about to join: a worker is
in a task when the pool is destroyed. -/
def earlyReturn : List Label :=
  [.main, .main, .main, .main, .take 0, .main, .signal 0, .handler 0, .handler 0, .handler 0,
    .acceptFails, .main, .main, .main, .main, .main, .main]

def run (n : ℕ) (labels : List Label) (s : State) : Option State :=
  labels.foldlM (step n) s

lemma run_steps (labels : List Label) (h : run n labels s = some s') :
    ReflTransGen (fun s s' => ∃ label, step n s label = some s') s s' := by
  induction labels generalizing s with
  | nil =>
    cases h
    exact .refl
  | cons label labels ih =>
    obtain ⟨t, hstep, hrun⟩ := Option.bind_eq_some_iff.mp h
    exact .head ⟨label, hstep⟩ (ih hrun)

theorem shutdown_not_waits : ¬ ∀ (n : ℕ) (s : State),
    ReflTransGen (fun s s' => ∃ label, step n s label = some s') .initial s → Waited n s := by
  intro hall
  have hrun : (run 1 earlyReturn .initial).isSome = true := by decide
  obtain ⟨s, hs⟩ := Option.isSome_iff_exists.mp hrun
  have hend : (run 1 earlyReturn .initial).all (fun s => s.main = .terminated) = true := by decide
  rw [hs] at hend
  exact (hall 1 s (run_steps earlyReturn hs)).alive (by simpa using hend)

end Mtfss.Shutdown
