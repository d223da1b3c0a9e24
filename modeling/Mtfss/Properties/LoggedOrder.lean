import Mathlib.Data.List.Forall2
import Mathlib.Data.List.Infix
import Mathlib.Tactic.Common
import Mtfss.Server.Logger

/-! The logger writes each message once, in the order of the queue, and leaves none behind that has
come before its end. -/

namespace Mtfss.Logger

open Relation

variable {s s' s₀ : State}

def Worker.hand : Worker → List LogMessage
  | .writing msg => [msg]
  | _ => []

@[simp] lemma Worker.hand_wake (x : Worker) : x.wake.hand = x.hand := by
  cases x <;> rfl

/-- What has been pushed has been written, is in the worker's hand or is in the queue. -/
def Ordered (s : State) : Prop := ∃ written : List LogMessage,
  s.output = written.map LogMessage.output ∧ s.entered = written ++ s.worker.hand ++ s.queue

lemma Ordered.congr (h : Ordered s) (ho : s'.output = s.output) (he : s'.entered = s.entered)
    (hw : s'.worker.hand = s.worker.hand) (hq : s'.queue = s.queue) : Ordered s' := by
  obtain ⟨written, hout, hentered⟩ := h
  exact ⟨written, ho.trans hout, by rw [he, hw, hq, hentered]⟩

lemma Ordered.step (h : Ordered s) (hs : Step s s') : Ordered s' := by
  rcases hs with ⟨c, hs⟩ | hs | hs
  · cases hs with
    | @push msg hinside =>
      obtain ⟨written, hout, hentered⟩ := h
      refine ⟨written, hout, ?_⟩
      show s.entered ++ [msg] = written ++ s.worker.hand ++ (s.queue ++ [msg])
      rw [hentered, List.append_assoc (written ++ s.worker.hand)]
    | notify => exact h.congr rfl rfl (Worker.hand_wake _) rfl
    | _ => exact h.congr rfl rfl rfl rfl
  · cases hs with
    | @take msg rest hpassed hqueue =>
      obtain ⟨written, hout, hentered⟩ := h
      refine ⟨written, hout, ?_⟩
      rw [hentered, hpassed, hqueue]
      simp [Worker.hand]
    | @write msg hwriting =>
      obtain ⟨written, hout, hentered⟩ := h
      refine ⟨written ++ [msg], ?_, ?_⟩
      · show s.output ++ [msg.output] = (written ++ [msg]).map LogMessage.output
        rw [hout, List.map_append, List.map_singleton]
      · rw [hentered, hwriting]
        simp [Worker.hand]
    | lock hw =>
      refine h.congr rfl rfl ?_ rfl
      rcases hw with hw | hw <;> rw [hw] <;> rfl
    | goOn hw => exact h.congr rfl rfl (by rw [hw]; rfl) rfl
    | stop hw => exact h.congr rfl rfl (by rw [hw]; rfl) rfl
    | drain hw => exact h.congr rfl rfl (by rw [hw]; rfl) rfl
    | leave hw => exact h.congr rfl rfl (by rw [hw]; rfl) rfl
    | fail hw => exact h.congr rfl rfl (by rw [hw]; rfl) rfl
    | sleep hw => exact h.congr rfl rfl (by rw [hw]; rfl) rfl
    | wake hw => exact h.congr rfl rfl (by rw [hw]; rfl) rfl
    | pass hw => exact h.congr rfl rfl (by rw [hw]; rfl) rfl
    | quit hw => exact h.congr rfl rfl (by rw [hw]; rfl) rfl
  · cases hs with
    | notify => exact h.congr rfl rfl (Worker.hand_wake _) rfl
    | _ => exact h.congr rfl rfl rfl rfl

/-- The worker leaves only after the flag has gone down. -/
structure Flagged (s : State) : Prop where
  flag : s.destructor = .notBegun ∨ s.destructor = .setting → s.running = true
  leaving : s.worker = .draining ∨ s.worker = .returned → s.running = false

@[grind =] lemma Worker.wake_eq_draining (x : Worker) : x.wake = .draining ↔ x = .draining := by
  cases x <;> simp [wake]

@[grind =] lemma Worker.wake_eq_returned (x : Worker) : x.wake = .returned ↔ x = .returned := by
  cases x <;> simp [wake]

lemma Flagged.step (h : Flagged s) (hs : Step s s') : Flagged s' := by
  obtain ⟨hflag, hleaving⟩ := h
  rcases hs with ⟨c, hs⟩ | hs | hs
  · refine ⟨?_, ?_⟩
    · cases hs <;> exact hflag
    · cases hs <;> simp only [State.setCaller] at * <;> grind
  · refine ⟨?_, ?_⟩
    · cases hs <;> exact hflag
    · cases hs <;> grind
  · refine ⟨?_, ?_⟩
    · cases hs <;> grind
    · cases hs <;> grind

lemma flagged_initial : Flagged .initial :=
  ⟨fun _ => rfl, by simp [State.initial]⟩

section Calls

/-- What a call has pushed. -/
def Caller.pushed : Caller → Option LogMessage
  | .notifying msg | .returned msg => some msg
  | _ => none

/-- The messages that have entered the queue are those of the calls that are past their push, one
for each call. -/
def OncePerCall (s : State) : Prop := ∃ calls : List ℕ, calls.Nodup ∧
  (∀ c, c ∈ calls ↔ (s.caller c).pushed.isSome = true) ∧
  s.entered.map some = calls.map (fun c => (s.caller c).pushed)

lemma OncePerCall.congr (h : OncePerCall s) (hc : ∀ c, (s'.caller c).pushed = (s.caller c).pushed)
    (he : s'.entered = s.entered) : OncePerCall s' := by
  obtain ⟨calls, hnodup, hmem, hentered⟩ := h
  refine ⟨calls, hnodup, fun c => by rw [hc, hmem], ?_⟩
  simp only [hc, he, hentered]

lemma pushed_update {call : ℕ → Caller} {c : ℕ} {x : Caller} (hx : x.pushed = (call c).pushed)
    (d : ℕ) : (Function.update call c x d).pushed = (call d).pushed := by
  by_cases hd : d = c
  · rw [hd, Function.update_self, hx]
  · rw [Function.update_of_ne hd]

lemma OncePerCall.push {c : ℕ} {msg : LogMessage} {q : List LogMessage} (h : OncePerCall s)
    (hc : s.caller c = .inside msg) :
    OncePerCall { s.setCaller c (.notifying msg) with
      owner := none, queue := q, entered := s.entered ++ [msg] } := by
  obtain ⟨calls, hnodup, hmem, hentered⟩ := h
  have hnew : c ∉ calls := by
    rw [hmem, hc]
    exact Bool.false_ne_true
  have hothers : ∀ d ≠ c, Function.update s.caller c (.notifying msg) d = s.caller d :=
    fun d hd => Function.update_of_ne hd _ _
  refine ⟨calls ++ [c], ?_, fun d => ?_, ?_⟩
  · exact List.nodup_append.mpr ⟨hnodup, by simp, by grind⟩
  · show d ∈ calls ++ [c] ↔ (Function.update s.caller c (.notifying msg) d).pushed.isSome = true
    by_cases hd : d = c
    · simp [hd, Caller.pushed]
    · rw [hothers d hd, ← hmem]
      simp [hd]
  · show (s.entered ++ [msg]).map some = (calls ++ [c]).map fun d =>
      (Function.update s.caller c (.notifying msg) d).pushed
    rw [List.map_append, List.map_append, hentered]
    congr 1
    · apply List.map_congr_left
      intro d hd
      rw [hothers d (ne_of_mem_of_not_mem hd hnew)]
    · simp [Caller.pushed]

lemma OncePerCall.step (h : OncePerCall s) (hs : Step s s') : OncePerCall s' := by
  rcases hs with ⟨c, hs⟩ | hs | hs
  · cases hs with
    | push hc => exact h.push hc
    | call _ _ _ _ _ hc => exact h.congr (pushed_update (by rw [hc]; rfl)) rfl
    | fail hc => exact h.congr (pushed_update (by rw [hc]; rfl)) rfl
    | lock hc => exact h.congr (pushed_update (by rw [hc]; rfl)) rfl
    | throw hc => exact h.congr (pushed_update (by rw [hc]; rfl)) rfl
    | notify hc => exact h.congr (pushed_update (by rw [hc]; rfl)) rfl
  · cases hs <;> exact h.congr (fun _ => rfl) rfl
  · cases hs <;> exact h.congr (fun _ => rfl) rfl

lemma oncePerCall_run (h : Run .initial s) : OncePerCall s := by
  induction h with
  | refl => exact ⟨[], List.nodup_nil, by simp [State.initial, Caller.pushed], rfl⟩
  | tail _ hs ih => exact ih.step hs

lemma OncePerCall.mem {c : ℕ} {msg : LogMessage} (h : OncePerCall s)
    (hc : (s.caller c).pushed = some msg) : msg ∈ s.entered := by
  obtain ⟨calls, -, hmem, hentered⟩ := h
  have hcall : c ∈ calls := by
    rw [hmem, hc]
    rfl
  have hsome : some msg ∈ s.entered.map some := by
    rw [hentered]
    exact List.mem_map.mpr ⟨c, hcall, hc⟩
  simpa using hsome

end Calls

lemma inv_run (h : Ordered s₀ ∧ Flagged s₀) (hr : Run s₀ s) : Ordered s ∧ Flagged s := by
  induction hr with
  | refl => exact h
  | tail _ hs ih => exact ⟨ih.1.step hs, ih.2.step hs⟩

lemma Step.entered (hs : Step s s') : s.entered <+: s'.entered := by
  rcases hs with ⟨c, hs⟩ | hs | hs
  · cases hs with
    | push => exact List.prefix_append _ _
    | _ => exact List.prefix_rfl
  · cases hs <;> exact List.prefix_rfl
  · cases hs <;> exact List.prefix_rfl

lemma Step.output_of_returned (hs : Step s s') (h : s.worker = .returned) :
    s'.output = s.output := by
  rcases hs with ⟨c, hs⟩ | hs | hs
  · cases hs <;> rfl
  · cases hs with
    | write hw => cases hw.symm.trans h
    | _ => rfl
  · cases hs <;> rfl

lemma Step.all_written (hs : Step s s') (h : Ordered s) (hw : s.worker ≠ .returned)
    (hreturned : s'.worker = .returned) :
    s'.entered = s.entered ∧ s'.output = s.entered.map LogMessage.output := by
  have hdone : s.worker.hand = [] → s.queue = [] → s.output = s.entered.map LogMessage.output := by
    intro hhand hqueue
    obtain ⟨written, hout, hentered⟩ := h
    rw [hout, hentered, hhand, hqueue, List.append_nil, List.append_nil]
  rcases hs with ⟨c, hs⟩ | hs | hs
  · cases hs with
    | notify => exact (hw ((Worker.wake_eq_returned _).mp hreturned)).elim
    | _ => exact (hw hreturned).elim
  · cases hs with
    | leave hdraining hqueue => exact ⟨rfl, hdone (by rw [hdraining]; rfl) hqueue⟩
    | quit hpassed _ hqueue => exact ⟨rfl, hdone (by rw [hpassed]; rfl) hqueue⟩
    | _ => cases hreturned
  · cases hs with
    | notify => exact (hw ((Worker.wake_eq_returned _).mp hreturned)).elim
    | _ => exact (hw hreturned).elim

/-- What has been pushed before is written when the worker returns. -/
def Drained (s₀ s : State) : Prop := s₀.entered <+: s.entered ∧
  (s.worker = .returned → s₀.entered.map LogMessage.output <+: s.output)

lemma Drained.step (h : Drained s₀ s) (ho : Ordered s) (hs : Step s s') : Drained s₀ s' := by
  obtain ⟨hentered, hreturned⟩ := h
  refine ⟨hentered.trans hs.entered, fun hw' => ?_⟩
  by_cases hw : s.worker = .returned
  · rw [hs.output_of_returned hw]
    exact hreturned hw
  · rw [(hs.all_written ho hw hw').2]
    exact hentered.map _

lemma Drained.run (h : Drained s₀ s₀) (hinv : Ordered s₀ ∧ Flagged s₀) (hr : Run s₀ s) :
    Drained s₀ s := by
  induction hr with
  | refl => exact h
  | tail hr hs ih => exact ih.step (inv_run hinv hr).1 hs

def levelNames : List (LogLevel × Bytes) :=
  [(.INFO, bytes "INFO "), (.WARN, bytes "WARN "), (.ERR, bytes "ERROR"), (.DEBUG, bytes "DEBUG")]

/-- What is to be seen of a message: one line `[time] [level] [file:line] text`, of an error on
`cerr`, of any other on `cout`. -/
structure Shows (msg : LogMessage) (out : Stream × Bytes) : Prop where
  stream : out.1 = .cerr ↔ msg.level = .ERR
  line : ∃ name, (msg.level, name) ∈ levelNames ∧ out.2 = bytes "[" ++ msg.timestamp ++
    bytes "] [" ++ name ++ bytes "] [" ++ msg.file ++ bytes ":" ++ integer msg.line ++ bytes "] " ++
    msg.message ++ bytes "\n"

lemma shows_output (msg : LogMessage) : Shows msg msg.output := by
  refine ⟨?_, msg.level.str, ?_, rfl⟩
  · rw [LogMessage.output]
    split <;> simp [*]
  · cases msg.level <;> simp [levelNames, LogLevel.str]

lemma Ordered.shown (h : Ordered s) : ∃ written, written <+: s.entered ∧
    written.length = s.output.length ∧ List.Forall₂ Shows written s.output := by
  obtain ⟨written, hout, hentered⟩ := h
  refine ⟨written, ?_, by rw [hout, List.length_map], ?_⟩
  · rw [hentered, List.append_assoc]
    exact List.prefix_append _ _
  · rw [hout, List.forall₂_map_right_iff]
    exact List.forall₂_same.mpr fun msg _ => shows_output msg

/-- What has been written shows a beginning of the messages that have been pushed, one by one in
their order; each call has pushed its message once; and when `process_queue` returns, all messages
are written that had been pushed before `~Logger` began, and so those of all calls that had
returned. -/
theorem logged_in_order (s₀ s : State) (h₀ : Run .initial s₀) (hbegun : s₀.destructor = .notBegun)
    (h : Run s₀ s) : OncePerCall s ∧
      ∃ written, written <+: s.entered ∧ List.Forall₂ Shows written s.output ∧
        (s.worker = .returned → s₀.entered <+: written ∧
          ∀ c msg, s₀.caller c = .returned msg → msg ∈ written) := by
  have hinv := inv_run ⟨⟨[], rfl, rfl⟩, flagged_initial⟩ h₀
  have hdrained : Drained s₀ s₀ := by
    refine ⟨List.prefix_rfl, fun hw => ?_⟩
    have hstopped := hinv.2.leaving (Or.inr hw)
    rw [hinv.2.flag (Or.inl hbegun)] at hstopped
    cases hstopped
  obtain ⟨hentered, hreturned⟩ := hdrained.run hinv h
  obtain ⟨written, hprefix, hlength, hshown⟩ := (inv_run hinv h).1.shown
  refine ⟨oncePerCall_run (h₀.trans h), written, hprefix, hshown, fun hw => ?_⟩
  have hall : s₀.entered <+: written := by
    apply List.prefix_of_prefix_length_le hentered hprefix
    rw [hlength, ← List.length_map LogMessage.output]
    exact (hreturned hw).length_le
  refine ⟨hall, fun c msg hc => hall.subset ?_⟩
  exact (oncePerCall_run h₀).mem (by rw [hc]; rfl)

/-- Two messages are logged while the worker waits, an error second. -/
theorem logged_in_order_two : ∃ (s₀ s : State) (msg₁ msg₂ : LogMessage), s₀.entered = [msg₁, msg₂] ∧
    s.worker = .returned ∧
    s.output = [(.cout, bytes "[noon] [INFO ] [main.cpp:1] up\n"),
      (.cerr, bytes "[noon] [ERROR] [server.cpp:7] down\n")] ∧
    OncePerCall s ∧ ∃ written, written <+: s.entered ∧ List.Forall₂ Shows written s.output ∧
      s₀.entered <+: written := by
  have h₀ : Run .initial _ := .head (.work (.goOn rfl rfl)) <|
    .head (.call 0 (.call .INFO (bytes "src/main.cpp") 1 (bytes "up") (bytes "noon") rfl)) <|
    .head (.call 1 (.call .ERR (bytes "src/server/server.cpp") 7 (bytes "down")
      (bytes "noon") rfl)) <|
    .head (.call 0 (.lock rfl rfl)) <| .head (.call 0 (.push rfl)) <|
    .head (.call 1 (.lock rfl rfl)) <| .head (.call 0 (.notify rfl)) <|
    .head (.call 1 (.push rfl)) <| .head (.call 1 (.notify rfl)) .refl
  obtain ⟨honce, written, hprefix, hshown, hreturned⟩ := logged_in_order _ _ h₀ rfl
    (.head (.finish (.begin rfl)) <| .head (.finish (.set rfl)) <|
    .head (.work (.lock (.inl rfl) rfl)) <| .head (.work (.pass rfl rfl)) <|
    .head (.work (.take rfl rfl)) <| .head (.work (.write rfl)) <| .head (.work (.stop rfl rfl)) <|
    .head (.work (.drain rfl (List.cons_ne_nil _ _))) <|
    .head (.work (.lock (.inl rfl) rfl)) <| .head (.work (.pass rfl rfl)) <|
    .head (.work (.take rfl rfl)) <| .head (.work (.write rfl)) <| .head (.work (.stop rfl rfl)) <|
    .head (.work (.leave rfl rfl)) .refl)
  refine ⟨_, _, _, _, rfl, rfl, ?_, honce, written, hprefix, hshown, (hreturned rfl).1⟩
  decide +kernel

end Mtfss.Logger
