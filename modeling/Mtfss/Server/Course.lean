import Mtfss.Common.Transfer
import Mtfss.Server.FileWork

/-! When a request has done what it was asked, and what its answer tells about that. -/

namespace Mtfss

open Effects

namespace Call

/-- The calls by which a file is renamed or a record is changed. -/
def isMark : Call → Bool
  | .fsRename _ _ | .addFile _ _ _ _ | .removeFile _ _ => true
  | _ => false

/-- The calls that neither come to the connection nor change files or records. -/
def isPrelude (o : Call) : Bool := !o.isConn && !o.isMark

end Call

/-- How far a request has come with its task: its connection, what it has written to the file that
it has opened, the last path that it has found free since it took its locks, and whether it has done
what it was asked. -/
structure Course where
  conn : Conn
  data : Bytes
  absent : Option Bytes
  made : Bool
  /-- a log has failed after that -/
  marred : Bool

namespace Course

def start (conn : Conn) : Course := ⟨conn, [], none, false, false⟩

/-- Writes do not fail. -/
def next (task : Option Change) : Next Call Answer Course
  | .recv count, t, r => (t.conn.recv count r).map (fun c => { t with conn := c })
  | .send data count, t, r => (t.conn.send data count r).map (fun c => { t with conn := c })
  | .closesocket, t, _ => some { t with conn := t.conn.close }
  | .pathAppend p q, t, r =>
    match r with
    | .ok x => answer x (Paths.append p q) t
    | .error _ => some t
  | .lock _, t, _ | .lockBoth _ _, t, _ | .fsRename _ _, t, _ => some { t with absent := none }
  | .openOut _, t, _ => some { t with data := [], absent := none }
  | .write _ data, t, r => if r = none then some { t with data := t.data ++ data } else none
  | .fsExists p, t, r =>
    match r with
    | .ok false => some { t with absent := some p }
    | _ => some t
  | .removeFile _ f, t, r => some { t with made := t.made || (r.isOk && task == some (.drop f)) }
  | .addFile _ _ _ _, t, r => some { t with made := t.made || r.isOk }
  | .log, t, r => some { t with marred := t.marred || (t.made && !r.isOk) }
  | _, t, _ => some t

/-- A file is renamed to a path that has been found free, and an upload records a file in which
there is all that it was to receive from the connection `base`. -/
def Fits (base : Conn) (ch : Change) : Call → Course → Prop
  | .fsRename _ q, t => t.absent = some q
  | .removeFile _ _, t => t.made = false
  | .addFile _ _ _ _, t => t.made = false ∧ ∀ f n, ch = .put f n →
      t.data = base.input.take n.toNat ∧ n.toNat ≤ base.input.length
  | _, _ => True

def Allows (base : Conn) (task : Option Change) (o : Call) (t : Course) : Prop :=
  ∀ ch, task = some ch → Fits base ch o t

abbrev Goes {α : Type} (base : Conn) (task : Option Change) (p : Code α)
    (Q : Except Exn α → Course → Prop) (t : Course) : Prop :=
  Safe (next task) (Allows base task) p Q t

/-- Nothing has been done, or there was a failure after it. -/
def Unsaid (t : Course) : Prop := t.made = true → t.marred = true

/-- How an operation ends: `skip` is the excuse for a success that has done nothing. -/
def Ends (skip : Prop) (r : Except Exn Bool) (t : Course) : Prop :=
  (r = .ok true → t.made = true ∨ skip) ∧ (r ≠ .ok true → t.Unsaid)

def wired (task : Option Change) : Wired (next task) where
  conn := Course.conn
  put t c := { t with conn := c }
  conn_put _ _ := rfl
  put_put _ _ _ := rfl
  put_conn _ := rfl
  recv _ _ _ := rfl
  send _ _ _ _ := rfl

section Rules

variable {α β : Type} {base : Conn} {task : Option Change} {t t' : Course} {skip : Prop}

lemma allows_unmarked {o : Call} (ho : o.isMark = false) : Allows base task o t := by
  intro ch _
  cases o <;> trivial

lemma next_write (p bs : Bytes) :
    next task (.write p bs) t none = some { t with data := t.data ++ bs } := by
  simp [next]

lemma next_faithful {o : Call} {r : Answer o} (h : next task o t r = some t') : o.Faithful r := by
  cases o with
  | pathAppend p q =>
    rintro x rfl
    exact (Rules.answer_eq_some.mp h).1
  | _ => trivial

lemma next_unmarked {o : Call} {r : Answer o} (ho : o.isMark = false)
    (h : next task o t r = some t') : t'.made = t.made ∧ (t.marred = true → t'.marred = true) ∧
      (t.made = false → t'.marred = t.marred) := by
  cases o with
  | pathAppend p q =>
    rcases r with e | x
    · cases h
      exact ⟨rfl, id, fun _ => rfl⟩
    · obtain ⟨-, rfl⟩ := Rules.answer_eq_some.mp h
      exact ⟨rfl, id, fun _ => rfl⟩
  | recv count =>
    obtain ⟨c, -, rfl⟩ := Option.map_eq_some_iff.mp h
    exact ⟨rfl, id, fun _ => rfl⟩
  | send data count =>
    obtain ⟨c, -, rfl⟩ := Option.map_eq_some_iff.mp h
    exact ⟨rfl, id, fun _ => rfl⟩
  | write p data =>
    obtain ⟨-, h⟩ := Option.ite_none_right_eq_some.mp h
    cases h
    exact ⟨rfl, id, fun _ => rfl⟩
  | fsExists p =>
    rcases r with e | _ | _ <;> cases h <;> exact ⟨rfl, id, fun _ => rfl⟩
  | log =>
    cases h
    refine ⟨rfl, fun hm => ?_, fun hm => ?_⟩
    · simp [hm]
    · simp [hm]
  | fsRename p q => cases ho
  | addFile dir f n time => cases ho
  | removeFile dir f => cases ho
  | _ =>
    cases h
    exact ⟨rfl, id, fun _ => rfl⟩

lemma next_conn {o : Call} {r : Answer o} (ho : o.isConn = false) (h : next task o t r = some t') :
    t'.conn = t.conn := by
  cases o with
  | pathAppend p q =>
    rcases r with e | x
    · cases h
      rfl
    · obtain ⟨-, rfl⟩ := Rules.answer_eq_some.mp h
      rfl
  | recv count => cases ho
  | send data count => cases ho
  | closesocket => cases ho
  | write p data =>
    obtain ⟨-, h⟩ := Option.ite_none_right_eq_some.mp h
    cases h
    rfl
  | fsExists p => rcases r with e | _ | _ <;> cases h <;> rfl
  | _ =>
    cases h
    rfl

lemma next_made_mono {o : Call} {r : Answer o} (h : next task o t r = some t')
    (hm : t.made = true) : t'.made = true := by
  by_cases ho : o.isMark = false
  · rw [(next_unmarked ho h).1, hm]
  cases o with
  | fsRename p q =>
    cases h
    exact hm
  | addFile dir f n time =>
    cases h
    simp [hm]
  | removeFile dir f =>
    cases h
    simp [hm]
  | _ => exact (ho rfl).elim

/-- An upload is done when all has come that it was to receive. -/
lemma arrived_of_made {f : Bytes} {n : UInt64} {o : Call} {r : Answer o} (ha : Allows base task o t)
    (h : next task o t r = some t') (htask : task = some (.put f n)) (hbefore : t.made = false)
    (hm : t'.made = true) : n.toNat ≤ base.input.length := by
  by_cases ho : o.isMark = false
  · rw [(next_unmarked ho h).1, hbefore] at hm
    cases hm
  cases o with
  | fsRename p q =>
    cases h
    rw [hbefore] at hm
    cases hm
  | addFile dir g m time => exact ((ha _ htask).2 f n rfl).2
  | removeFile dir g =>
    cases h
    simp [hbefore, htask] at hm
  | _ => exact (ho rfl).elim

/-- What the file has in it changes when it is opened and when it is written. -/
lemma next_data {o : Call} {r : Answer o} (hopen : ∀ p, o ≠ .openOut p)
    (hwrite : ∀ p bs, o ≠ .write p bs) (h : next task o t r = some t') : t'.data = t.data := by
  cases o with
  | openOut p => exact (hopen p rfl).elim
  | write p bs => exact (hwrite p bs rfl).elim
  | pathAppend p q =>
    rcases r with e | x
    · cases h
      rfl
    · obtain ⟨-, rfl⟩ := Rules.answer_eq_some.mp h
      rfl
  | recv count =>
    obtain ⟨c, -, rfl⟩ := Option.map_eq_some_iff.mp h
    rfl
  | send data count =>
    obtain ⟨c, -, rfl⟩ := Option.map_eq_some_iff.mp h
    rfl
  | fsExists p => rcases r with e | _ | _ <;> cases h <;> rfl
  | _ =>
    cases h
    rfl

/-- A path is found free, or has been found free since the locks were taken and was left alone. -/
lemma next_absent {o : Call} {r : Answer o} {p : Bytes} (h : next task o t r = some t')
    (hp : t'.absent = some p) (hexists : ∀ q, o ≠ .fsExists q) : t.absent = some p ∧
      (∀ q, o ≠ .openOut q) ∧ (∀ q q', o ≠ .fsRename q q') ∧ (∀ key, o ≠ .lock key) ∧
        ∀ key key', o ≠ .lockBoth key key' := by
  cases o with
  | fsExists q => exact (hexists q rfl).elim
  | pathAppend p q =>
    rcases r with e | x
    · cases h
      simpa using hp
    · obtain ⟨-, rfl⟩ := Rules.answer_eq_some.mp h
      simpa using hp
  | recv count =>
    obtain ⟨c, -, rfl⟩ := Option.map_eq_some_iff.mp h
    simpa using hp
  | send data count =>
    obtain ⟨c, -, rfl⟩ := Option.map_eq_some_iff.mp h
    simpa using hp
  | write p data =>
    obtain ⟨-, h⟩ := Option.ite_none_right_eq_some.mp h
    cases h
    simpa using hp
  | openOut q =>
    cases h
    cases hp
  | fsRename q q' =>
    cases h
    cases hp
  | lock key =>
    cases h
    cases hp
  | lockBoth key key' =>
    cases h
    cases hp
  | _ =>
    cases h
    simpa using hp

/-- The machine takes the course along, when no write fails. -/
lemma exists_next {env : Env} {o : Call} {r : Answer o} {l l' : Local} {s s' : Store}
    (task : Option Change) (h : Mtfss.next env o (l, s) r = some (l', s')) (hconn : t.conn = l.conn)
    (hwrite : ∀ p bs, o = .write p bs → o.failed r = false) :
    ∃ t', next task o t r = some t' ∧ t'.conn = l'.conn := by
  cases o with
  | recv count =>
    obtain ⟨c, hc, hpair⟩ := Option.map_eq_some_iff.mp h
    cases hpair
    exact ⟨{ t with conn := c }, by rw [next, hconn, hc]; rfl, rfl⟩
  | send data count =>
    obtain ⟨c, hc, hpair⟩ := Option.map_eq_some_iff.mp h
    cases hpair
    exact ⟨{ t with conn := c }, by rw [next, hconn, hc]; rfl, rfl⟩
  | closesocket =>
    cases h
    exact ⟨_, rfl, congrArg Conn.close hconn⟩
  | pathAppend p q =>
    refine ⟨t, ?_, hconn.trans (Mtfss.next_conn h rfl).symm⟩
    rcases r with e | x
    · rfl
    · exact Rules.answer_eq_some.mpr ⟨Mtfss.next_faithful h x rfl, rfl⟩
  | write p bs =>
    have hok := hwrite p bs rfl
    cases r with
    | none => exact ⟨_, next_write p bs, hconn.trans (Mtfss.next_conn h rfl).symm⟩
    | some n => cases hok
  | fsExists p =>
    have hsame := hconn.trans (Mtfss.next_conn h rfl).symm
    rcases r with e | _ | _ <;> exact ⟨_, rfl, hsame⟩
  | _ => exact ⟨_, rfl, hconn.trans (Mtfss.next_conn h rfl).symm⟩

lemma Unsaid.next {o : Call} {r : Answer o} (h : t.Unsaid) (ho : o.isMark = false)
    (hr : next task o t r = some t') : t'.Unsaid := by
  obtain ⟨hmade, hmarred, -⟩ := next_unmarked ho hr
  intro hm
  exact hmarred (h (hmade ▸ hm))

lemma unsaid_of_unmade (h : t.made = false) : t.Unsaid := by
  intro hm
  rw [h] at hm
  cases hm

abbrev Unmarked {α : Type} (p : Code α) : Prop := p.Calls Call.Faithful (fun o => o.isMark = false)

lemma unmarked_of_passive {p : Code α} (h : Passive p) : Unmarked p := by
  refine h.mono fun o ho => ?_
  cases o <;> first | rfl | cases ho

lemma unmarked_of_within {p : Code α} (h : Within [] [] p) : Unmarked p :=
  unmarked_of_passive (passive_of_within h)

lemma unmarked_call {o : Call} (ho : o.isMark = false) : Unmarked (.op o .pure) :=
  ⟨ho, fun _ _ => trivial⟩

lemma unmarked_throwing {o : Call} {k : Answer o → Except Exn α} (ho : o.isMark = false) :
    Unmarked (.op o fun r => .ofExcept (k r)) :=
  ⟨ho, fun _ _ => Prog.calls_ofExcept _⟩

/-- What does not do the task leaves it as it is. -/
lemma goes_unmarked {p : Code α} (hp : Unmarked p) (h : t.Unsaid) :
    Goes base task p (fun _ t' => t'.Unsaid) t := by
  induction p generalizing t with
  | pure a => exact h
  | throw e => exact h
  | op o k ih =>
    refine ⟨allows_unmarked hp.1, fun r t' hr => ?_⟩
    exact ih r (hp.2 r (next_faithful hr)) (h.next hp.1 hr)

lemma goes_then {p : Code α} {f : α → Code Bool} (hp : Unmarked p) (h : t.Unsaid)
    (hf : ∀ a t', Unsaid t' → Goes base task (f a) (Ends skip) t') :
    Goes base task (p.bind f) (Ends skip) t := by
  refine safe_bind_of (goes_unmarked hp h) ?_
  rintro (e | a) t' ht
  · exact ⟨nofun, fun _ => ht⟩
  · exact hf a t' ht

lemma ends_false (h : t.Unsaid) : Ends skip (.ok false) t := ⟨nofun, fun _ => h⟩

lemma goes_onThrow {p : Code Bool} {cleanup : Code Unit} (hp : Goes base task p (Ends skip) t)
    (hc : Unmarked cleanup) : Goes base task (p.onThrow cleanup) (Ends skip) t := by
  refine safe_tryCatch.mpr (safe_mono hp ?_)
  rintro (e | b) t' ht
  · refine safe_bind_of (goes_unmarked hc (ht.2 nofun)) ?_
    rintro (e' | _) t'' ht'' <;> exact ⟨nofun, fun _ => ht''⟩
  · exact ht

lemma goes_tryCatch {p : Code Bool} {h : Exn → Code Bool} (hp : Goes base task p (Ends skip) t)
    (hh : ∀ e t', Unsaid t' → Goes base task (h e) (Ends skip) t') :
    Goes base task (p.tryCatch h) (Ends skip) t := by
  refine safe_tryCatch.mpr (safe_mono hp ?_)
  rintro (e | b) t' ht
  · exact hh e t' (ht.2 nofun)
  · exact ht

/-- Nothing has come from the connection yet, and nothing has been done. -/
structure Idle (base : Conn) (t : Course) : Prop where
  conn : t.conn = base
  made : t.made = false

lemma idle_start (conn : Conn) : Idle conn (.start conn) := ⟨rfl, rfl⟩

lemma Idle.unsaid (h : Idle base t) : t.Unsaid := unsaid_of_unmade h.made

lemma Idle.next {o : Call} {r : Answer o} (h : Idle base t) (ho : o.isPrelude = true)
    (hr : next task o t r = some t') : Idle base t' := by
  obtain ⟨hconn, hmark⟩ : o.isConn = false ∧ o.isMark = false := by
    simpa [Call.isPrelude] using ho
  exact ⟨(next_conn hconn hr).trans h.conn, (next_unmarked hmark hr).1.trans h.made⟩

lemma Idle.allows {o : Call} (ho : o.isPrelude = true) : Allows base task o t := by
  refine allows_unmarked ?_
  simp only [Call.isPrelude, Bool.and_eq_true, Bool.not_eq_true'] at ho
  exact ho.2

lemma Idle.call {o : Call} {g : Answer o → Except Exn α} {f : α → Code Bool} (h : Idle base t)
    (ho : o.isPrelude = true) (hf : ∀ a t', Idle base t' → Goes base task (f a) (Ends skip) t') :
    Goes base task ((Prog.op o fun r => .ofExcept (g r)).bind f) (Ends skip) t := by
  refine ⟨Idle.allows ho, fun r t' hr => ?_⟩
  have hidle := h.next ho hr
  change Goes base task ((Prog.ofExcept (g r)).bind f) (Ends skip) t'
  cases g r with
  | error e => exact ⟨nofun, fun _ => hidle.unsaid⟩
  | ok a => exact hf a t' hidle

lemma Idle.alloc {n : ℕ} {f : Unit → Code Bool} (h : Idle base t)
    (hf : Goes base task (f ()) (Ends skip) t) :
    Goes base task ((Sys.alloc n).bind f) (Ends skip) t := by
  refine ⟨allows_unmarked rfl, ?_⟩
  rintro (e | _) _ ⟨⟩
  · exact ⟨nofun, fun _ => h.unsaid⟩
  · exact hf

lemma Idle.pathAppend {p q : Bytes} {f : Bytes → Code Bool} (h : Idle base t)
    (hf : ∀ t', Idle base t' → Goes base task (f (Paths.append p q)) (Ends skip) t') :
    Goes base task ((Sys.pathAppend p q).bind f) (Ends skip) t := by
  refine ⟨Idle.allows rfl, fun r t' hr => ?_⟩
  have hidle := h.next rfl hr
  rcases r with e | x
  · exact ⟨nofun, fun _ => hidle.unsaid⟩
  · obtain ⟨rfl, -⟩ := Rules.answer_eq_some.mp hr
    exact hf t' hidle

end Rules

section Operations

open FileManager

variable {base : Conn} {task : Option Change} {t : Course} {skip : Prop} {user f g p q : Bytes}

lemma goes_recvAll {n : ℕ} (hn : n < 2 ^ 31) :
    Goes base task (recvAll n) (fun r t' => t' = { t with conn := t.conn.skip n } ∧
      (r = .ok (some (t.conn.input.take n)) ∧ n ≤ t.conn.input.length ∨ r = .ok none)) t := by
  have hrecv : Safe (next task) (fun _ _ => True) (recvAll n) _ t :=
    safe_recvAll_skip (wired task) hn
  refine safe_mono (safe_allow_of_calls hrecv (C := fun o => o.isMark = false)
    (calls_recvAll (fun _ => rfl) n) fun o t ho => allows_unmarked ho) ?_
  rintro r _ ⟨rfl, hr | ⟨hr, -⟩⟩
  · exact ⟨rfl, Or.inl hr⟩
  · exact ⟨rfl, Or.inr hr⟩

/-- The file has in it what has come, unless the connection is lost. -/
lemma goes_receiveLoop {fuel n k : ℕ} (hfuel : n ≤ fuel) (hconn : t.conn = base.skip k)
    (hdata : t.data = base.input.take k) (hk : k ≤ base.input.length) (hmade : t.made = false) :
    Goes base task (receiveLoop p fuel n true) (fun r t' => ∃ b, r = .ok b ∧ t'.made = false ∧
      (b = true → t'.data = base.input.take (k + n) ∧ k + n ≤ base.input.length)) t := by
  induction fuel generalizing n k t with
  | zero =>
    obtain rfl : n = 0 := by omega
    exact ⟨true, rfl, hmade, fun _ => ⟨hdata, hk⟩⟩
  | succ fuel ih =>
    rw [receiveLoop]
    split
    · rename_i hpos
      have hchunk := chunk_pos hpos
      have hle : min TRANSFER_BUFFER_SIZE n ≤ n := Nat.min_le_right _ _
      refine safe_bind_of (goes_recvAll (chunk_small n)) ?_
      rintro _ _ ⟨rfl, ⟨rfl, hlen⟩ | rfl⟩
      swap
      · exact ⟨false, rfl, hmade, by rintro ⟨⟩⟩
      rw [hconn, Conn.skip_input] at hlen
      rw [List.length_drop] at hlen
      refine ⟨allows_unmarked rfl, fun r t' hr => ?_⟩
      obtain ⟨rfl, hr⟩ := Option.ite_none_right_eq_some.mp hr
      cases hr
      have hrest : k + n = k + min TRANSFER_BUFFER_SIZE n + (n - min TRANSFER_BUFFER_SIZE n) := by
        omega
      rw [hrest]
      refine ih (by omega) ?_ ?_ (by omega) hmade
      · change t.conn.skip _ = _
        rw [hconn, Conn.skip_skip]
      · change t.data ++ t.conn.input.take _ = _
        rw [hdata, hconn, Conn.skip_input, List.take_add]
    · obtain rfl : n = 0 := by omega
      exact ⟨true, rfl, hmade, fun _ => ⟨hdata, hk⟩⟩

/-- What follows the last change of the index leads to a success. -/
lemma goes_leave {key : Bytes} (h : t.made = true) :
    Goes base task (do
      Sys.unlock key
      Sys.releaseLockRef key
      pure true) (Ends skip) t := by
  refine ⟨allows_unmarked rfl, ?_⟩
  rintro _ _ ⟨⟩
  refine ⟨allows_unmarked rfl, ?_⟩
  rintro _ _ ⟨⟩
  exact ⟨fun _ => Or.inl h, fun hr => (hr rfl).elim⟩

lemma goes_saveLocked {size : UInt64} (htask : task = some (.put f size)) (h : Idle base t) :
    Goes base task (saveLocked user f p size) (Ends skip) t := by
  refine ⟨allows_unmarked rfl, ?_⟩
  rintro (_ | _) _ ⟨⟩
  · refine goes_then (p := Sys.log) (unmarked_of_within within_log) h.unsaid fun _ t₁ h₁ => ?_
    refine goes_then (unmarked_of_within (within_discardData size)) h₁ fun _ t₂ h₂ => ?_
    refine goes_then (p := Sys.unlock _) (unmarked_call rfl) h₂ fun _ t₃ h₃ => ?_
    exact goes_then (p := Sys.releaseLockRef _) (unmarked_call rfl) h₃ fun _ t₄ h₄ => ends_false h₄
  have hopened : Idle base { t with data := [], absent := none } := ⟨h.conn, h.made⟩
  refine hopened.alloc ?_
  refine safe_bind_of (goes_receiveLoop (k := 0) le_rfl ?_ rfl (Nat.zero_le _) hopened.made) ?_
  · rw [Conn.skip_zero]
    exact h.conn
  rintro _ t₁ ⟨b, rfl, hmade, hb⟩
  cases b with
  | false =>
    have h₁ : t₁.Unsaid := unsaid_of_unmade hmade
    refine goes_then (p := Sys.log) (unmarked_of_within within_log) h₁ fun _ t₂ h₂ => ?_
    refine goes_then (p := Sys.closeOut _) (unmarked_call rfl) h₂ fun _ t₃ h₃ => ?_
    refine goes_then (p := Sys.fsRemove _) (unmarked_throwing rfl) h₃ fun _ t₄ h₄ => ?_
    exact goes_then (p := Sys.unlock _) (unmarked_call rfl) h₄ fun _ t₅ h₅ => ends_false h₅
  | true =>
    obtain ⟨hdata, hlen⟩ := hb rfl
    rw [Nat.zero_add] at hdata hlen
    refine ⟨allows_unmarked rfl, ?_⟩
    rintro _ _ ⟨⟩
    refine ⟨allows_unmarked rfl, ?_⟩
    rintro time _ ⟨⟩
    refine ⟨fun ch hch => ⟨hmade, ?_⟩, ?_⟩
    · rintro f' n rfl
      cases htask.symm.trans hch
      exact ⟨hdata, hlen⟩
    rintro (e | _) _ ⟨⟩
    · refine ⟨nofun, fun _ => unsaid_of_unmade ?_⟩
      simp [hmade, Except.isOk, Except.toBool]
    refine ⟨allows_unmarked rfl, ?_⟩
    rintro (e | _) _ ⟨⟩
    · refine ⟨nofun, fun _ _ => ?_⟩
      simp [Except.isOk, Except.toBool]
    · refine goes_leave ?_
      simp [Except.isOk, Except.toBool]

lemma goes_discard {size : UInt64} (h : t.Unsaid) :
    Goes base task (do
      Sys.log
      discardData size
      pure false) (Ends skip) t :=
  goes_then (p := Sys.log) (unmarked_of_within within_log) h fun _ _ h₁ =>
    goes_then (unmarked_of_within (within_discardData size)) h₁ fun _ _ h₂ => ends_false h₂

lemma goes_saveFile {size : UInt64} (htask : task = some (.put f size)) (h : Idle base t) :
    Goes base task (saveFile user f size) (Ends skip) t := by
  refine goes_tryCatch ?_ fun _ t' ht' => goes_discard ht'
  refine h.pathAppend fun t₁ h₁ => ?_
  have hinto : ∀ t, Idle base t →
      Goes base task (saveInto user f (Paths.append storage user) size) (Ends skip) t := by
    intro t h
    rw [saveInto]
    split
    · exact goes_discard h.unsaid
    refine h.pathAppend fun t₂ h₂ => h₂.call rfl fun _ t₃ h₃ => ?_
    refine ⟨allows_unmarked rfl, ?_⟩
    rintro _ _ ⟨⟩
    exact goes_onThrow (goes_saveLocked htask ⟨h₃.conn, h₃.made⟩) (unmarked_call rfl)
  rw [ensureDir, Prog.bind_eq, Prog.bind_eq, Prog.bind_assoc]
  refine h₁.call rfl ?_
  rintro (_ | _) t₂ h₂
  · exact h₂.call rfl fun _ t₃ h₃ => hinto t₃ h₃
  · exact hinto t₂ h₂

lemma goes_deleteFile (htask : task = some (.drop f)) (h : Idle base t) :
    Goes base task (deleteFile user f) (Ends skip) t := by
  refine goes_tryCatch ?_ fun _ _ ht' => ends_false ht'
  rw [tryDeleteFile]
  split
  · exact ends_false h.unsaid
  refine h.pathAppend fun _ h₁ => h₁.pathAppend fun _ h₂ => h₂.call rfl fun _ t₃ h₃ => ?_
  refine ⟨allows_unmarked rfl, ?_⟩
  rintro _ _ ⟨⟩
  refine goes_onThrow ?_ (unmarked_call rfl)
  have hidle : Idle base { t₃ with absent := none } := ⟨h₃.conn, h₃.made⟩
  refine hidle.call rfl ?_
  rintro (_ | _) t₄ h₄
  · refine goes_then (p := Sys.unlock _) (unmarked_call rfl) h₄.unsaid fun _ t₅ h₅ => ?_
    exact goes_then (p := Sys.releaseLockRef _) (unmarked_call rfl) h₅ fun _ _ h₆ => ends_false h₆
  refine ⟨fun _ _ => h₄.made, ?_⟩
  rintro (e | _) _ ⟨⟩
  · refine ⟨(by rintro ⟨⟩), fun _ => unsaid_of_unmade ?_⟩
    simp [h₄.made, Except.isOk, Except.toBool]
  · refine goes_leave ?_
    simp [htask, Except.isOk, Except.toBool]

lemma goes_refuseBoth (h : t.Unsaid) : Goes base task (do
    unlockBoth p q
    releaseBoth p q
    pure false) (Ends skip) t := by
  refine goes_then (p := unlockBoth p q) ?_ h fun _ _ h₁ => ?_
  · exact .bind (unmarked_call rfl) fun _ => unmarked_call rfl
  refine goes_then (p := releaseBoth p q) ?_ h₁ fun _ _ h₂ => ends_false h₂
  exact .bind (unmarked_call rfl) fun _ => unmarked_call rfl

lemma goes_renameLocked (htask : task = some (.move f g)) (h : Idle base t) :
    Goes base task (renameLocked user f g p q) (Ends skip) t := by
  rw [renameLocked, Prog.bind_eq, Prog.bind_eq, Prog.bind_assoc]
  refine h.call rfl ?_
  rintro (_ | _) t₁ h₁
  · exact goes_refuseBoth h₁.unsaid
  refine ⟨allows_unmarked rfl, ?_⟩
  rintro (e | _ | _) _ ⟨⟩
  · exact ⟨nofun, fun _ => h₁.unsaid⟩
  swap
  · exact goes_refuseBoth h₁.unsaid
  refine ⟨fun _ _ => rfl, ?_⟩
  rintro (e | _) _ ⟨⟩
  · exact ⟨nofun, fun _ => h₁.unsaid⟩
  refine ⟨allows_unmarked rfl, ?_⟩
  rintro size _ ⟨⟩
  refine ⟨fun _ _ => h₁.made, ?_⟩
  have hkept : ∀ r : Except Exn Unit, (t₁.made || (r.isOk && task == some (.drop f))) = false := by
    intro r
    rw [h₁.made, htask]
    cases r <;> rfl
  rintro (e | _) _ ⟨⟩
  · exact ⟨nofun, fun _ => unsaid_of_unmade (hkept (.error e))⟩
  refine ⟨allows_unmarked rfl, ?_⟩
  rintro time _ ⟨⟩
  refine ⟨fun ch hch => ⟨hkept (.ok ()), ?_⟩, ?_⟩
  · rintro f' n rfl
    cases htask.symm.trans hch
  rintro (e | _) _ ⟨⟩
  · refine ⟨nofun, fun _ => unsaid_of_unmade ?_⟩
    change (_ || false) = false
    rw [Bool.or_false]
    exact hkept (.ok ())
  · refine ⟨allows_unmarked rfl, ?_⟩
    rintro _ _ ⟨⟩
    refine ⟨allows_unmarked rfl, ?_⟩
    rintro _ _ ⟨⟩
    refine ⟨allows_unmarked rfl, ?_⟩
    rintro _ _ ⟨⟩
    refine ⟨allows_unmarked rfl, ?_⟩
    rintro _ _ ⟨⟩
    exact ⟨fun _ => Or.inl (Bool.or_true _), fun hr => (hr rfl).elim⟩

lemma goes_renameFile (htask : task = some (.move f g)) (h : Idle base t) :
    Goes base task (renameFile user f g) (Ends (filePath user f = filePath user g)) t := by
  refine goes_tryCatch ?_ fun _ _ ht' => ends_false ht'
  rw [tryRenameFile]
  split
  · exact ends_false h.unsaid
  refine h.pathAppend fun _ h₁ => h₁.pathAppend fun _ h₂ => ?_
  refine h₂.pathAppend fun _ h₃ => h₃.pathAppend fun _ h₄ => ?_
  split
  · rename_i heq
    exact ⟨fun _ => Or.inr heq, fun hr => (hr rfl).elim⟩
  refine h₄.call rfl fun _ _ h₅ => h₅.call rfl fun _ t₆ h₆ => ?_
  refine ⟨allows_unmarked rfl, ?_⟩
  rintro _ _ ⟨⟩
  refine goes_onThrow (goes_renameLocked htask ⟨h₆.conn, h₆.made⟩) ?_
  exact .bind (unmarked_call rfl) fun _ => unmarked_call rfl

end Operations

section Dispatch

open Server FileManager

/-- A rename to itself. -/
def Same (user : Bytes) (ch : Change) : Prop :=
  ∃ f g, ch = .move f g ∧ filePath user f = filePath user g

def Succeeds : Except Exn (Reply × Bytes) → Prop
  | .ok (reply, _) => reply.Success
  | .error _ => False

/-- What is answered with a success has been done, and what has been done is answered with a
success, unless a log has failed in between. -/
def Answers (user : Bytes) (task : Option Change) (r : Except Exn (Reply × Bytes))
    (t : Course) : Prop :=
  ∀ ch, task = some ch → (Succeeds r → t.made = true ∨ Same user ch) ∧ (¬ Succeeds r → t.Unsaid)

variable {base : Conn} {task : Option Change} {t : Course} {skip : Prop} {user payload : Bytes}
variable {req : Request}

lemma goes_none {α : Type} {p : Code α} {Q : Except Exn α → Course → Prop} (htask : task = none)
    (h : ∀ r t, Q r t) : Goes base task p Q t := by
  subst htask
  exact safe_of_forall (fun _ _ => nofun) h

lemma goes_reply {p : Code Bool} {yes no : Reply} (hp : Goes base task p (Ends skip) t)
    (hskip : skip → ∀ ch, task = some ch → Same user ch) (hyes : yes.Success) (hno : ¬ no.Success) :
    Goes base task (do
      let reply ← (do
        if ← p then pure yes
        else pure no)
      pure (reply, user)) (Answers user task) t := by
  refine safe_bind_of (R := fun r t' => Answers user task (r.map fun reply => (reply, user)) t')
    (safe_bind_of hp ?_) ?_
  · rintro (e | _ | _) t' ht ch hch
    · exact ⟨nofun, fun _ => ht.2 nofun⟩
    · exact ⟨fun hs => (hno hs).elim, fun _ => ht.2 (by rintro ⟨⟩)⟩
    · exact ⟨fun _ => (ht.1 rfl).imp_right fun hs => hskip hs ch hch, fun hs => (hs hyes).elim⟩
  · rintro (e | reply) t' ht <;> exact ht

lemma goes_dispatch (host : Endian) (user : Bytes) (req : Request) (payload : Bytes) (conn : Conn) :
    Goes conn (taskOf req payload) (dispatch host user req payload)
      (Answers user (taskOf req payload)) (.start conn) := by
  have hrefused : ∀ {t : Course} {status body}, t.Unsaid → status ≠ StatusCode.ok ∧
      status ≠ .created →
      Answers user (taskOf req payload) (.ok (respond req.header.command status body, user)) t := by
    intro t status body ht hstatus ch _
    exact ⟨fun hs => ((not_or.mpr hstatus) (success_respond.mp hs)).elim, fun _ => ht⟩
  have hother : ∀ {p : Code (Reply × Bytes)}, taskOf req payload = none →
      Goes conn (taskOf req payload) p (Answers user (taskOf req payload)) (.start conn) := by
    intro p hnone
    refine goes_none hnone fun r t ch hch => ?_
    cases hnone.symm.trans hch
  have hidle := idle_start conn
  rw [dispatch]
  cases hcmd : CommandType.ofCode req.header.command with
  | none => exact hother (by rw [taskOf, hcmd])
  | some cmd =>
  cases cmd with
  | upload =>
    have htask : taskOf req payload = some (.put req.filename req.header.payloadLength) := by
      rw [taskOf, hcmd]
    dsimp only
    rw [upload]
    split
    · rw [Prog.bind_eq, Prog.bind_eq, Prog.bind_assoc]
      refine safe_bind_of (goes_unmarked (unmarked_of_within (within_discardData _)) hidle.unsaid)
        ?_
      rintro (e | _) t ht
      · exact fun _ _ => ⟨False.elim, fun _ => ht⟩
      · exact hrefused ht ⟨(by rintro ⟨⟩), (by rintro ⟨⟩)⟩
    · have hsave : Goes conn _ (saveFile user req.filename req.header.payloadLength)
          (Ends False) _ :=
        goes_saveFile htask hidle
      refine goes_reply hsave False.elim ?_ ?_
      · exact success_respond.mpr (Or.inr rfl)
      · simp [success_respond]
  | deleteF =>
    have htask : taskOf req payload = some (.drop req.filename) := by rw [taskOf, hcmd]
    dsimp only
    rw [delete]
    split
    · exact hrefused hidle.unsaid ⟨(by rintro ⟨⟩), (by rintro ⟨⟩)⟩
    · have hdelete : Goes conn _ (deleteFile user req.filename) (Ends False) _ :=
        goes_deleteFile htask hidle
      refine goes_reply hdelete False.elim ?_ ?_
      · exact success_respond.mpr (Or.inl rfl)
      · simp [success_respond]
  | rename =>
    have htask : taskOf req payload = some (.move req.filename payload) := by rw [taskOf, hcmd]
    dsimp only
    rw [rename]
    split
    · exact hrefused hidle.unsaid ⟨(by rintro ⟨⟩), (by rintro ⟨⟩)⟩
    · refine goes_reply (goes_renameFile htask hidle) (fun hsame ch hch => ?_) ?_ ?_
      · exact ⟨_, _, Option.some.inj (hch.symm.trans htask), hsame⟩
      · exact success_respond.mpr (Or.inl rfl)
      · simp [success_respond]
  | _ => exact hother (by rw [taskOf, hcmd])

end Dispatch

end Course

end Mtfss
