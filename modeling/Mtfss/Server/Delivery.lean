import Mtfss.Server.Changes
import Mtfss.Server.Wire

/-! A DOWNLOAD as its connection and its file see it. -/

namespace Mtfss

open Effects

/-- The answer of a read is all that it asks for and the file has there. -/
def WholeRead (rest : Bytes) (count : ℕ) (r : Bytes × Bool) : Prop :=
  r.1 = rest.take count ∧ if r.2 = true then count ≤ rest.length else rest.length ≤ count

instance (rest : Bytes) (count : ℕ) (r : Bytes × Bool) : Decidable (WholeRead rest count r) :=
  inferInstanceAs (Decidable (_ ∧ _))

/-- A request for a file: its connection, the size that the index has told it, what the file has in
it while it is locked, and how far the request is. -/
structure Delivery where
  conn : Conn
  announced : UInt64
  file : Option Bytes
  locked : Bool
  sharing : Bool
  opened : Bool

namespace Delivery

def start (conn : Conn) : Delivery := ⟨conn, 0, none, false, false, false⟩

/-- A file that is opened has the size announced, and is read to its end. The log that is written of
an exception, when the lock is given back, does not fail. -/
def next : Next Call Answer Delivery
  | .send data count, t, r => (t.conn.send data count r).map (fun c => { t with conn := c })
  | .getFileSize _ _, t, n => some { t with announced := n }
  | .lockShared _, t, () => some { t with locked := true, sharing := true }
  | .unlockShared _, t, () => some { t with sharing := false }
  | .openIn _, t, r =>
    if r = false then some t
    else if t.file.map List.length = some t.announced.toNat then some { t with opened := true }
    else none
  | .read _ offset count, t, r =>
    if WholeRead ((t.file.getD []).drop offset) count r then some t else none
  | .pathAppend p q, t, r =>
    match r with
    | .ok x => answer x (Paths.append p q) t
    | .error _ => some t
  | .log, t, r => if r.isOk = true ∨ t.sharing = true then some t else none
  | _, t, _ => some t

def Allows (user f : Bytes) : Call → Delivery → Prop
  | .recv _, _ => False
  | .closesocket, _ => False
  | .lockShared key, t => user ≠ [] ∧ isValidFilename f = true ∧ key = filePath user f ∧
      t.locked = false
  | .openIn p, t | .read p _ _, t => p = filePath user f ∧ t.sharing = true
  | .unlockShared key, _ => key = filePath user f
  | _, _ => True

def sending : Sending next where
  conn := Delivery.conn
  put t c := { t with conn := c }
  conn_put _ _ := rfl
  put_put _ _ _ := rfl
  put_conn _ := rfl
  send _ _ _ _ := rfl

abbrev Delivers {α : Type} (user f : Bytes) (p : Code α) (Q : Except Exn α → Delivery → Prop)
    (t : Delivery) : Prop := Safe next (Allows user f) p Q t

/-- Since `base` nothing has gone over the connection but the header, as far as it has been sent,
and no more bytes than announced. -/
def Within (base : Conn) (head : Bytes) (n : UInt64) (t : Delivery) : Prop :=
  t.announced = n ∧
    ∃ xs bs, t.conn = base.emit xs ∧ xs <+: head ++ bs ∧ bs.length ≤ n.toNat

/-- Since `base` the header and the file have been sent. -/
def Sent (base : Conn) (head : Bytes) (n : UInt64) (t : Delivery) : Prop :=
  t.opened = true ∧
    ∃ bs, t.file = some bs ∧ bs.length = n.toNat ∧ t.conn = base.emit (head ++ bs)

def Streamed (base : Conn) (head : Bytes) (n : UInt64) (r : Except Exn Bool)
    (t : Delivery) : Prop :=
  Within base head n t ∧ (r = .ok true → Sent base head n t)

section Rules

open FileManager

variable {α β : Type} {user f p head : Bytes} {base : Conn} {n : UInt64} {t : Delivery}

lemma allows_send (data : Bytes) (count : ℤ) (t : Delivery) : Allows user f (.send data count) t :=
  trivial

/-- A call that a delivery does not see, and that may throw. -/
lemma delivers_throwing {o : Call} {get : Answer o → Except Exn α} {g : α → Code β}
    {Q : Except Exn β → Delivery → Prop} (ha : Allows user f o t) (hnext : ∀ r, next o t r = some t)
    (herror : ∀ e, Q (.error e) t) (h : ∀ a, Delivers user f (g a) Q t) :
    Delivers user f ((Prog.op o fun r => .ofExcept (get r)).bind g) Q t := by
  refine ⟨ha, fun r t' ht => ?_⟩
  cases (hnext r).symm.trans ht
  change Delivers user f ((Prog.ofExcept (get r)).bind g) Q t
  cases get r with
  | error e => exact herror e
  | ok a => exact h a

lemma delivers_pathAppend {p q : Bytes} {g : Bytes → Code β} {Q : Except Exn β → Delivery → Prop}
    (herror : ∀ e, Q (.error e) t) (h : Delivers user f (g (Paths.append p q)) Q t) :
    Delivers user f ((Sys.pathAppend p q).bind g) Q t := by
  refine ⟨trivial, ?_⟩
  rintro (e | x) t' ht
  · cases ht
    exact herror e
  · obtain ⟨rfl, rfl⟩ := Rules.answer_eq_some.mp ht
    exact h

/-- The file is sent from the offset on. -/
lemma delivers_streamLoop {c : Bytes} {fuel offset : ℕ}
    (hfuel : (c.drop offset).length < TRANSFER_BUFFER_SIZE * fuel) (hfile : t.file = some c)
    (hsharing : t.sharing = true) :
    Delivers user f (streamLoop (filePath user f) fuel offset)
      (SendEnds sending (c.drop offset) t) t := by
  induction fuel generalizing offset t with
  | zero => omega
  | succ fuel ih =>
    refine ⟨⟨rfl, hsharing⟩, ?_⟩
    rintro ⟨buffer, good⟩ t' ht
    obtain ⟨⟨hbuffer, hgood⟩, ht⟩ := Option.ite_none_right_eq_some.mp ht
    cases ht
    rw [hfile, Option.getD_some] at hbuffer hgood
    dsimp only at hbuffer hgood
    have hsplit : c.drop offset = buffer ++ c.drop (offset + TRANSFER_BUFFER_SIZE) := by
      rw [hbuffer, ← List.drop_drop, List.take_append_drop]
    have hend : good = false → c.drop offset = buffer := by
      rintro rfl
      rw [hbuffer, List.take_of_length_le hgood]
    dsimp only [Prog.bind_pure_left]
    split
    · refine safe_bind_of (safe_sendAll sending allows_send buffer) ?_
      rintro (e | _ | _) t' ht
      · exact (SendEnds.ne_error ht).elim
      · rw [hsplit]
        exact ht.stop _
      rw [ht.sent]
      cases good with
      | false =>
        rw [hend rfl]
        exact Or.inl ⟨rfl, rfl⟩
      | true =>
        rw [hsplit]
        refine safe_mono (ih ?_ hfile hsharing) fun r t₁ ht₁ => ht₁.next
        have hle : TRANSFER_BUFFER_SIZE ≤ (c.drop offset).length := hgood
        rw [← List.drop_drop, List.length_drop]
        have hsucc : TRANSFER_BUFFER_SIZE * (fuel + 1) =
            TRANSFER_BUFFER_SIZE * fuel + TRANSFER_BUFFER_SIZE := Nat.mul_succ _ _
        omega
    · rename_i hnil
      rw [not_not] at hnil
      subst hnil
      cases good with
      | false =>
        rw [hend rfl]
        exact Or.inl ⟨rfl, by simp [sending]⟩
      | true =>
        have hle : TRANSFER_BUFFER_SIZE ≤ (c.drop offset).length := hgood
        have hnone := congrArg List.length hbuffer
        rw [List.length_take, Nat.min_eq_left hle] at hnone
        cases hnone

lemma within_of_head (hn : t.announced = n) (hconn : t.conn = base.emit head) :
    Within base head n t :=
  ⟨hn, head, [], hconn, List.prefix_append head [], Nat.zero_le _⟩

lemma Within.error (h : Within base head n t) (e : Exn) : Streamed base head n (.error e) t :=
  ⟨h, nofun⟩

lemma Within.false (h : Within base head n t) : Streamed base head n (.ok false) t := ⟨h, nofun⟩

/-- While the file is locked an exception of the log is caught. -/
lemma delivers_log {g : Unit → Code β} {Q : Except Exn β → Delivery → Prop}
    (herror : t.sharing = true → ∀ e, Q (.error e) t) (h : Delivers user f (g ()) Q t) :
    Delivers user f (Sys.log.bind g) Q t := by
  refine ⟨trivial, fun r t' ht => ?_⟩
  obtain ⟨hok, ht⟩ := Option.ite_none_right_eq_some.mp ht
  cases ht
  cases r with
  | ok _ => exact h
  | error e => exact herror (hok.resolve_left nofun) e

lemma delivers_giveUp (h : Within base head n t) :
    Delivers user f (do
      Sys.log
      Sys.unlockShared (filePath user f)
      Sys.releaseLockRef (filePath user f)
      pure false) (Streamed base head n) t := by
  refine delivers_log (fun _ => h.error) ⟨rfl, ?_⟩
  rintro _ _ ⟨⟩
  refine ⟨trivial, ?_⟩
  rintro _ _ ⟨⟩
  exact h.false

lemma delivers_streamLocked (hn : t.announced = n) (hconn : t.conn = base.emit head)
    (hsharing : t.sharing = true) :
    Delivers user f (streamLocked (filePath user f)) (Streamed base head n) t := by
  refine ⟨⟨rfl, hsharing⟩, ?_⟩
  rintro (_ | _) t' ht
  · cases ht
    exact delivers_giveUp (within_of_head hn hconn)
  obtain ⟨hlen, ht⟩ := Option.ite_none_right_eq_some.mp ht
  cases ht
  obtain ⟨c, hfile, hlen⟩ := Option.map_eq_some_iff.mp hlen
  rw [hn] at hlen
  have hopened : Within base head n { t with opened := true } := within_of_head hn hconn
  refine delivers_throwing trivial (fun _ => rfl) hopened.error fun _ => ?_
  have hfuel : (c.drop 0).length < TRANSFER_BUFFER_SIZE * (2 ^ 51 + 1) := by
    have hlt := n.toNat_lt
    rw [List.drop_zero, hlen, TRANSFER_BUFFER_SIZE]
    omega
  refine safe_bind_of (delivers_streamLoop hfuel hfile hsharing) ?_
  rw [List.drop_zero]
  rintro (e | _ | _) t' (⟨hr, rfl⟩ | ⟨hr, k, hk, rfl⟩)
  · cases hr
  · cases hr
  · cases hr
  · refine delivers_giveUp ⟨hn, head ++ c.take k, c, ?_, ?_, hlen.le⟩
    · rw [← Conn.emit_emit, ← hconn]
      rfl
    · exact (List.prefix_append_right_inj head).mpr (List.take_prefix k c)
  · have hall : t.conn.emit c = base.emit (head ++ c) := by rw [hconn, Conn.emit_emit]
    have hwithin : Within base head n (sending.put { t with opened := true } (t.conn.emit c)) :=
      ⟨hn, head ++ c, c, hall, List.prefix_rfl, hlen.le⟩
    refine delivers_log (fun _ => hwithin.error) ⟨rfl, ?_⟩
    rintro _ _ ⟨⟩
    exact ⟨hwithin, fun _ => ⟨rfl, c, hfile, hlen, hall⟩⟩
  · cases hr

/-- An exception leaves no lock. -/
def Tried (base : Conn) (head : Bytes) (n : UInt64) (r : Except Exn Bool) (t : Delivery) : Prop :=
  Streamed base head n r t ∧ ∀ e, r = .error e → t.sharing = false

lemma delivers_tryStreamFile (hu : user ≠ []) (hn : t.announced = n)
    (hconn : t.conn = base.emit head) (hlocked : t.locked = false) (hsharing : t.sharing = false) :
    Delivers user f (tryStreamFile user f) (Tried base head n) t := by
  have hbegun : Within base head n t := within_of_head hn hconn
  have herror : ∀ e, Tried base head n (.error e) t :=
    fun e => ⟨hbegun.error e, fun _ _ => hsharing⟩
  rw [tryStreamFile]
  cases hvalid : isValidFilename f with
  | false => exact ⟨hbegun.false, by simp⟩
  | true =>
    refine delivers_pathAppend herror (delivers_pathAppend herror ?_)
    refine delivers_throwing trivial (fun _ => rfl) herror fun _ => ?_
    refine ⟨⟨hu, hvalid, rfl, hlocked⟩, ?_⟩
    rintro _ _ ⟨⟩
    refine safe_tryCatch.mpr (safe_mono (delivers_streamLocked hn hconn rfl) ?_)
    rintro (e | b) t' ht
    · refine ⟨rfl, ?_⟩
      rintro _ _ ⟨⟩
      exact ⟨Within.error ht.1 e, fun _ _ => rfl⟩
    · exact ⟨ht, by simp⟩

lemma delivers_streamFileToSocket (hu : user ≠ []) (hn : t.announced = n)
    (hconn : t.conn = base.emit head) (hlocked : t.locked = false) (hsharing : t.sharing = false) :
    Delivers user f (streamFileToSocket user f)
      (fun r t' => (∃ b, r = .ok b) ∧ Streamed base head n r t') t := by
  refine safe_tryCatch.mpr (safe_mono (delivers_tryStreamFile hu hn hconn hlocked hsharing) ?_)
  rintro (e | b) t' ⟨ht, hfree⟩
  · refine delivers_log (fun hs => ?_) ⟨⟨false, rfl⟩, Within.false ht.1⟩
    rw [hfree e rfl] at hs
    cases hs
  · exact ⟨⟨b, rfl⟩, ht⟩

end Rules

section Dispatch

open Server FileManager

variable {user payload : Bytes} {req : Request} {conn : Conn} {t : Delivery}

/-- What goes out before the payload of a 200 response. -/
def okHeader (cmd : UInt32) (n : UInt64) : Bytes := wireMeta (makeResponse cmd .ok n) [] []

/-- How a request for a file ends: in the loop of the session, either with a refusal still to be
sent or with header and file sent, or with the end of the session, but never by an exception. -/
def Delivered (cmd : UInt32) (conn : Conn) : Except Exn (Reply × Bytes) → Delivery → Prop
  | .ok (.message header payload, _), t => t.conn = conn ∧ ¬ (Reply.message header payload).Success
  | .ok (.streamed, _), t => Sent conn (okHeader cmd t.announced) t.announced t
  | .ok (.ended _, _), t => Within conn (okHeader cmd t.announced) t.announced t
  | .error _, _ => False

lemma delivered_refusal {cmd : UInt32} {status : StatusCode} {body : Bytes} (hconn : t.conn = conn)
    (h : status ≠ .ok ∧ status ≠ .created) :
    Delivered cmd conn (.ok (respond cmd status body, user)) t :=
  ⟨hconn, fun hs => (success_respond.mp hs).elim h.1 h.2⟩

lemma delivers_dispatch (host : Endian)
    (hcmd : CommandType.ofCode req.header.command = some .download) (hconn : t.conn = conn)
    (hlocked : t.locked = false) (hsharing : t.sharing = false) :
    Delivers user req.filename (dispatch host user req payload)
      (Delivered req.header.command conn) t := by
  rw [dispatch, hcmd]
  dsimp only
  rw [download]
  split
  · exact delivered_refusal hconn (by decide)
  rename_i hu
  rw [FileManager.getFileSize]
  refine ⟨trivial, ?_⟩
  rintro (_ | _) _ ⟨⟩
  · exact delivered_refusal hconn (by decide)
  refine ⟨trivial, ?_⟩
  rintro n _ ⟨⟩
  by_cases hnone : n = -1
  · subst hnone
    exact delivered_refusal hconn (by decide)
  refine safe_bind_of (R := fun r t' => ∀ user', Delivered req.header.command conn
    (r.map fun reply => (reply, user')) t') ?_ ?_
  · change Delivers user req.filename (if n = -1 then _ else _) _ _
    rw [if_neg hnone]
    refine safe_bind_of (safe_sendMessageMeta (S := sending) allows_send _ _ _ _) ?_
    rintro (e | _ | _) t' ht
    · exact (SendEnds.ne_error ht).elim
    · obtain ⟨hr, -⟩ | ⟨-, k, hk, rfl⟩ := ht
      · cases hr
      intro user'
      refine ⟨rfl, (okHeader req.header.command n).take k, [], ?_, ?_, Nat.zero_le _⟩
      · rw [← hconn]
        rfl
      · exact (List.take_prefix k _).trans (List.prefix_append _ [])
    rw [ht.sent]
    have hheader : t.conn.emit (okHeader req.header.command n) =
        conn.emit (okHeader req.header.command n) := by rw [hconn]
    refine safe_bind_of (delivers_streamFileToSocket (n := n) hu rfl hheader hlocked hsharing) ?_
    rintro _ t' ⟨⟨b, rfl⟩, ht⟩
    cases b with
    | false =>
      intro user'
      change Within _ _ _ t'
      rw [ht.1.1]
      exact ht.1
    | true =>
      intro user'
      change Sent _ _ _ t'
      rw [ht.1.1]
      exact ht.2 rfl
  · rintro (e | reply) t' ht
    · exact ht user
    · exact ht user

end Dispatch

end Delivery

end Mtfss
