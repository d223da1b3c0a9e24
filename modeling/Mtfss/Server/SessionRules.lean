import Mtfss.Server.WireRules

/-! Every operation of a session leaves its connection at the end of the request. -/

namespace Mtfss

open Effects Wire

variable {w : Wire}

/-- The view after `n` more bytes have been read. -/
def Wire.ahead (w : Wire) (n : ℕ) : Wire := { w with conn := w.conn.consume (w.conn.input.take n) }

lemma Wire.ahead_zero (w : Wire) : w.ahead 0 = w := by simp [Wire.ahead]

lemma Wire.ahead_ahead (w : Wire) {m n : ℕ} (h : m ≤ n) (hn : n ≤ w.conn.input.length) :
    (w.ahead m).ahead (n - m) = w.ahead n := by
  simp only [Wire.ahead, Conn.consume_consume, Conn.consume_input, List.length_take,
    Nat.min_eq_left (h.trans hn)]
  rw [← List.take_add, Nat.add_sub_cancel' h]

def Wire.sent (w : Wire) (data : Bytes) : Wire := { w with conn := w.conn.emit data }

lemma Wire.sent_nil (w : Wire) : w.sent [] = w := by simp [Wire.sent]

lemma Wire.sent_sent (w : Wire) (xs ys : Bytes) : (w.sent xs).sent ys = w.sent (xs ++ ys) := by
  simp [Wire.sent, Conn.emit_emit]

lemma Sends.wire {p : Code Bool} {data : Bytes} {Q : Except Exn Bool → Wire → Prop}
    (hp : Sends wired p data) (heof : w.conn.eof = false) :
    wp wireNext p Q w ↔ Q (.ok true) (w.sent data) := by
  rw [hp]
  simp [heof, Wire.sent]

lemma allocates_wire : Allocates wireNext := fun n _ _ => wp_alloc n

namespace FileManager

lemma wire_discardData {Q : Except Exn Unit → Wire → Prop} {size : UInt64}
    (hlen : size.toNat ≤ w.conn.input.length) :
    wp wireNext (discardData size) Q w ↔ Q (.ok ()) (w.ahead size.toNat) :=
  wp_discardData wired allocates_wire hlen

lemma wire_receiveLoop {Q : Except Exn Bool → Wire → Prop} (path : Bytes) {fuel remaining : ℕ}
    (good : Bool) (hfuel : remaining ≤ fuel) (hlen : remaining ≤ w.conn.input.length)
    (hQ : Q (.ok true) (w.ahead remaining)) :
    wp wireNext (receiveLoop path fuel remaining good) Q w := by
  induction fuel generalizing remaining good w with
  | zero =>
    obtain rfl : remaining = 0 := by omega
    simpa [receiveLoop, ahead_zero] using hQ
  | succ fuel ih =>
    rcases Nat.eq_zero_or_pos remaining with rfl | hpos
    · simpa [receiveLoop, ahead_zero] using hQ
    have hc := chunk_pos hpos
    have hle : min TRANSFER_BUFFER_SIZE remaining ≤ remaining := Nat.min_le_right _ _
    have hrest : ∀ good, wp wireNext
        (receiveLoop path fuel (remaining - min TRANSFER_BUFFER_SIZE remaining) good) Q
        (w.ahead (min TRANSFER_BUFFER_SIZE remaining)) := by
      intro good
      refine ih good (by omega) ?_ ?_
      · simp only [ahead, Conn.consume_input, List.length_take, List.length_drop]
        omega
      · rwa [ahead_ahead _ hle hlen]
    rw [receiveLoop, if_pos hpos, Prog.bind_eq, wp_bind,
      wp_recvAll wired (chunk_small remaining) (hle.trans hlen)]
    cases good with
    | true =>
      simp only [afterBind_ok, if_true, Prog.bind_eq, wp_bind, wp_write]
      intro failed
      exact hrest _
    | false => exact hrest _

/-- The payload has been read, or nothing of it when the operation throws. -/
def Saved (w : Wire) (n : ℕ) (r : Except Exn Bool) (w' : Wire) : Prop :=
  (∃ b, r = .ok b ∧ w' = w.ahead n) ∨ (∃ e, r = .error e ∧ w' = w)

lemma wire_saveLocked (user filename path : Bytes) {size : UInt64}
    (hlen : size.toNat ≤ w.conn.input.length) :
    wp wireNext (saveLocked user filename path size) (Saved w size.toNat) w := by
  rw [saveLocked, Prog.bind_eq, wp_bind, wp_openOut]
  intro opened
  cases opened with
  | false =>
    simp only [afterBind_ok, Bool.not_false, if_true, Prog.bind_eq, wp_bind, wp_log]
    rw [wire_discardData hlen]
    simp [Saved, wp_bind]
  | true =>
    simp only [afterBind_ok, Bool.not_true, Bool.false_eq_true, if_false, Prog.bind_eq, wp_bind,
      wp_alloc]
    refine wire_receiveLoop path true le_rfl hlen ?_
    simp [Saved, wp_bind]

lemma wire_saveInto (user filename dir : Bytes) {size : UInt64}
    (hlen : size.toNat ≤ w.conn.input.length) :
    wp wireNext (saveInto user filename dir size) (Saved w size.toNat) w := by
  unfold saveInto
  cases isValidFilename filename with
  | false =>
    simp only [Bool.not_false, if_true, Prog.bind_eq, wp_bind, wp_log, afterBind_ok]
    rw [wire_discardData hlen]
    simp [Saved]
  | true =>
    simp only [Bool.not_true, Bool.false_eq_true, if_false, Prog.bind_eq, wp_bind, wp_pathAppend]
    rintro (e | path)
    · exact Or.inr ⟨e, rfl, rfl⟩
    simp only [afterBind_ok, wp_bind, wp_acquireLockRef, wp_lock]
    refine wp_tryCatch_of (wire_saveLocked user filename path hlen) ?_
    rintro r t (⟨b, rfl, rfl⟩ | ⟨e, rfl, rfl⟩)
    · exact Or.inl ⟨b, rfl, rfl⟩
    · simp [wp_bind, Saved]

lemma wire_saveFile {Q : Except Exn Bool → Wire → Prop} (user filename : Bytes) {size : UInt64}
    (hlen : size.toNat ≤ w.conn.input.length) (hQ : ∀ b, Q (.ok b) (w.ahead size.toNat)) :
    wp wireNext (saveFile user filename size) Q w := by
  have htry : wp wireNext (trySaveFile user filename size) (Saved w size.toNat) w := by
    have hinto := fun dir => wire_saveInto user filename dir hlen
    rw [trySaveFile, Prog.bind_eq, wp_bind, wp_pathAppend]
    rintro (e | dir)
    · exact Or.inr ⟨e, rfl, rfl⟩
    simp only [afterBind_ok, ensureDir, Prog.bind_eq, wp_bind, wp_fsExists]
    rintro (e | b)
    · exact Or.inr ⟨e, rfl, rfl⟩
    cases b with
    | true => simpa using hinto dir
    | false =>
      simp only [afterBind_ok, Bool.not_false, if_true, wp_createDirectories]
      rintro (e | _)
      · exact Or.inr ⟨e, rfl, rfl⟩
      · exact hinto dir
  refine wp_tryCatch_of htry ?_
  rintro r t (⟨b, rfl, rfl⟩ | ⟨e, rfl, rfl⟩)
  · exact hQ b
  · simp only [afterTry_error, Prog.bind_eq, wp_bind, wp_log, afterBind_ok]
    rw [wire_discardData hlen]
    exact hQ false

lemma wire_streamLoop {Q : Except Exn Bool → Wire → Prop} (path : Bytes) (fuel offset : ℕ)
    (heof : w.conn.eof = false) (hQ : ∀ body, Q (.ok true) (w.sent body)) :
    wp wireNext (streamLoop path fuel offset) Q w := by
  induction fuel generalizing offset w with
  | zero => simpa [streamLoop, sent_nil] using hQ []
  | succ fuel ih =>
    have hrest : ∀ bs, wp wireNext (streamLoop path fuel (offset + TRANSFER_BUFFER_SIZE)) Q
        (w.sent bs) :=
      fun bs => ih _ heof (fun body => by simpa [sent_sent] using hQ (bs ++ body))
    rw [streamLoop, Prog.bind_eq, wp_bind]
    refine wp_read path offset _ ?_
    intro bs good hlen
    have hsmall : bs.length < 2 ^ 31 := lt_of_le_of_lt hlen (by decide)
    by_cases hbs : bs = []
    · subst hbs
      cases good with
      | true => simpa [sent_nil] using hrest []
      | false => simpa [sent_nil] using hQ []
    · simp only [afterBind_ok, ne_eq, hbs, not_false_eq_true, if_true, Prog.bind_eq, wp_bind]
      rw [(sends_sendAll hsmall).wire heof]
      cases good with
      | true => simpa using hrest bs
      | false => simpa using hQ bs

lemma wire_streamFileToSocket {Q : Except Exn Bool → Wire → Prop} (user filename : Bytes)
    (heof : w.conn.eof = false) (hfail : Q (.ok false) w)
    (hQ : ∀ body, Q (.ok true) (w.sent body)) :
    wp wireNext (streamFileToSocket user filename) Q w := by
  rw [streamFileToSocket, wp_tryCatch, tryStreamFile]
  cases isValidFilename filename with
  | false => simpa using hfail
  | true =>
    have herror : ∀ e, afterTry wireNext (fun _ => do
        Sys.log
        pure false) Q (.error e) w := by
      intro e
      simpa [wp_bind] using hfail
    simp only [Bool.not_true, Bool.false_eq_true, if_false, Prog.bind_eq, wp_bind, wp_pathAppend]
    rintro (e | dir)
    · exact herror e
    simp only [afterBind_ok, wp_bind, wp_pathAppend]
    rintro (e | path)
    · exact herror e
    simp only [afterBind_ok, wp_bind, wp_acquireLockRef, wp_lockShared, Prog.onThrow, wp_tryCatch,
      streamLocked, Prog.bind_eq, wp_openIn]
    intro opened
    cases opened with
    | false => simpa [wp_bind] using hfail
    | true =>
      simp only [Bool.not_true, Bool.false_eq_true, if_false, afterBind_ok, wp_bind, wp_alloc]
      refine wire_streamLoop path _ 0 heof (fun body => ?_)
      simpa [wp_bind] using hQ body

lemma wire_deleteFile {Q : Except Exn Bool → Wire → Prop} (user filename : Bytes)
    (hQ : ∀ b, Q (.ok b) w) : wp wireNext (deleteFile user filename) Q w := by
  rw [deleteFile, wp_tryCatch, tryDeleteFile]
  cases isValidFilename filename with
  | false => simpa using hQ false
  | true =>
    simp only [Bool.not_true, Bool.false_eq_true, if_false, Prog.bind_eq, wp_bind, wp_pathAppend]
    rintro (e | dir)
    · exact hQ false
    simp only [afterBind_ok, wp_bind, wp_pathAppend]
    rintro (e | path)
    · exact hQ false
    simp only [afterBind_ok, wp_bind, wp_acquireLockRef, wp_lock, Prog.onThrow, wp_tryCatch,
      deleteLocked, Prog.bind_eq, wp_fsRemove]
    rintro (e | b)
    · simpa [wp_bind] using hQ false
    · cases b with
      | true => simpa [wp_bind] using hQ true
      | false => simpa [wp_bind] using hQ false

lemma wire_renameLocked {Q : Except Exn Bool → Wire → Prop} (user old new p q : Bytes)
    (hQ : ∀ b, Q (.ok b) w) (hE : ∀ e, Q (.error e) w) :
    wp wireNext (renameLocked user old new p q) Q w := by
  simp only [renameLocked, unlockBoth, releaseBoth, Prog.bind_eq, wp_bind, wp_fsExists]
  rintro (e | b)
  · exact hE e
  cases b with
  | false => simpa [wp_bind] using hQ false
  | true =>
    simp only [Bool.not_true, Bool.false_eq_true, if_false, afterBind_ok, wp_fsExists]
    rintro (e | b)
    · exact hE e
    cases b with
    | true => simpa [wp_bind] using hQ false
    | false =>
      simp only [Bool.false_eq_true, if_false, afterBind_ok, wp_bind, wp_fsRename]
      rintro (e | _)
      · exact hE e
      · simpa [wp_bind] using hQ true

lemma wire_renameFile {Q : Except Exn Bool → Wire → Prop} (user old new : Bytes)
    (hQ : ∀ b, Q (.ok b) w) : wp wireNext (renameFile user old new) Q w := by
  rw [renameFile, wp_tryCatch, tryRenameFile]
  by_cases hvalid : (!isValidFilename old || !isValidFilename new) = true
  · simpa [hvalid] using hQ false
  simp only [hvalid, Bool.false_eq_true, if_false, Prog.bind_eq, wp_bind, wp_pathAppend]
  rintro (e | dir₁)
  · exact hQ false
  simp only [afterBind_ok, wp_bind, wp_pathAppend]
  rintro (e | p)
  · exact hQ false
  simp only [afterBind_ok, wp_bind, wp_pathAppend]
  rintro (e | dir₂)
  · exact hQ false
  simp only [afterBind_ok, wp_bind, wp_pathAppend]
  rintro (e | q)
  · exact hQ false
  by_cases hpq : p = q
  · simpa [hpq] using hQ true
  simp only [afterBind_ok, hpq, if_false, wp_bind, wp_acquireLockRef, wp_lockBoth, Prog.onThrow,
    wp_tryCatch]
  refine wire_renameLocked user old new p q (fun b => hQ b) (fun e => ?_)
  simpa [unlockBoth, wp_bind] using hQ false

lemma wire_getFileSize {Q : Except Exn UInt64 → Wire → Prop} (user filename : Bytes)
    (hQ : ∀ n, Q (.ok n) w) : wp wireNext (getFileSize user filename) Q w := by
  rw [getFileSize, Prog.bind_eq, wp_bind, wp_fileExists]
  intro found
  cases found with
  | true => simpa using hQ
  | false => simpa using hQ (-1)

lemma wire_listFiles {Q : Except Exn Bytes → Wire → Prop} (user : Bytes)
    (hQ : ∀ text, text.length < 2 ^ 31 → Q (.ok text) w) :
    wp wireNext (listFiles user) Q w := by
  rw [listFiles, Prog.bind_eq, wp_bind]
  exact wp_listDirectory _ (fun files hsmall => hQ _ hsmall)

end FileManager

structure Response where
  header : MessageHeader
  body : Bytes

def Response.wire (r : Response) : Bytes := wireHeader r.header ++ r.body

/-- The response is for the request's command, and unless it is a DOWNLOAD's 200 it tells the number
of the bytes that follow its header. -/
structure Answers (p : Packet) (r : Response) : Prop where
  command : r.header.command = p.header.command
  username_length : r.header.usernameLength = 0
  filename_length : r.header.filenameLength = 0
  payload_length : r.header.payloadLength.toNat = r.body.length ∨
    (p.header.command = CommandType.download.code ∧ r.header.status = StatusCode.ok.code)

/-- What the server can take in: lengths that an `int` can count, but for the payload of an UPLOAD,
and a LOGIN whose response has such a length. -/
structure Admissible (p : Packet) : Prop where
  username_small : p.username.length < 2 ^ 31
  filename_small : p.filename.length < 2 ^ 31
  payload_small : p.header.command ≠ CommandType.upload.code → p.payload.length < 2 ^ 31
  welcome_small : p.header.command = CommandType.login.code → p.username.length + 10 < 2 ^ 31

namespace Server

def nextUser (user : Bytes) (r : Request) : Bytes :=
  if r.header.command = CommandType.login.code then r.username else user

lemma nil_small : ([] : Bytes).length < 2 ^ 31 := by simp

/-- The response that `respond` makes ready. -/
def plainMessage (cmd : UInt32) (status : StatusCode) (body : Bytes) (h : body.length < 2 ^ 31) :
    Message where
  header := makeResponse cmd status (.ofNat body.length)
  username := []
  filename := []
  payload := body
  username_length := rfl
  filename_length := rfl
  payload_length := UInt64.toNat_ofNat_of_lt' (h.trans (by decide))
  username_small := nil_small
  filename_small := nil_small
  payload_small := h

/-- How a `switch` over a command is left: with a response still to be sent, or after a whole one
has been. -/
def Dispatched (cmd : UInt32) (user : Bytes) (w : Wire) (r : Except Exn (Reply × Bytes))
    (w' : Wire) : Prop :=
  (∃ status body, body.length < 2 ^ 31 ∧ r = .ok (respond cmd status body, user) ∧ w' = w) ∨
  (cmd = CommandType.download.code ∧ ∃ n body,
    w' = w.sent (wireHeader (makeResponse cmd .ok n) ++ body) ∧
    (r = .ok (.streamed, user) ∨ (r = .ok (.ended .streamFailed, user) ∧ body = []))) ∨
  (cmd = CommandType.quit.code ∧ r = .ok (.ended .quit, user) ∧
    w' = w.sent (wireHeader (makeResponse cmd .ok 8) ++ bytes "Goodbye!"))

lemma dispatched_plain {cmd : UInt32} {user : Bytes} (status : StatusCode) {body : Bytes}
    (h : body.length < 2 ^ 31) :
    Dispatched cmd user w (.ok (respond cmd status body, user)) w :=
  Or.inl ⟨status, body, h, rfl, rfl⟩

lemma wire_upload {Q : Except Exn Reply → Wire → Prop} (user filename : Bytes) (cmd : UInt32)
    {size : UInt64} (hlen : size.toNat ≤ w.conn.input.length)
    (hQ : ∀ status body, body.length < 2 ^ 31 →
      Q (.ok (respond cmd status body)) (w.ahead size.toNat)) :
    wp wireNext (upload user filename cmd size) Q w := by
  unfold upload
  by_cases huser : user = []
  · rw [if_pos huser, Prog.bind_eq, wp_bind, FileManager.wire_discardData hlen]
    exact hQ _ _ (by decide)
  · rw [if_neg huser, Prog.bind_eq, wp_bind]
    refine FileManager.wire_saveFile user filename hlen (fun b => ?_)
    cases b with
    | true => exact hQ _ _ (by decide)
    | false => exact hQ _ _ (by decide)

lemma wire_download {Q : Except Exn Reply → Wire → Prop} (host : Endian) (user filename : Bytes)
    (cmd : UInt32) (heof : w.conn.eof = false)
    (hplain : ∀ status body, body.length < 2 ^ 31 → Q (.ok (respond cmd status body)) w)
    (hfail : ∀ n, Q (.ok (.ended .streamFailed)) (w.sent (wireHeader (makeResponse cmd .ok n))))
    (hdone : ∀ n body, Q (.ok .streamed) (w.sent (wireHeader (makeResponse cmd .ok n) ++ body))) :
    wp wireNext (download host user filename cmd) Q w := by
  unfold download
  by_cases huser : user = []
  · rw [if_pos huser]
    exact hplain _ _ (by decide)
  rw [if_neg huser, Prog.bind_eq, wp_bind]
  refine FileManager.wire_getFileSize user filename (fun n => ?_)
  rw [afterBind_ok]
  by_cases hn : n = -1
  · rw [if_pos hn]
    exact hplain _ _ (by decide)
  have hreq : (⟨makeResponse cmd .ok n, [], []⟩ : Request).Framed :=
    ⟨rfl, rfl, by simp, by simp⟩
  have hs := sends_sendMessageMeta (W := wired) host hreq
  rw [if_neg hn, Prog.bind_eq, wp_bind, hs.wire heof]
  simp only [Request.wire, List.append_nil, afterBind_ok, Bool.not_true, Bool.false_eq_true,
    if_false, Prog.bind_eq, wp_bind]
  refine FileManager.wire_streamFileToSocket user filename heof (hfail n) (fun body => ?_)
  rw [sent_sent]
  exact hdone n body

lemma wire_quit {Q : Except Exn Reply → Wire → Prop} (host : Endian) (cmd : UInt32)
    (heof : w.conn.eof = false)
    (hQ : Q (.ok (.ended .quit))
      (w.sent (wireHeader (makeResponse cmd .ok 8) ++ bytes "Goodbye!"))) :
    wp wireNext (quit host cmd) Q w := by
  have hs := (plainMessage cmd .ok (bytes "Goodbye!") (by decide)).sends_sendMessage
    (W := wired) host
  rw [quit, Prog.bind_eq, wp_bind]
  refine (hs.wire heof).mpr ?_
  exact hQ

lemma wire_dispatch (host : Endian) (user payload : Bytes) {p : Packet} (hp : Admissible p)
    (heof : w.conn.eof = false)
    (hlen : p.header.command = CommandType.upload.code →
      p.payload.length ≤ w.conn.input.length) :
    wp wireNext (dispatch host user p.toRequest payload)
      (Dispatched p.header.command (nextUser user p.toRequest)
        (if p.header.command = CommandType.upload.code then w.ahead p.payload.length else w))
        w := by
  have hcode := CommandType.ofCode_eq_some p.header.command
  cases hcmd : CommandType.ofCode p.header.command with
  | none =>
    have hnone : ∀ t : CommandType, p.header.command ≠ t.code := by
      intro t ht
      rw [(hcode t).mpr ht] at hcmd
      cases hcmd
    rw [if_neg (hnone _), nextUser, if_neg (hnone _)]
    have htext : (bytes "Unknown or unsupported command: " ++
        commandToString p.header.command).length < 2 ^ 31 := by
      rw [commandToString, hcmd]
      decide
    simp only [dispatch, hcmd]
    exact dispatched_plain _ htext
  | some t =>
    have hc := (hcode t).mp hcmd
    have hdiff : ∀ t' : CommandType, t ≠ t' → p.header.command ≠ t'.code := by
      intro t' ht ht'
      rw [(hcode t').mpr ht'] at hcmd
      exact ht (Option.some.inj hcmd).symm
    cases t with
    | login =>
      have hsmall := hp.welcome_small hc
      rw [if_neg (hdiff _ (by decide)), nextUser, if_pos hc]
      simp only [dispatch, hcmd, Prog.bind_eq, wp_bind, wp_log, afterBind_ok]
      refine dispatched_plain _ ?_
      simp only [List.length_append, show (bytes "Welcome, ").length = 9 from by decide,
        show (bytes "!").length = 1 from by decide]
      omega
    | upload =>
      rw [if_pos hc, nextUser, if_neg (hdiff _ (by decide))]
      simp only [dispatch, hcmd, Prog.bind_eq, wp_bind]
      rw [← p.payload_length]
      refine wire_upload user _ _ (p.payload_length ▸ hlen hc) ?_
      intro status body hbody
      exact dispatched_plain status hbody
    | download =>
      rw [if_neg (hdiff _ (by decide)), nextUser, if_neg (hdiff _ (by decide))]
      simp only [dispatch, hcmd, Prog.bind_eq, wp_bind]
      refine wire_download host user _ _ heof ?_ ?_ ?_
      · intro status body hbody
        exact dispatched_plain status hbody
      · intro n
        exact Or.inr (Or.inl ⟨hc, n, [], by rw [List.append_nil], Or.inr ⟨rfl, rfl⟩⟩)
      · intro n body
        exact Or.inr (Or.inl ⟨hc, n, body, rfl, Or.inl rfl⟩)
    | list =>
      rw [if_neg (hdiff _ (by decide)), nextUser, if_neg (hdiff _ (by decide))]
      simp only [dispatch, hcmd, Prog.bind_eq, wp_bind, list]
      by_cases huser : user = []
      · rw [if_pos huser]
        exact dispatched_plain _ (by decide)
      · rw [if_neg huser, wp_bind]
        refine FileManager.wire_listFiles user (fun text htext => ?_)
        exact dispatched_plain _ htext
    | deleteF =>
      rw [if_neg (hdiff _ (by decide)), nextUser, if_neg (hdiff _ (by decide))]
      simp only [dispatch, hcmd, Prog.bind_eq, wp_bind, delete]
      by_cases huser : user = []
      · rw [if_pos huser]
        exact dispatched_plain _ (by decide)
      · rw [if_neg huser, wp_bind]
        refine FileManager.wire_deleteFile user _ (fun b => ?_)
        cases b <;> exact dispatched_plain _ (by decide)
    | rename =>
      rw [if_neg (hdiff _ (by decide)), nextUser, if_neg (hdiff _ (by decide))]
      simp only [dispatch, hcmd, Prog.bind_eq, wp_bind, rename]
      by_cases huser : user = []
      · rw [if_pos huser]
        exact dispatched_plain _ (by decide)
      · rw [if_neg huser, wp_bind]
        refine FileManager.wire_renameFile user _ _ (fun b => ?_)
        cases b <;> exact dispatched_plain _ (by decide)
    | quit =>
      rw [if_neg (hdiff _ (by decide)), nextUser, if_neg (hdiff _ (by decide))]
      simp only [dispatch, hcmd, Prog.bind_eq, wp_bind]
      refine wire_quit host _ heof ?_
      exact Or.inr (Or.inr ⟨hc, rfl, rfl⟩)

/-- How a request has been handled: read whole and then answered. -/
def Handled (p : Packet) (user : Bytes) (w : Wire) (r : Except Exn (Exit ⊕ Bytes)) (w' : Wire) :
    Prop :=
  ∃ resp, Answers p resp ∧ w' = (w.ahead p.wire.length).sent resp.wire ∧
    (r = .ok (.inr (nextUser user p.toRequest)) ∨
      (r = .ok (.inl .quit) ∧ p.header.command = CommandType.quit.code) ∨
      (r = .ok (.inl .streamFailed) ∧ p.header.command = CommandType.download.code ∧
        resp.header.status = StatusCode.ok.code ∧ resp.body = []))

lemma ahead_eq_consume {xs : Bytes} (h : xs <+: w.conn.input) :
    w.ahead xs.length = { w with conn := w.conn.consume xs } := by
  rw [ahead, ← List.prefix_iff_eq_take.mp h]

lemma wire_sendReply (host : Endian) (user : Bytes) {p : Packet} {w' : Wire}
    {r : Except Exn (Reply × Bytes)} (heof : w.conn.eof = false)
    (h : Dispatched p.header.command (nextUser user p.toRequest) (w.ahead p.wire.length) r w') :
    afterBind wireNext (fun x => sendReply host x.1 x.2) (Handled p user w) r w' := by
  rcases h with ⟨status, body, hbody, rfl, rfl⟩ | ⟨hcmd, n, body, rfl, hr⟩ | ⟨hcmd, rfl, rfl⟩
  · have hs := (plainMessage p.header.command status body hbody).sends_sendMessage
      (W := wired) host
    simp only [afterBind_ok, sendReply, respond, Prog.bind_eq, wp_bind]
    refine (hs.wire (w := w.ahead p.wire.length) heof).mpr ?_
    refine ⟨⟨makeResponse p.header.command status (.ofNat body.length), body⟩,
      ⟨rfl, rfl, rfl, Or.inl ?_⟩, ?_, Or.inl rfl⟩
    · exact (plainMessage p.header.command status body hbody).payload_length
    · simp [Packet.wire, Request.wire, plainMessage, Response.wire]
  · have hanswers : Answers p ⟨makeResponse p.header.command .ok n, body⟩ :=
      ⟨rfl, rfl, rfl, Or.inr ⟨hcmd, rfl⟩⟩
    rcases hr with rfl | ⟨rfl, hbody⟩
    · exact ⟨_, hanswers, rfl, Or.inl rfl⟩
    · exact ⟨_, hanswers, rfl, Or.inr (Or.inr ⟨rfl, hcmd, rfl, hbody⟩)⟩
  · exact ⟨⟨makeResponse p.header.command .ok 8, bytes "Goodbye!"⟩, ⟨rfl, rfl, rfl, Or.inl rfl⟩,
      rfl, Or.inr (Or.inl ⟨rfl, hcmd⟩)⟩

lemma wire_handleRequest (host : Endian) (user : Bytes) {p : Packet} (hp : Admissible p)
    (heof : w.conn.eof = false) (hinput : p.wire <+: w.conn.input) :
    wp wireNext (handleRequest host user) (Handled p user w) w := by
  have hframed : p.toRequest.Framed :=
    ⟨p.username_length, p.filename_length, hp.username_small, hp.filename_small⟩
  have hmeta : p.toRequest.wire <+: w.conn.input := (List.prefix_append _ _).trans hinput
  set w₁ : Wire := { w with conn := w.conn.consume p.toRequest.wire } with hw₁
  have hpayload : p.payload <+: w₁.conn.input := by
    obtain ⟨rest, hrest⟩ := hinput
    exact ⟨rest, by simp [hw₁, ← hrest, Packet.wire]⟩
  have hahead : w₁.ahead p.payload.length = w.ahead p.wire.length := by
    rw [ahead_eq_consume hpayload, ahead_eq_consume hinput, hw₁]
    simp [Conn.consume_consume, Packet.wire]
  have hrm := receives_recvMessageMeta (W := wired) allocates_wire host hframed
  rw [handleRequest, Prog.bind_eq, wp_bind, hrm.whole _ w hmeta]
  simp only [afterBind_ok, Prog.bind_eq, wp_bind, wp_log, wired_put, wired_conn, ← hw₁]
  unfold recvPayload
  by_cases hup : p.header.command = CommandType.upload.code
  · have hof := (CommandType.ofCode_eq_some p.header.command .upload).mpr hup
    have hd := wire_dispatch (w := w₁) host user [] hp heof (fun _ => hpayload.length_le)
    rw [if_pos hup, hahead] at hd
    rw [if_neg (by simp [hof]), Prog.pure_eq, wp_pure, afterBind_ok]
    exact wp_bind_of hd (fun r w' h => wire_sendReply host user heof h)
  · have hof : CommandType.ofCode p.header.command ≠ some .upload :=
      fun h => hup ((CommandType.ofCode_eq_some _ _).mp h)
    have hd : ∀ payload, wp wireNext (dispatch host user p.toRequest payload)
        (Dispatched p.header.command (nextUser user p.toRequest) (w.ahead p.wire.length))
        (w.ahead p.wire.length) := by
      intro payload
      have hd := wire_dispatch host user payload hp (w := w.ahead p.wire.length) heof
        (fun h => (hup h).elim)
      rwa [if_neg hup] at hd
    by_cases hpos : 0 < p.header.payloadLength
    · have hall := receives_recvAll (W := wired) (hp.payload_small hup)
      rw [if_pos ⟨hof, hpos⟩, Prog.bind_eq, wp_bind, wp_alloc, afterBind_ok, p.payload_length,
        hall.whole _ w₁ hpayload]
      have hput : wired.put w₁ ((wired.conn w₁).consume p.payload) = w.ahead p.wire.length := by
        rw [← hahead, ahead_eq_consume hpayload]
        rfl
      rw [hput]
      exact wp_bind_of (hd p.payload) (fun r w' h => wire_sendReply host user heof h)
    · have hnil : p.payload = [] := by
        apply List.eq_nil_of_length_eq_zero
        rw [← p.payload_length]
        rw [UInt64.lt_iff_toNat_lt] at hpos
        simpa using hpos
      have hw : w.ahead p.wire.length = w₁ := by
        rw [← hahead, hnil]
        exact ahead_zero w₁
      rw [if_neg (fun h => hpos h.2), Prog.pure_eq, wp_pure, afterBind_ok, ← hw]
      exact wp_bind_of (hd []) (fun r w' h => wire_sendReply host user heof h)

/-- A LOGIN of the user `u`, as it comes from the wire. -/
def login (u : Bytes) (h : u.length < 2 ^ 31) : Packet where
  header := ⟨CommandType.login.code, 0, 0, 0, .ofNat u.length⟩
  username := u
  filename := []
  payload := []
  username_length := UInt64.toNat_ofNat_of_lt' (h.trans (by decide))
  filename_length := rfl
  payload_length := rfl

def welcome (u : Bytes) : Bytes := bytes "Welcome, " ++ u ++ bytes "!"

lemma welcome_length (u : Bytes) : (welcome u).length = u.length + 10 := by
  simp only [welcome, List.length_append, show (bytes "Welcome, ").length = 9 from by decide,
    show (bytes "!").length = 1 from by decide]
  omega

lemma welcome_counted {u : Bytes} (h : u.length < 2 ^ 31) :
    0 < UInt64.ofNat (welcome u).length := by
  have hsize : (welcome u).length < UInt64.size := by
    rw [welcome_length]
    have hsize : 2 ^ 31 + 10 < UInt64.size := by decide
    omega
  rw [UInt64.lt_iff_toNat_lt, UInt64.toNat_ofNat_of_lt' hsize, welcome_length]
  simp

lemma wp_login {env : Env} (halloc : env.faults.alloc = false) (hstop : env.faults.stop = false)
    {Q : Except Exn (Exit ⊕ Bytes) → Machine → Prop} (host : Endian) {u : Bytes}
    (h : u.length < 2 ^ 31) {l : Local} {s : Store} (hconn : l.conn.input = (login u h).wire)
    (hrun : s.running = true)
    (hsend : wp (next env) (sendMessage host
        (makeResponse CommandType.login.code .ok (.ofNat (welcome u).length)) [] []
        (some (welcome u)))
      (fun r m => ∃ sent, r = .ok sent ∧ if sent = true then Q (.ok (.inr u)) m
        else wp (next env) (endSession.bind (fun _ => .pure (.inl .responseLost))) Q m)
      ({ l with conn := l.conn.consume (login u h).toRequest.wire },
        { s with running := true, active := s.active + 1 })) :
    wp (next env) (handleClient host) Q (l, s) := by
  have hframed : (login u h).toRequest.Framed :=
    ⟨(login u h).username_length, rfl, h, by simp [login]⟩
  have hrm := receives_recvMessageMeta (W := machine env) (allocates_machine halloc) host hframed
  have hmeta : (login u h).toRequest.wire <+: l.conn.input :=
    ⟨[], by rw [List.append_nil, hconn, Packet.wire]; simp [login]⟩
  simp only [handleClient, round, Prog.bind_eq, wp_bind, Rules.wp_activeConnections, afterBind_ok,
    Rules.wp_running, hrun, if_true, forall_const]
  refine ⟨?_, by simp [hstop]⟩
  rw [handleRequest, Prog.bind_eq, wp_bind]
  rw [hrm.whole _ (l, _) hmeta]
  simp only [machine_conn, machine_put, afterBind_ok, Prog.bind_eq, wp_bind, Rules.wp_log]
  refine ⟨?_, by simp [halloc]⟩
  have hpayload : recvPayload (login u h).header = .pure (some []) := if_neg (by simp [login])
  have hlogin : CommandType.ofCode (login u h).header.command = some .login := rfl
  rw [hpayload, wp_pure, afterBind_ok]
  simp only [dispatch, hlogin, Prog.bind_eq, wp_bind, Rules.wp_log, afterBind_ok, Prog.pure_eq,
    wp_pure]
  refine ⟨?_, by simp [halloc]⟩
  rw [respond, sendReply, Prog.bind_eq, wp_bind]
  refine wp_mono hsend ?_
  rintro _ m ⟨sent, rfl, hsent⟩
  cases sent with
  | true => exact hsent
  | false => simpa [wp_bind] using hsent

lemma login_accepted {env : Env} (halloc : env.faults.alloc = false)
    (hstop : env.faults.stop = false) (host : Endian) {u : Bytes} (h : u.length + 10 < 2 ^ 31)
    {l : Local} {s : Store} (hconn : l.conn.input = (login u (by omega)).wire)
    (heof : l.conn.eof = false) (hrun : s.running = true) :
    wp (next env) (handleClient host) (fun r _ => r = .ok (.inr u)) (l, s) := by
  have hsmall : (welcome u).length < 2 ^ 31 := by rwa [welcome_length]
  refine wp_login halloc hstop host (by omega) hconn hrun ?_
  refine ((plainMessage _ .ok _ hsmall).sends_sendMessage (W := machine env) host _ _).mpr ⟨?_, ?_⟩
  · exact ⟨true, rfl, by simp⟩
  · intro h
    simp [heof] at h

end Server

end Mtfss
