import Mtfss.Effects.Threads
import Mtfss.System.Oblige
import Mtfss.Properties.FailedUpload

/-! What is on disk after an upload that is answered 201. -/

namespace Mtfss.StoredUpload

open Effects Paths Server FileManager FailedUpload

variable {env : Env} {α β : Type}

/-- The file holds the payload, and the index records its length. -/
structure Stored (env : Env) (user : Bytes) (req : Request) (l : Local) (s : Store) : Prop where
  content : s.disk.content (fileLoc env user req.filename) =
    some (l.conn.input.take req.header.payloadLength.toNat)
  length : req.header.payloadLength.toNat ≤ l.conn.input.length
  recorded : ∃ record, s.index.entry (normalizePath (indexDir user)) req.filename = some record ∧
    record.size = req.header.payloadLength

/-- The number of bytes that the calls on the output file have left in it. -/
def kept : Monitor Call Answer ℕ
  | .openOut _, _, _ => 0
  | .write _ data, k, none => k + data.length
  | .write _ data, k, some n => k + min n data.length
  | .closeOut _, k, some n => min n k
  | _, k, _ => k

abbrev counted (env : Env) : Next Call Answer ((Local × ℕ) × Store) := kept.watch (next env)

def wired (env : Env) : Wired (counted env) where
  conn m := m.1.1.conn
  put m c := (({ m.1.1 with conn := c }, m.1.2), m.2)
  conn_put _ _ := rfl
  put_put _ _ _ := rfl
  put_conn _ := rfl
  recv count m r := by
    cases h : m.1.1.conn.recv count r <;> simp [Monitor.watch, next, kept, h]
  send data count m r := by
    cases h : m.1.1.conn.send data count r <;> simp [Monitor.watch, next, kept, h]

/-- `p` never breaks off with a result that matters, or does so as `Q` says. -/
def Yields (env : Env) (p : Code Bool) (Q : (Local × ℕ) × Store → Prop)
    (m : (Local × ℕ) × Store) : Prop :=
  Safe (counted env) (fun _ _ => True) p (fun r m' => r = .ok true → Q m') m

section Rules

variable {A Q : (Local × ℕ) × Store → Prop} {m : (Local × ℕ) × Store}

lemma yields_false : Yields env (.pure false) Q m := nofun

lemma yields_throw (e : Exn) : Yields env (.throw e) Q m := nofun

lemma yields_of_false {p : Code β} {f : β → Code Bool} (h : ∀ b m, Yields env (f b) Q m) :
    Yields env (p.bind f) Q m := by
  refine safe_bind.mpr (safe_of_forall (fun _ _ => trivial) ?_)
  rintro (e | b) m'
  · nofun
  · exact h b m'

lemma yields_bind {p : Code β} {f : β → Code Bool}
    (hp : Safe (counted env) (fun _ _ => True) p
      (fun r m' => ∀ b, r = .ok b → Yields env (f b) Q m') m) :
    Yields env (p.bind f) Q m := by
  refine safe_bind_of hp ?_
  rintro (e | b) m' h
  · nofun
  · exact h b rfl

lemma yields_tryCatch {p : Code Bool} {h : Exn → Code Bool} (hp : Yields env p Q m)
    (hh : ∀ e m, Yields env (h e) Q m) : Yields env (p.tryCatch h) Q m := by
  refine safe_tryCatch.mpr (safe_mono hp ?_)
  rintro (e | b) m' hr
  · exact hh e m'
  · exact hr

lemma yields_call {o : Call} {g : Answer o → Code β} {f : β → Code Bool}
    (hg : ∀ r, ∃ x, g r = Prog.ofExcept x)
    (h : ∀ r m', counted env o m r = some m' → A m') (hf : ∀ b m', A m' → Yields env (f b) Q m') :
    Yields env ((Prog.op o g).bind f) Q m := by
  refine yields_bind ⟨trivial, fun r m' hm => ?_⟩
  obtain ⟨x, hx⟩ := hg r
  rw [hx, safe_ofExcept]
  intro b _
  exact hf b m' (h r m' hm)

end Rules

/-- `n` bytes have come from the connection `c`, and the first `k` of them are in the file `p`. -/
structure Filled (env : Env) (p : Bytes) (c : Conn) (n k : ℕ) (m : (Local × ℕ) × Store) : Prop where
  conn : m.1.1.conn = c.skip n
  content : m.2.disk.content (resolve env.cwd p) = some (c.input.take k)
  kept : m.1.2 = k
  arrived : n ≤ c.input.length
  le : k ≤ n

section Loop

variable {p : Bytes} {c : Conn} {n k : ℕ} {m m' : (Local × ℕ) × Store}

lemma Filled.frame {o : Call} {r : Answer o} (h : Filled env p c n k m)
    (hm : counted env o m r = some m') (ho : o.isConn = false) (hd : o.writesDisk = false) :
    Filled env p c n k m' := by
  obtain ⟨⟨l, j⟩, s⟩ := m
  obtain ⟨⟨l', j'⟩, s'⟩ := m'
  obtain ⟨hnext, rfl⟩ := Monitor.watch_eq_some.mp hm
  refine ⟨(next_conn hnext ho).trans h.conn, ?_, ?_, h.arrived, h.le⟩
  · rw [next_disk hnext hd]
    exact h.content
  · rw [← h.kept]
    cases o <;> first | rfl | cases hd

lemma Filled.received {buf : Bytes} (h : Filled env p c n k m) (hbuf : buf <+: m.1.1.conn.input) :
    Filled env p c (n + buf.length) k ((wired env).put m (m.1.1.conn.consume buf)) := by
  obtain ⟨hconn, hcontent, hkept, harrived, hle⟩ := h
  have hinput : m.1.1.conn.input = c.input.drop n := by
    rw [hconn, Conn.skip, Conn.consume_input, List.length_take, Nat.min_eq_left harrived]
  rw [hinput] at hbuf
  have htake : buf = (c.input.drop n).take buf.length := List.prefix_iff_eq_take.mp hbuf
  have hlen := hbuf.length_le
  rw [List.length_drop] at hlen
  refine ⟨?_, hcontent, hkept, by omega, by omega⟩
  show m.1.1.conn.consume buf = c.skip (n + buf.length)
  rw [hconn, Conn.skip, Conn.skip, Conn.consume_consume, List.take_add, ← htake]

lemma content_modify {d : Disk} {x : Loc} {b : Bytes} (h : d.content x = some b)
    (f : Bytes → Bytes) : (d.modify x f).content x = some (f b) :=
  Disk.content_eq_some.mpr (Disk.modify_sets (Disk.content_eq_some.mp h) f).at

lemma Filled.written {data : Bytes} {r : Option ℕ} (h : Filled env p c (n + data.length) n m)
    (hdata : data = (c.input.drop n).take data.length)
    (hm : counted env (.write p data) m r = some m') :
    ∃ k, (r = none → k = n + data.length) ∧ Filled env p c (n + data.length) k m' := by
  obtain ⟨⟨l, j⟩, s⟩ := m
  obtain ⟨⟨l', j'⟩, s'⟩ := m'
  obtain ⟨hnext, rfl⟩ := Monitor.watch_eq_some.mp hm
  obtain ⟨hconn, hcontent, hkept, harrived, -⟩ := h
  obtain rfl : j = n := hkept
  cases r with
  | none =>
    cases hnext
    refine ⟨j + data.length, fun _ => rfl, hconn, ?_, rfl, harrived, le_rfl⟩
    rw [content_modify hcontent, List.take_add, ← hdata]
  | some x =>
    simp only [next, Option.ite_none_right_eq_some] at hnext
    obtain ⟨-, hnext⟩ := hnext
    cases hnext
    refine ⟨j + min x data.length, nofun, hconn, ?_, rfl, harrived, by omega⟩
    have htake : data.take x = (c.input.drop j).take (min x data.length) := by
      conv_lhs => rw [hdata]
      rw [List.take_take]
    rw [content_modify hcontent, htake, List.take_add]

lemma receiveLoop_fills {fuel a : ℕ} {good : Bool} (hfuel : n ≤ fuel) (h : Filled env p c a k m)
    (hgood : good = true → k = a) :
    Yields env (receiveLoop p fuel n good) (fun m' => ∃ k', Filled env p c (a + n) k' m') m := by
  induction fuel generalizing n a k good m with
  | zero =>
    obtain rfl : n = 0 := Nat.le_zero.mp hfuel
    exact fun _ => ⟨k, h⟩
  | succ fuel ih =>
    rcases Nat.eq_zero_or_pos n with rfl | hpos
    · exact fun _ => ⟨k, h⟩
    have hle : min TRANSFER_BUFFER_SIZE n ≤ n := Nat.min_le_right _ _
    have hc := chunk_pos hpos
    rw [receiveLoop, if_pos hpos]
    refine yields_bind (safe_mono (safe_recvAll (wired env) (chunk_small n)) ?_)
    rintro r m₁ hrecv buf hr
    cases buf with
    | none => exact yields_false
    | some buf =>
      obtain ⟨hlen, hpre, rfl⟩ := hrecv buf hr
      rw [← hlen] at hle hc ⊢
      have hreceived := h.received hpre
      have hsplit : a + n = a + buf.length + (n - buf.length) := by omega
      rw [hsplit]
      cases hg : good with
      | false => exact ih (by omega) hreceived (by rintro ⟨⟩)
      | true =>
        obtain rfl := hgood hg
        have hbuf : buf = (c.input.drop k).take buf.length := by
          refine List.prefix_iff_eq_take.mp ?_
          have hinput : ((wired env).conn m).input = c.input.drop k := by
            show m.1.1.conn.input = _
            rw [h.conn, Conn.skip, Conn.consume_input, List.length_take, Nat.min_eq_left h.arrived]
          exact hinput ▸ hpre
        refine yields_bind ⟨trivial, fun failed m' hm => ?_⟩
        rintro _ ⟨⟩
        obtain ⟨k', hk', hwritten⟩ := hreceived.written hbuf hm
        refine ih (by omega) hwritten (fun hnone => hk' ?_)
        simpa using hnone

lemma Filled.closed {r : Option ℕ} (h : Filled env p c n k m)
    (hm : counted env (.closeOut p) m r = some m') : ∃ k', Filled env p c n k' m' := by
  obtain ⟨⟨l, j⟩, s⟩ := m
  obtain ⟨⟨l', j'⟩, s'⟩ := m'
  obtain ⟨hnext, rfl⟩ := Monitor.watch_eq_some.mp hm
  obtain ⟨hconn, hcontent, hkept, harrived, hle⟩ := h
  obtain rfl : j = k := hkept
  cases r with
  | none =>
    cases hnext
    exact ⟨j, hconn, hcontent, rfl, harrived, hle⟩
  | some x =>
    simp only [next, Option.ite_none_right_eq_some] at hnext
    obtain ⟨-, hnext⟩ := hnext
    cases hnext
    refine ⟨min x j, hconn, ?_, rfl, harrived, by omega⟩
    rw [content_modify hcontent, List.take_take]

lemma Filled.opened (hm : counted env (.openOut p) m true = some m') :
    Filled env p m.1.1.conn 0 0 m' := by
  obtain ⟨⟨l, j⟩, s⟩ := m
  obtain ⟨⟨l', j'⟩, s'⟩ := m'
  obtain ⟨hnext, rfl⟩ := Monitor.watch_eq_some.mp hm
  obtain ⟨d, hd, hpair⟩ := Option.map_eq_some_iff.mp hnext
  cases hpair
  refine ⟨(Conn.skip_zero _).symm, ?_, rfl, Nat.zero_le _, le_rfl⟩
  exact Disk.content_eq_some.mpr (Disk.openOut_sets hd).at

/-- The file is filled, and the index has a record of it. -/
structure Entered (env : Env) (p : Bytes) (c : Conn) (u f : Bytes) (size : UInt64)
    (m : (Local × ℕ) × Store) : Prop where
  filled : ∃ k, Filled env p c size.toNat k m
  recorded : ∃ record, m.2.index.entry (normalizePath (indexDir u)) f = some record ∧
    record.size = size

variable {u f : Bytes} {size : UInt64}

lemma Entered.frame {o : Call} {r : Answer o} (h : Entered env p c u f size m)
    (hm : counted env o m r = some m') (ho : o.isConn = false) (hd : o.writesDisk = false)
    (hi : o.writesIndex = false) : Entered env p c u f size m' := by
  obtain ⟨k, hfilled⟩ := h.filled
  refine ⟨⟨k, hfilled.frame hm ho hd⟩, ?_⟩
  obtain ⟨⟨l, j⟩, s⟩ := m
  obtain ⟨⟨l', j'⟩, s'⟩ := m'
  rw [next_index (Monitor.watch_eq_some.mp hm).1 hi]
  exact h.recorded

lemma Filled.entered {time : Bytes} (h : Filled env p c size.toNat k m)
    (hm : counted env (.addFile (indexDir u) f size time) m (.ok ()) = some m') :
    Entered env p c u f size m' := by
  refine ⟨⟨k, h.frame hm rfl rfl⟩, ?_⟩
  obtain ⟨⟨l, j⟩, s⟩ := m
  obtain ⟨⟨l', j'⟩, s'⟩ := m'
  cases (Monitor.watch_eq_some.mp hm).1
  refine ⟨⟨f, size, time⟩, ?_, rfl⟩
  rw [Index.addFile, Index.entry_put, if_pos ⟨rfl, rfl⟩]

end Loop

section Upload

variable {p u f : Bytes} {size : UInt64} {m : (Local × ℕ) × Store}

lemma saveLocked_stores : Yields env (saveLocked u f p size)
    (fun m' => Entered env p m.1.1.conn u f size m') m := by
  refine yields_bind ⟨trivial, fun opened m₁ hopen => ?_⟩
  rintro _ ⟨⟩
  cases opened with
  | false =>
    refine yields_of_false fun _ _ => yields_of_false fun _ _ => yields_of_false fun _ _ =>
      yields_of_false fun _ _ => yields_false
  | true =>
    have hfilled := Filled.opened hopen
    refine yields_call (fun r => ⟨r, rfl⟩) (fun r m' hm => hfilled.frame hm rfl rfl)
      fun _ m₂ hfilled => ?_
    refine yields_bind (safe_mono (receiveLoop_fills le_rfl hfilled (fun _ => rfl)) ?_)
    rintro r m₃ hread b rfl
    cases b with
    | false =>
      refine yields_of_false fun _ _ => yields_of_false fun _ _ => yields_of_false fun _ _ =>
        yields_of_false fun _ _ => yields_false
    | true =>
      obtain ⟨k, hfilled⟩ := hread rfl
      rw [Nat.zero_add] at hfilled
      refine yields_call (fun r => ⟨.ok r, rfl⟩) (fun r m' hm => hfilled.closed hm)
        fun _ m₄ ⟨k, hfilled⟩ => ?_
      refine ⟨trivial, fun time m₅ htime => ?_⟩
      have hfilled := hfilled.frame htime rfl rfl
      refine yields_bind ⟨trivial, fun r m₆ hadd => ?_⟩
      rcases r with e | _
      · nofun
      rintro _ ⟨⟩
      have hentered := hfilled.entered hadd
      refine yields_call (fun r => ⟨r, rfl⟩) (fun r m' hm => hentered.frame hm rfl rfl rfl)
        fun _ m₇ hentered => ?_
      refine yields_call (fun r => ⟨.ok r, rfl⟩) (fun r m' hm => hentered.frame hm rfl rfl rfl)
        fun _ m₈ hentered => ?_
      refine yields_call (fun r => ⟨.ok r, rfl⟩) (fun r m' hm => hentered.frame hm rfl rfl rfl)
        fun _ m₉ hentered => ?_
      exact fun _ => hentered

def Unread (c : Conn) (m : (Local × ℕ) × Store) : Prop := m.1.1.conn = c

lemma Unread.frame {c : Conn} {o : Call} {r : Answer o} {m' : (Local × ℕ) × Store} (h : Unread c m)
    (hm : counted env o m r = some m') (ho : o.isConn = false) : Unread c m' := by
  obtain ⟨⟨l, j⟩, s⟩ := m
  obtain ⟨⟨l', j'⟩, s'⟩ := m'
  exact (next_conn (Monitor.watch_eq_some.mp hm).1 ho).trans h

lemma yields_pathAppend {x y : Bytes} {g : Bytes → Code Bool} {c : Conn}
    {Q : (Local × ℕ) × Store → Prop}
    (h : Unread c m) (hg : ∀ m', Unread c m' → Yields env (g (append x y)) Q m') :
    Yields env ((Sys.pathAppend x y).bind g) Q m := by
  refine yields_bind ⟨trivial, fun r m₁ hm => ?_⟩
  have hunread := h.frame hm rfl
  obtain rfl | ⟨e, rfl⟩ := pathAppend_answer (Monitor.watch_eq_some.mp hm).1
  · rintro _ ⟨⟩
    exact hg _ hunread
  · nofun

lemma saveInto_stores {c : Conn} (h : Unread c m) : Yields env (saveInto u f (userDir u) size)
    (fun m' => Entered env (filePath u f) c u f size m') m := by
  rw [saveInto]
  split
  · exact yields_of_false fun _ _ => yields_of_false fun _ _ => yields_false
  refine yields_pathAppend h fun m₁ h => ?_
  refine yields_call (fun r => ⟨r, rfl⟩) (fun r m' hm => h.frame hm rfl) fun _ m₂ h => ?_
  refine yields_call (fun r => ⟨.ok r, rfl⟩) (fun r m' hm => h.frame hm rfl) fun _ m₃ h => ?_
  obtain rfl : m₃.1.1.conn = c := h
  exact yields_tryCatch saveLocked_stores fun _ _ => yields_of_false fun _ _ => yields_throw _

lemma ensureDir_unread {c : Conn} {dir : Bytes} (h : Unread c m) :
    Safe (counted env) (fun _ _ => True) (ensureDir dir) (fun _ m' => Unread c m') m := by
  refine safe_bind.mpr ⟨trivial, fun r m₁ hm => ?_⟩
  have h := h.frame hm rfl
  rcases r with e | b
  · exact h
  cases b with
  | true => exact h
  | false =>
    refine ⟨trivial, fun r m₂ hm => ?_⟩
    have h := h.frame hm rfl
    exact (safe_ofExcept r).mpr h

lemma saveFile_stores {c : Conn} (h : Unread c m) : Yields env (saveFile u f size)
    (fun m' => Entered env (filePath u f) c u f size m') m := by
  refine yields_tryCatch ?_ fun _ _ => yields_of_false fun _ _ =>
    yields_of_false fun _ _ => yields_false
  refine yields_pathAppend h fun m₁ h => ?_
  refine yields_bind (safe_mono (ensureDir_unread h) ?_)
  intro r m₂ h b _
  exact saveInto_stores h

lemma dispatch_stores (host : Endian) (user : Bytes) (req : Request) (payload : Bytes)
    (hcmd : req.header.command = CommandType.upload.code) (l : Local) (j : ℕ) (s : Store) :
    Safe (counted env) (fun _ _ => True) (dispatch host user req payload) (fun r m' => Created r →
      Entered env (filePath user req.filename) l.conn user req.filename req.header.payloadLength m')
      ((l, j), s) := by
  rw [dispatch_upload hcmd, upload]
  split
  · refine safe_bind.mpr (safe_bind.mpr (safe_of_forall (fun _ _ => trivial) ?_))
    rintro (e | _) m'
    · exact fun h => (not_created_error h).elim
    · exact fun h => absurd (created_respond.mp h) (by decide)
  · refine safe_bind.mpr (safe_bind_of (saveFile_stores (u := user) rfl) ?_)
    rintro (e | b) m' h
    · exact fun h => (not_created_error h).elim
    cases b with
    | true => exact fun _ => h rfl
    | false => exact fun h => absurd (created_respond.mp h) (by decide)

end Upload

/-- An upload that is answered 201 is stored exactly if the calls on its output file have left as
many bytes there as it announced. -/
theorem created_stored_iff (env : Env) (host : Endian) (user : Bytes) (req : Request)
    (payload : Bytes) (hcmd : req.header.command = CommandType.upload.code) (l : Local) (s : Store)
    (r : Except Exn (Reply × Bytes)) (l' : Local) (n : ℕ) (s' : Store)
    (hrun : Steps (counted env) (dispatch host user req payload, ((l, 0), s))
      (Prog.ofExcept r, ((l', n), s'))) (hr : Created r) :
    Stored env user req l s' ↔ n = req.header.payloadLength.toNat := by
  obtain ⟨⟨k, hfilled⟩, hrecorded⟩ :=
    safe_result (dispatch_stores host user req payload hcmd l 0 s) hrun hr
  obtain rfl : n = k := hfilled.kept
  have hcontent := hfilled.content
  constructor
  · intro h
    have hlen := congrArg List.length (Option.some.inj (hcontent.symm.trans h.content))
    have harrived := hfilled.arrived
    have hle := hfilled.le
    rw [List.length_take, List.length_take] at hlen
    omega
  · rintro rfl
    exact ⟨hcontent, hfilled.arrived, hrecorded⟩

def isCreated : Code (Reply × Bytes) → Bool
  | .pure (.message header _, _) => header.status == StatusCode.created.code
  | _ => false

lemma exists_of_isCreated {p : Code (Reply × Bytes)} (h : isCreated p = true) :
    ∃ r, p = Prog.ofExcept r ∧ Created r := by
  cases p with
  | pure a =>
    obtain ⟨reply, user'⟩ := a
    cases reply with
    | message header body => exact ⟨.ok _, rfl, header, body, user', rfl, eq_of_beq h⟩
    | streamed => cases h
    | ended => cases h
  | throw e => cases h
  | op o k => cases h

/-- An upload of the byte `a` by bob, on an empty disk, with the given answers. -/
def uploaded (env : Env) (pick : (o : Call) → (Local × ℕ) × Store → Answer o) :
    Option (Prog.Running Call Answer Exn (Reply × Bytes) ((Local × ℕ) × Store)) :=
  follow pick (counted env) 100 (dispatch .little (bytes "bob") oneByte [])
    ((.fresh 0 (bytes "a") false, 0), .fresh (.ofDir [driveRoot 0x43]))

theorem created_stored_one : ∃ r m,
    uploaded .atRoot (fun o m => oblige .atRoot o (m.1.1, m.2)) = some (Prog.ofExcept r, m) ∧
      Created r ∧ Stored .atRoot (bytes "bob") oneByte (.fresh 0 (bytes "a") false) m.2 := by
  have hend : (uploaded .atRoot (fun o m => oblige .atRoot o (m.1.1, m.2))).any
      (fun c => isCreated c.1 && c.2.1.2 == 1) = true := by decide +kernel
  obtain ⟨⟨p, ⟨l, n⟩, s⟩, hrun, hcheck⟩ := (Option.any_eq_true _ _).mp hend
  obtain ⟨hcreated, hn⟩ := Bool.and_eq_true_iff.mp hcheck
  obtain ⟨r, rfl, hr⟩ := exists_of_isCreated hcreated
  refine ⟨r, _, hrun, hr, ?_⟩
  exact (created_stored_iff .atRoot .little (bytes "bob") oneByte [] rfl _ _ r l n s
    (steps_of_follow hrun) hr).mpr (eq_of_beq hn)

def fullDisk : Env := ⟨Env.atRoot.cwd, { Faults.none with write := true }⟩

/-- A write that fails is not noticed. -/
theorem created_not_stored : ¬ ∀ (env : Env) (host : Endian) (user : Bytes) (req : Request)
    (payload : Bytes), req.header.command = CommandType.upload.code → ∀ (l : Local) (s : Store)
    (r : Except Exn (Reply × Bytes)) (l' : Local) (n : ℕ) (s' : Store),
    Steps (counted env) (dispatch host user req payload, ((l, 0), s))
      (Prog.ofExcept r, ((l', n), s')) → Created r → Stored env user req l s' := by
  intro hall
  have hend : (uploaded fullDisk (fun o m => match o with
      | .write _ _ => some 0
      | o => oblige fullDisk o (m.1.1, m.2))).any
      (fun c => isCreated c.1 && (c.2.2.disk.content
        (fileLoc fullDisk (bytes "bob") (bytes "x")) != some (bytes "a"))) = true := by
          decide +kernel
  obtain ⟨⟨p, ⟨l, n⟩, s⟩, hrun, hcheck⟩ := (Option.any_eq_true _ _).mp hend
  obtain ⟨hcreated, hcontent⟩ := Bool.and_eq_true_iff.mp hcheck
  obtain ⟨r, rfl, hr⟩ := exists_of_isCreated hcreated
  have hstored := hall fullDisk .little (bytes "bob") oneByte [] rfl _ _ r l n s
    (steps_of_follow hrun) hr
  exact bne_iff_ne.mp hcontent hstored.content

end Mtfss.StoredUpload
