import Mtfss.Client.Uploading
import Mtfss.System.Oblige

/-! An upload sends what it announces if and only if its reads of the local file give that much. -/

namespace Mtfss.AnnouncedUpload

open Effects Uploading

def announcement (u : Client) (filename : Bytes) (size : UInt64) : Bytes :=
  wireMeta (makeRequest .upload size.toNat filename.length u.username.length) u.username filename

/-- Since `c₀` the client has sent an announcement and exactly the bytes that it announces. -/
def SentAsAnnounced (u : Client) (filename : Bytes) (c₀ : Conn) (size : UInt64) (c : Conn) : Prop :=
  ∃ data, c.sent = c₀.sent ++ announcement u filename size ++ data ∧ data.length = size.toNat

def WaitsAfter (u : Client) (filename : Bytes) (c₀ : Conn) (v : Conn × Upload) : Prop :=
  SentAsAnnounced u filename c₀ v.2.size v.1 ↔ v.2.exact = true

def allow (u : Client) (filename : Bytes) (c₀ : Conn) : Call → Conn × Upload → Prop
  | .recv _, v => WaitsAfter u filename c₀ v
  | _, _ => True

def Disconnected (r : Except Exn (Bool × Client)) : Prop :=
  ∃ u', r = .ok (false, u') ∧ u'.connected = false

def Ends (r : Except Exn (Bool × Client)) (v : Conn × Upload) : Prop :=
  v.2.opened = true → v.2.waiting = false → (Disconnected r ↔ v.2.buffered = true)

section Loop

/-- Where the read loop stands: at or before the announced size with all reads exact, past it, or
before it at the end of the stream. -/
def Level (size sent : ℕ) (good exact : Bool) : Prop :=
  exact = true ∧ sent ≤ size ∧ (good = true ∨ sent = size) ∨
    exact = false ∧ (size < sent ∨ sent < size ∧ good = false)

lemma level_read {size sent count : ℕ} {exact : Bool} {r : Bytes × Bool}
    (h : Level size sent true exact) (hsent : sent < size) (hle : r.1.length ≤ count)
    (hgood : r.2 = true → r.1.length = count) :
    Level size (sent + r.1.length) r.2 (exact && exactRead size sent count r) := by
  obtain ⟨bs, good⟩ := r
  obtain ⟨rfl, -, -⟩ | ⟨-, hover | ⟨-, h⟩⟩ := h
  · simp only [Level, exactRead, Bool.true_and, Bool.and_eq_true, beq_iff_eq, Bool.or_eq_true,
      Bool.and_eq_false_iff, beq_eq_false_iff_ne, Bool.or_eq_false_iff] at hle hgood ⊢
    cases good <;> simp only [true_implies, Bool.false_eq_true, false_or, true_or, and_true,
      false_implies, true_and, false_and, or_false, reduceCtorEq] at hgood ⊢ <;> omega
  · omega
  · cases h

lemma not_exactRead_nil {size sent count : ℕ} {good : Bool} (hsent : sent < size)
    (hcount : 0 < count) : exactRead size sent count ([], good) = false := by
  simp only [exactRead, List.length_nil, Bool.and_eq_false_iff, beq_eq_false_iff_ne]
  omega

variable {u : Client} {filename : Bytes} {c₀ c : Conn} {t : Upload}

def SameBut (t t' : Upload) : Prop := t' = { t with exact := t'.exact }

lemma safe_uploadLoop (filepath base data : Bytes) (good : Bool) {fuel : ℕ}
    (hfuel : t.size.toNat < fuel + data.length) (hsent : c.sent = base ++ data)
    (hlevel : Level t.size.toNat data.length good t.exact) :
    Safe view (allow u filename c₀) (Client.uploadLoop filepath t.size.toNat fuel data.length good)
      (fun r v => SameBut t v.2 ∧
        (r = .ok false ∨ r = .ok true ∧ ∃ data', v.1.sent = base ++ data' ∧
        (data'.length = t.size.toNat ↔ v.2.exact = true))) (c, t) := by
  induction fuel generalizing data c t good with
  | zero =>
    refine ⟨rfl, Or.inr ⟨rfl, data, hsent, ?_⟩⟩
    obtain ⟨-, hle, -⟩ | ⟨he, -⟩ := hlevel
    · omega
    · rw [he]
      simp
      omega
  | succ fuel ih =>
    rw [Client.uploadLoop]
    split
    swap
    · rename_i hover
      refine ⟨rfl, Or.inr ⟨rfl, data, hsent, ?_⟩⟩
      obtain ⟨he, hle, -⟩ | ⟨he, hlt | ⟨hlt, -⟩⟩ := hlevel
      · exact ⟨fun _ => he, fun _ => by omega⟩
      · rw [he]
        exact ⟨fun h => by omega, nofun⟩
      · omega
    rename_i hlt
    cases good with
    | false =>
      refine ⟨rfl, Or.inr ⟨rfl, data, hsent, ?_⟩⟩
      obtain ⟨-, -, h | h⟩ | ⟨he, -⟩ := hlevel
      · cases h
      · omega
      · rw [he]
        exact ⟨fun h => by omega, nofun⟩
    | true =>
      refine ⟨trivial, fun r v hr => ?_⟩
      rw [view, Option.ite_none_right_eq_some] at hr
      obtain ⟨⟨hle, hgood⟩, ⟨⟩⟩ := hr
      have hnext := level_read hlevel hlt hle hgood
      obtain ⟨buffer, good'⟩ := r
      simp only [Prog.bind_pure_left]
      split
      · rename_i hnil
        subst hnil
        refine ⟨rfl, Or.inr ⟨rfl, data, hsent, ?_⟩⟩
        simp only [after, not_exactRead_nil hlt (show 0 < TRANSFER_BUFFER_SIZE by decide),
          Bool.and_false, Bool.false_eq_true, iff_false]
        omega
      · rename_i hne
        have hpos := List.length_pos_of_ne_nil hne
        refine safe_bind_of (safe_sendAll sending (fun _ _ _ => trivial) buffer) ?_
        rintro r v (⟨rfl, rfl⟩ | ⟨rfl, -, -, rfl⟩)
        · rw [safeBind_ok, if_pos rfl, ← List.length_append]
          refine safe_mono (ih (t := after (.read filepath data.length TRANSFER_BUFFER_SIZE) t
            (buffer, good')) (data ++ buffer) good' ?_ ?_ ?_) ?_
          · rw [List.length_append]
            simp only [after]
            omega
          · rw [Conn.sent_emit, sending_conn, hsent, List.append_assoc]
          · rw [List.length_append]
            exact hnext
          · rintro r v ⟨hsame, h⟩
            exact ⟨hsame, h⟩
        · exact ⟨rfl, Or.inl rfl⟩

end Loop

section Response

variable {u : Client} {filename : Bytes} {c₀ : Conn} {v v' : Conn × Upload}

def isReceiving : Call → Bool
  | .recv _ | .alloc _ | .print _ | .closesocket => true
  | _ => false

lemma calls_disconnect (u : Client) : (Client.disconnect u).Calls (fun _ _ => True)
    (fun o => isReceiving o = true) := by
  unfold Client.disconnect
  split
  · exact ⟨rfl, fun _ _ => ⟨rfl, fun _ _ => trivial⟩⟩
  · trivial

lemma calls_receiveResponse (host : Endian) (u : Client) :
    (Client.receiveResponse host u).Calls (fun _ _ => True) (fun o => isReceiving o = true) := by
  refine .bind (calls_recvMessage (fun _ => rfl) (fun _ => rfl) host) ?_
  rintro (_ | ⟨resp, payload⟩)
  · exact calls_disconnect u
  · exact ⟨rfl, fun _ _ => trivial⟩

lemma WaitsAfter.next {o : Call} {r : Answer o} (h : WaitsAfter u filename c₀ v)
    (ho : isReceiving o = true) (hr : view o v r = some v') : WaitsAfter u filename c₀ v' := by
  obtain ⟨c, t⟩ := v
  have hsame : ∀ v' : Conn × Upload, v'.1.sent = c.sent → v'.2.size = t.size →
      v'.2.exact = t.exact → WaitsAfter u filename c₀ v' := by
    intro v' hsent hsize hexact
    rw [WaitsAfter, SentAsAnnounced, hsent, hsize, hexact]
    exact h
  cases o with
  | recv count =>
    obtain ⟨c', hc, rfl⟩ := Option.map_eq_some_iff.mp hr
    refine hsame _ ?_ rfl rfl
    obtain rfl | ⟨bs, -, rfl⟩ := Conn.recv_cases hc
    · rfl
    · exact Conn.sent_consume c bs
  | alloc => cases hr; exact hsame _ rfl rfl rfl
  | print => cases hr; exact hsame _ rfl rfl rfl
  | closesocket => cases hr; exact hsame _ rfl rfl rfl
  | _ => cases ho

lemma waiting_next {o : Call} {r : Answer o} (ho : isReceiving o = true)
    (hr : view o v r = some v') (h : v.2.waiting = true) : v'.2.waiting = true := by
  cases o with
  | recv count =>
    obtain ⟨c', -, rfl⟩ := Option.map_eq_some_iff.mp hr
    rfl
  | alloc => cases hr; exact h
  | print => cases hr; exact h
  | closesocket => cases hr; exact h
  | _ => cases ho

lemma safe_receiveResponse (host : Endian) (h : WaitsAfter u filename c₀ v) :
    Safe view (allow u filename c₀) (Client.receiveResponse host u) Ends v := by
  have hcalls := calls_receiveResponse host u
  obtain ⟨k, hk⟩ : ∃ k, Client.receiveResponse host u = .op (.recv (toInt32 32)) k := ⟨_, rfl⟩
  rw [hk] at hcalls ⊢
  refine ⟨h, fun r v' hr => ?_⟩
  have hwaiting : v'.2.waiting = true := by
    obtain ⟨c', -, rfl⟩ := Option.map_eq_some_iff.mp hr
    rfl
  refine safe_mono (safe_of_calls (I := fun v => WaitsAfter u filename c₀ v ∧ v.2.waiting = true)
    (hcalls.2 r trivial) (fun _ _ _ _ _ => trivial) ?_ ?_ ⟨h.next rfl hr, hwaiting⟩) ?_
  · intro o v ho hv
    cases o with
    | recv count => exact hv.1
    | _ => trivial
  · intro o v r v' ho hr hv
    exact ⟨hv.1.next ho hr, waiting_next ho hr hv.2⟩
  · rintro r v ⟨-, hv⟩ - hnot
    cases hv.symm.trans hnot

lemma safe_disconnect (hu : u.connected = true) (h : v.2.buffered = true) :
    Safe view (allow u filename c₀) (Client.disconnect u) Ends v := by
  obtain ⟨c, t⟩ := v
  rw [Client.disconnect, if_pos hu]
  refine ⟨trivial, fun _ v hv => ?_⟩
  cases hv
  refine ⟨trivial, fun _ v hv => ?_⟩
  cases hv
  exact fun _ _ => ⟨fun _ => h, fun _ => ⟨_, rfl, rfl⟩⟩

end Response

section Upload

variable {u : Client} {filename : Bytes} {c₀ : Conn} {t : Upload}

lemma safe_sendFile (host : Endian) (filepath : Bytes) (hu : u.connected = true)
    (hb : t.buffered = true) (he : t.exact = true) :
    Safe view (allow u filename c₀) (Client.sendFile host filepath filename t.size u) Ends
      (c₀, t) := by
  refine ⟨trivial, fun _ v hv => ?_⟩
  cases hv
  simp only [Prog.bind_pure_left, after]
  refine safe_bind_of (safe_sendMessageMeta (S := sending) (fun _ _ _ => trivial) host _ _ _) ?_
  rintro r v (⟨rfl, rfl⟩ | ⟨rfl, -, -, rfl⟩)
  swap
  · exact safe_disconnect hu hb
  refine ⟨trivial, fun r v hv => ?_⟩
  cases hv
  cases r with
  | error e =>
    intro _ _
    refine ⟨?_, fun h => ?_⟩
    · rintro ⟨_, ⟨⟩, _⟩
    · simp only [after, hb, Except.isOk, Except.toBool, Bool.and_false, Bool.false_eq_true] at h
  | ok _ =>
    change Safe view _ ((Client.uploadLoop _ t.size.toNat (t.size.toNat + 1) 0 true).bind _) _ _
    refine safe_bind_of (safe_uploadLoop (c := c₀.emit (announcement u filename t.size))
      (t := after (.alloc TRANSFER_BUFFER_SIZE) t (.ok ())) filepath
      (c₀.sent ++ announcement u filename t.size) [] true (Nat.lt_succ_self _) (by simp)
      (Or.inl ⟨he, Nat.zero_le _, Or.inl rfl⟩)) ?_
    rintro r v ⟨hsame, rfl | ⟨rfl, data, hsent, hlen⟩⟩
    · refine safe_disconnect hu ?_
      rw [hsame, after, hb]
      rfl
    · refine safe_receiveResponse host ?_
      have hsize : v.2.size = t.size := by rw [hsame]; rfl
      rw [WaitsAfter, SentAsAnnounced, hsize, ← hlen]
      constructor
      · rintro ⟨data', hsent', hlen'⟩
        rw [List.append_cancel_left (hsent.symm.trans hsent')]
        exact hlen'
      · intro h
        exact ⟨data, hsent, h⟩

lemma safe_uploadFile (host : Endian) (filepath : Bytes) (u : Client) (c₀ : Conn) :
    Safe view (allow u (Paths.filename filepath) c₀) (Client.uploadFile host filepath u) Ends
      (c₀, .initial) := by
  unfold Client.uploadFile
  split
  · nofun
  rename_i hready
  have hu : u.connected = true := by
    simp only [Bool.or_eq_true, Bool.not_eq_true', not_or, Bool.not_eq_false] at hready
    exact hready.1
  refine ⟨trivial, fun r v hv => ?_⟩
  cases hv
  rcases r with e | _ | _
  · nofun
  · nofun
  refine ⟨trivial, fun r v hv => ?_⟩
  cases hv
  rcases r with e | _ | _
  · nofun
  · nofun
  refine ⟨trivial, fun r v hv => ?_⟩
  cases hv
  rcases r with e | size
  · nofun
  refine ⟨trivial, fun r v hv => ?_⟩
  cases hv
  cases r with
  | false => nofun
  | true =>
    exact safe_sendFile (t := ⟨size, true, true, true, false⟩) host filepath hu rfl rfl

end Upload

section Unopened

variable {u : Client} {c₀ : Conn} {v v' : Conn × Upload}

def isOpening : Call → Bool
  | .openIn _ => true
  | _ => false

lemma calls_uploadLoop (filepath : Bytes) (size fuel sent : ℕ) (good : Bool) :
    (Client.uploadLoop filepath size fuel sent good).Calls (fun _ _ => True)
      (fun o => isOpening o = false) := by
  induction fuel generalizing sent good with
  | zero => trivial
  | succ fuel ih =>
    rw [Client.uploadLoop]
    split
    swap
    · trivial
    cases good with
    | false => trivial
    | true =>
      refine ⟨rfl, fun r _ => ?_⟩
      obtain ⟨buffer, good⟩ := r
      simp only [Prog.bind_pure_left]
      split
      · trivial
      refine .bind (calls_sendAll (fun _ _ => rfl) buffer) ?_
      rintro (_ | _)
      · trivial
      · exact ih (sent + buffer.length) good

lemma calls_sendFile (host : Endian) (filepath filename : Bytes) (size : UInt64) (u : Client) :
    (Client.sendFile host filepath filename size u).Calls (fun _ _ => True)
      (fun o => isOpening o = false) := by
  have hreceiving : ∀ o, isReceiving o = true → isOpening o = false := by
    intro o ho
    cases o <;> first | rfl | cases ho
  have hdisconnect := (calls_disconnect u).mono hreceiving
  refine ⟨rfl, fun _ _ => ?_⟩
  simp only [Prog.bind_pure_left]
  refine .bind (calls_sendMessageMeta (fun _ _ => rfl) host _ _ _) ?_
  rintro (_ | _)
  · exact hdisconnect
  refine ⟨rfl, fun r _ => ?_⟩
  cases r with
  | error e => trivial
  | ok _ =>
    change Prog.Calls _ _ ((Client.uploadLoop filepath size.toNat (size.toNat + 1) 0 true).bind _)
    refine .bind (calls_uploadLoop filepath _ _ _ _) ?_
    rintro (_ | _)
    · exact hdisconnect
    · exact (calls_receiveResponse host u).mono hreceiving

lemma opened_next {o : Call} {r : Answer o} (ho : isOpening o = false)
    (hr : view o v r = some v') : v'.2.opened = v.2.opened := by
  obtain ⟨c, t⟩ := v
  cases o with
  | openIn path => cases ho
  | send data count =>
    obtain ⟨c', -, rfl⟩ := Option.map_eq_some_iff.mp hr
    rfl
  | recv count =>
    obtain ⟨c', -, rfl⟩ := Option.map_eq_some_iff.mp hr
    rfl
  | read path offset count =>
    obtain ⟨-, hv⟩ := Option.ite_none_right_eq_some.mp hr
    cases hv
    rfl
  | fileSize path =>
    cases hr
    cases r <;> rfl
  | _ =>
    cases hr
    rfl

/-- Nothing has been sent or received, and the client is as before. -/
def Untouched (u : Client) (c₀ : Conn) (r : Except Exn (Bool × Client)) (c : Conn) : Prop :=
  c = c₀ ∧ ∀ b u', r = .ok (b, u') → b = false ∧ u' = u

/-- An upload that has not opened its file has announced nothing. -/
lemma safe_unopened (host : Endian) (filepath : Bytes) (u : Client) (c₀ : Conn) :
    Safe view (fun _ _ => True) (Client.uploadFile host filepath u)
      (fun r v => v.2.opened = false → Untouched u c₀ r v.1) (c₀, .initial) := by
  have hfalse : Untouched u c₀ (.ok (false, u)) c₀ := by
    refine ⟨rfl, ?_⟩
    rintro b u' ⟨⟩
    exact ⟨rfl, rfl⟩
  have herror : ∀ e, Untouched u c₀ (.error e) c₀ := fun e => ⟨rfl, nofun⟩
  unfold Client.uploadFile
  split
  · exact fun _ => hfalse
  refine ⟨trivial, fun r v hv => ?_⟩
  cases hv
  rcases r with e | _ | _
  · exact fun _ => herror e
  · exact fun _ => hfalse
  refine ⟨trivial, fun r v hv => ?_⟩
  cases hv
  rcases r with e | _ | _
  · exact fun _ => herror e
  · exact fun _ => hfalse
  refine ⟨trivial, fun r v hv => ?_⟩
  cases hv
  rcases r with e | size
  · exact fun _ => herror e
  refine ⟨trivial, fun r v hv => ?_⟩
  cases hv
  cases r with
  | false => exact fun _ => hfalse
  | true =>
    refine safe_mono (safe_of_calls (I := fun v => v.2.opened = true)
      (calls_sendFile host filepath (Paths.filename filepath) size u) (fun _ _ _ _ _ => trivial)
      (fun _ _ _ _ => trivial) (fun o v r v' ho hr hv => (opened_next ho hr).trans hv) rfl) ?_
    intro r v hv hnot
    cases hv.symm.trans hnot

end Unopened

/-- Without read errors a read is exact if and only if the file has the announced size at that
moment, or both reach to the end of the buffer. -/
lemma exactRead_iff {env : Env} (hf : env.faults.read = false) {path content : Bytes}
    {offset count size : ℕ} {r : Bytes × Bool} {l l' : Local} {s s' : Store}
    (hcontent : s.disk.content (Paths.resolve env.cwd path) = some content) (hcount : 0 < count)
    (hlt : offset < size)
    (h : next env (.read path offset count) (l, s) r = some (l', s')) :
    exactRead size offset count r = true ↔
      content.length = size ∨ offset + count ≤ content.length ∧ offset + count ≤ size := by
  obtain ⟨bs, good⟩ := r
  simp only [next, hcontent, Option.getD_some, hf, Bool.false_eq_true, false_and, if_false] at h
  split at h
  · rename_i hr
    obtain ⟨rfl, rfl⟩ := hr
    simp only [exactRead, List.length_take, List.length_drop, Bool.and_eq_true, beq_iff_eq,
      Bool.or_eq_true, decide_eq_true_eq]
    omega
  · cases h

section Runs

/-- Thread `i` is the upload. The other threads are other programs of its machine, and do
anything. -/
def Starts (host : Endian) (filepath : Bytes) (u : Client) (l₀ : Local) (i j : ℕ)
    (x : Code (Bool × Client) × Local × Upload) : Prop :=
  j = i → x = (Client.uploadFile host filepath u, l₀, .initial)

def Waits (p : Code (Bool × Client)) : Prop := ∃ count k, p = .op (.recv count) k

abbrev Run (env : Env) (host : Endian) (filepath : Bytes) (u : Client) (l₀ : Local) (i : ℕ) :=
  Threads.Run (Starts host filepath u l₀ i) (after.watch (next env))

section Thread

variable {env : Env} {host : Endian} {filepath : Bytes} {u : Client} {l₀ l : Local} {s₀ : Store}
variable {i : ℕ} {c : Threads ℕ Call Answer Exn (Bool × Client) (Local × Upload) Store}
variable {p : Code (Bool × Client)} {t : Upload}

lemma safe_of_run (hrun : Run env host filepath u l₀ i (.idle s₀) c)
    (hi : c.thread i = some (p, l, t)) {allow : Call → Conn × Upload → Prop}
    {Q : Except Exn (Bool × Client) → Conn × Upload → Prop}
    (h : Safe view allow (Client.uploadFile host filepath u) Q (l₀.conn, .initial)) :
    Safe view allow p Q (l.conn, t) := by
  obtain ⟨⟨_, _⟩, ⟨rfl, rfl⟩, hsafe⟩ := Threads.safe_thread (views env) (fun p l hp => by
    cases hp rfl
    exact ⟨(l₀.conn, .initial), ⟨rfl, rfl⟩, h⟩) hrun hi
  exact hsafe

lemma sentAsAnnounced_iff (hrun : Run env host filepath u l₀ i (.idle s₀) c)
    (hi : c.thread i = some (p, l, t)) (hp : Waits p) :
    SentAsAnnounced u (Paths.filename filepath) l₀.conn t.size l.conn ↔ t.exact = true := by
  obtain ⟨count, k, rfl⟩ := hp
  exact (safe_of_run hrun hi (safe_uploadFile host filepath u l₀.conn)).1

lemma disconnected_iff (hrun : Run env host filepath u l₀ i (.idle s₀) c)
    {r : Except Exn (Bool × Client)}
    (hi : c.thread i = some (.ofExcept r, l, t)) (hopened : t.opened = true)
    (hnot : t.waiting = false) : Disconnected r ↔ t.buffered = true :=
  (safe_ofExcept r).mp (safe_of_run hrun hi (safe_uploadFile host filepath u l₀.conn)) hopened hnot

lemma untouched (hrun : Run env host filepath u l₀ i (.idle s₀) c) {r : Except Exn (Bool × Client)}
    (hi : c.thread i = some (.ofExcept r, l, t)) (hopened : t.opened = false) :
    Untouched u l₀.conn r l.conn :=
  (safe_ofExcept r).mp (safe_of_run hrun hi (safe_unopened host filepath u l₀.conn)) hopened

end Thread

/-- In every run the bytes sent are those announced, when the client waits for the response, if and
only if all reads of the local file were exact. Otherwise the client has disconnected, if and only
if there was a buffer, or it has not opened the file and has announced nothing. -/
theorem upload_announced_iff (env : Env) (host : Endian) (filepath : Bytes) (u : Client)
    (l₀ : Local) (s₀ : Store) (i : ℕ)
    (c : Threads ℕ Call Answer Exn (Bool × Client) (Local × Upload) Store)
    (hrun : Run env host filepath u l₀ i (.idle s₀) c) (p : Code (Bool × Client)) (l : Local)
    (t : Upload) (hi : c.thread i = some (p, l, t)) :
    (Waits p → (SentAsAnnounced u (Paths.filename filepath) l₀.conn t.size l.conn ↔
      t.exact = true)) ∧
    ∀ r, p = .ofExcept r →
      (t.opened = true → t.waiting = false → (Disconnected r ↔ t.buffered = true)) ∧
      (t.opened = false → Untouched u l₀.conn r l.conn) := by
  refine ⟨sentAsAnnounced_iff hrun hi, ?_⟩
  rintro r rfl
  exact ⟨disconnected_iff hrun hi, untouched hrun hi⟩

def bob : Client := ⟨true, bytes "bob"⟩

/-- The local file `x`, of one byte. -/
def localFile : Store := .fresh ((Disk.ofDir [Paths.driveRoot 0x43]).setFile
  [Paths.driveRoot 0x43, bytes "x"] (bytes "a") (by decide) (by decide))

def isWaiting : Code (Bool × Client) → Bool
  | .op (.recv _) _ => true
  | _ => false

lemma waits_of_isWaiting {p : Code (Bool × Client)} (h : isWaiting p = true) : Waits p := by
  cases p with
  | op o k =>
    cases o with
    | recv count => exact ⟨count, k, rfl⟩
    | _ => cases h
  | _ => cases h

/-- The next `n` calls of a thread, which all succeed. -/
def advance (n : ℕ) (p : Code (Bool × Client)) (m : (Local × Upload) × Store) :
    Option (Prog.Running Call Answer Exn (Bool × Client) ((Local × Upload) × Store)) :=
  follow (fun o m => oblige .atRoot o (m.1.1, m.2)) (after.watch (next .atRoot)) n p m

theorem upload_announced_one : ∃ c p l t,
    Run .atRoot .little (bytes "x") bob (.fresh 0 [] false) 0 (.idle localFile) c ∧
    c.thread 0 = some (p, l, t) ∧ Waits p ∧
      SentAsAnnounced bob (bytes "x") ⟨[], false, [], 0⟩ t.size l.conn := by
  have hend : (advance 11 (Client.uploadFile .little (bytes "x") bob)
      ((.fresh 0 [] false, .initial), localFile)).any
      (fun c => isWaiting c.1 && c.2.1.2.exact) = true := by decide +kernel
  obtain ⟨⟨p, ⟨l, t⟩, s⟩, hfollow, hcheck⟩ := (Option.any_eq_true _ _).mp hend
  obtain ⟨hwaits, hexact⟩ := Bool.and_eq_true_iff.mp hcheck
  have hrun : Run .atRoot .little (bytes "x") bob (.fresh 0 [] false) 0 (.idle localFile) _ :=
    Threads.run_thread (i := 0) rfl (fun _ => rfl) (steps_of_follow hfollow)
  have hi := Threads.set_thread_self (c := Threads.idle localFile) 0 (p, l, t) s
  exact ⟨_, p, l, t, hrun, hi, waits_of_isWaiting hwaits,
    ((upload_announced_iff .atRoot .little (bytes "x") bob _ localFile 0 _ hrun p l t hi).1
      (waits_of_isWaiting hwaits)).mpr hexact⟩

/-- Another program appends a byte to `x`. -/
def growth : Call := .write (bytes "x") (bytes "b")

def grower : Code (Bool × Client) := .op growth (fun _ => .pure (true, bob))

/-- A file that grows by a byte after its size was taken is sent with that byte. -/
theorem upload_not_announced : ¬ ∀ (env : Env) (host : Endian) (filepath : Bytes) (u : Client)
    (l₀ : Local) (s₀ : Store) (i : ℕ) c, Run env host filepath u l₀ i (.idle s₀) c →
    ∀ p l t, c.thread i = some (p, l, t) →
      (Waits p → SentAsAnnounced u (Paths.filename filepath) l₀.conn t.size l.conn) ∧
      ∀ r, p = .ofExcept r → t.opened = true → t.waiting = false → Disconnected r := by
  intro hall
  have hend : ((advance 5 (Client.uploadFile .little (bytes "x") bob)
      ((.fresh 0 [] false, .initial), localFile)).bind (fun c =>
        ((after.watch (next .atRoot)) growth ((.fresh 1 [] false, .initial), c.2.2) none).bind
          (fun m => advance 6 c.1 (c.2.1, m.2)))).any
      (fun c => isWaiting c.1 && !c.2.1.2.exact) = true := by decide +kernel
  obtain ⟨⟨p, ⟨l, t⟩, s⟩, hfollow, hcheck⟩ := (Option.any_eq_true _ _).mp hend
  obtain ⟨⟨p₁, ⟨l₁, t₁⟩, s₁⟩, hfirst, hfollow⟩ := Option.bind_eq_some_iff.mp hfollow
  obtain ⟨⟨⟨l₂, t₂⟩, s₂⟩, hgrow, hlast⟩ := Option.bind_eq_some_iff.mp hfollow
  obtain ⟨hwaits, hexact⟩ := Bool.and_eq_true_iff.mp hcheck
  have hrun₁ : Run .atRoot .little (bytes "x") bob (.fresh 0 [] false) 0 (.idle localFile) _ :=
    Threads.run_thread (i := 0) rfl (fun _ => rfl) (steps_of_follow hfirst)
  have hgrower : Steps (after.watch (next .atRoot)) (grower, ((.fresh 1 [] false, .initial), s₁))
      (.pure (true, bob), ((l₂, t₂), s₂)) := .single (.call none hgrow)
  have hother : Run .atRoot .little (bytes "x") bob (.fresh 0 [] false) 0
      ((Threads.idle localFile).set 0 (p₁, l₁, t₁) s₁) _ :=
    Threads.run_thread (i := 1) (Threads.set_thread_ne (by decide) _ _) nofun hgrower
  have hthread : (((Threads.idle localFile).set 0 (p₁, l₁, t₁) s₁).set 1
      (Prog.pure (true, bob), l₂, t₂) s₂).thread 0 = some (p₁, l₁, t₁) := by
    rw [Threads.set_thread_ne (by decide), Threads.set_thread_self]
  have hrun := (hrun₁.trans hother).trans (Threads.run_on hthread (steps_of_follow hlast))
  have hi := Threads.set_thread_self (c := ((Threads.idle localFile).set 0 (p₁, l₁, t₁) s₁).set 1
    (Prog.pure (true, bob), l₂, t₂) s₂) 0 (p, l, t) s
  have hwaits := waits_of_isWaiting hwaits
  have hsent := (hall .atRoot .little (bytes "x") bob _ localFile 0 _ hrun p l t hi).1 hwaits
  rw [(sentAsAnnounced_iff hrun hi hwaits).mp hsent] at hexact
  cases hexact

end Runs

end Mtfss.AnnouncedUpload
