import Mtfss.Common.Protocol
import Mtfss.Common.Transfer

/-! Messages on the wire: what the senders put there, and what the receivers take from it. -/

namespace Mtfss

open Effects ByteOrder

def wireHeader (h : MessageHeader) : Bytes :=
  be32 h.command ++ be32 h.status ++ be64 h.payloadLength ++ be64 h.filenameLength ++
    be64 h.usernameLength

@[simp] lemma wireHeader_length (h : MessageHeader) : (wireHeader h).length = 32 := by
  simp [wireHeader]

lemma headerMemory_swap (host : Endian) (h : MessageHeader) :
    headerMemory host (h.swap host) = wireHeader h := by
  simp only [headerMemory, MessageHeader.swap, mem32_htonl, mem64_htonll, wireHeader]

lemma headerOfMemory_headerMemory (host : Endian) (h : MessageHeader) :
    headerOfMemory host (headerMemory host h) = h := by
  obtain ⟨cmd, status, pl, fl, ul⟩ := h
  simp [headerOfMemory, headerMemory, List.drop_append, load32_mem32, load64_mem64,
    List.drop_eq_nil_of_le, List.take_of_length_le]

lemma swap_swap (host : Endian) (h : MessageHeader) : (h.swap host).swap host = h := by
  simp [MessageHeader.swap, htonl_htonl, htonll_htonll]

lemma headerOfMemory_wireHeader (host : Endian) (h : MessageHeader) :
    (headerOfMemory host (wireHeader h)).swap host = h := by
  rw [← headerMemory_swap host, headerOfMemory_headerMemory, swap_swap]

variable {σ : Type} {nx : Next Call Answer σ}

/-- `p` puts `data` on the wire, and fails only when the peer may be gone, after a part of it. -/
def Sends (W : Wired nx) (p : Code Bool) (data : Bytes) : Prop :=
  ∀ (Q : Except Exn Bool → σ → Prop) (s : σ), wp nx p Q s ↔
    Q (.ok true) (W.put s ((W.conn s).emit data)) ∧
    ((W.conn s).eof = true → ∀ k < data.length,
      Q (.ok false) (W.put s ((W.conn s).emit (data.take k))))

/-- `p` reads `data` from the wire as `a`, and reads what there is of it when the connection ends
before. -/
structure Receives {α : Type} (W : Wired nx) (p : Code (Option α)) (data : Bytes) (a : α) :
    Prop where
  whole : ∀ (Q : Except Exn (Option α) → σ → Prop) (s : σ), data <+: (W.conn s).input →
    (wp nx p Q s ↔ Q (.ok (some a)) (W.put s ((W.conn s).consume data)))
  cut : ∀ (Q : Except Exn (Option α) → σ → Prop) (s : σ), (W.conn s).input <+: data →
    (W.conn s).input.length < data.length → (W.conn s).eof = true →
      (wp nx p Q s ↔ Q (.ok none) (W.put s ((W.conn s).consume (W.conn s).input)))

def Allocates (nx : Next Call Answer σ) : Prop :=
  ∀ n (Q : Except Exn Unit → σ → Prop) s, wp nx (Sys.alloc n) Q s ↔ Q (.ok ()) s

lemma allocates_machine {env : Env} (h : env.faults.alloc = false) : Allocates (next env) := by
  intro n Q s
  simp [h]

section Sending

variable {W : Wired nx} {p q : Code Bool} {xs ys : Bytes}

lemma sends_sendAll (h : xs.length < 2 ^ 31) : Sends W (sendAll xs) xs :=
  fun _ _ => wp_sendAll W h

lemma sends_nothing : Sends W (.pure true) [] := by
  intro Q s
  simp

lemma Sends.seq (hp : Sends W p xs) (hq : Sends W q ys) :
    Sends W (p.bind (fun sent => if (!sent) = true then .pure false else q)) (xs ++ ys) := by
  intro Q s
  rw [wp_bind, hp]
  simp only [afterBind_ok, Bool.not_true, Bool.not_false, Bool.false_eq_true, if_false, if_true,
    wp_pure, hq _ (W.put s ((W.conn s).emit xs)), W.conn_put, W.put_put, Conn.emit_emit,
    Conn.emit_eof]
  constructor
  · rintro ⟨⟨hok, hlate⟩, hearly⟩
    refine ⟨hok, fun heof k hk => ?_⟩
    by_cases hkx : k < xs.length
    · simpa [List.take_append_of_le_length hkx.le] using hearly heof k hkx
    · have hky : k - xs.length < ys.length := by
        rw [List.length_append] at hk
        omega
      simpa [List.take_append, List.take_of_length_le (not_lt.mp hkx)] using hlate heof _ hky
  · rintro ⟨hok, hfail⟩
    refine ⟨⟨hok, fun heof k hk => ?_⟩, fun heof k hk => ?_⟩
    · have hlt : xs.length + k < (xs ++ ys).length := by simpa using hk
      simpa [List.take_append, List.take_of_length_le] using hfail heof _ hlt
    · have hlt : k < (xs ++ ys).length := by
        rw [List.length_append]
        omega
      simpa [List.take_append_of_le_length hk.le] using hfail heof k hlt

lemma sends_sendHeader (host : Endian) (h : MessageHeader) :
    Sends W (sendHeader host h) (wireHeader h) := by
  rw [sendHeader, headerMemory_swap]
  exact sends_sendAll (by simp)

lemma sends_sendField {length : UInt64} {field : Bytes} (hlen : length.toNat = field.length)
    (hsmall : field.length < 2 ^ 31) : Sends W (sendField length field) field := by
  unfold sendField
  split
  · rw [hlen, List.take_length]
    exact sends_sendAll hsmall
  · have hzero : field = [] := by
      apply List.eq_nil_of_length_eq_zero
      rename_i h
      rw [UInt64.lt_iff_toNat_lt] at h
      simpa [hlen] using h
    subst hzero
    exact sends_nothing

lemma wp_sendMessage_large {s : σ} (host : Endian) (h : MessageHeader) (hu : h.usernameLength = 0)
    (hf : h.filenameLength = 0) (hp : 0 < h.payloadLength) {payload : Bytes}
    (hlarge : 2 ^ 31 ≤ payload.length) (heof : (W.conn s).eof = false) :
    wp nx (sendMessage host h [] [] (some payload)) (fun r _ => r = .ok false) s := by
  have hnothing : ∀ n : UInt64, n = 0 → sendField n [] = .pure true := by
    rintro n rfl
    rfl
  rw [sendMessage, Prog.bind_eq, wp_bind, sends_sendHeader (W := W) host h]
  refine ⟨?_, fun h => ?_⟩
  · simp only [afterBind_ok, hnothing _ hu, hnothing _ hf, hp, if_true, Bool.not_true,
      Bool.false_eq_true, if_false, Prog.bind_eq, Prog.bind_pure_left]
    exact wp_mono (wp_sendAll_large W hlarge) (fun r _ h => h.1)
  · rw [heof] at h
    cases h

/-- What `send_message_meta` puts on the wire. -/
def wireMeta (h : MessageHeader) (username filename : Bytes) : Bytes :=
  wireHeader h ++ username.take h.usernameLength.toNat ++ filename.take h.filenameLength.toNat

section Safety

variable {S : Sending nx} {allow : Call → σ → Prop} {s : σ}

lemma safe_sendField (hallow : ∀ data count s, allow (.send data count) s) (n : UInt64)
    (field : Bytes) : Safe nx allow (sendField n field) (SendEnds S (field.take n.toNat) s) s := by
  unfold sendField
  split
  · exact safe_sendAll S hallow _
  · have hzero : n.toNat = 0 := by
      rename_i h
      rw [UInt64.lt_iff_toNat_lt] at h
      simpa using h
    exact Or.inl ⟨rfl, by simp [hzero]⟩

lemma SendEnds.next {sent data : Bytes} {r : Except Exn Bool} {t : σ}
    (h : SendEnds S data (S.put s ((S.conn s).emit sent)) r t) :
    SendEnds S (sent ++ data) s r t := by
  obtain ⟨rfl, rfl⟩ | ⟨rfl, k, hk, rfl⟩ := h
  · exact Or.inl ⟨rfl, by rw [S.conn_put, S.put_put, Conn.emit_emit]⟩
  · refine Or.inr ⟨rfl, sent.length + k, ?_, ?_⟩
    · rw [List.length_append]
      omega
    · rw [S.conn_put, S.put_put, Conn.emit_emit, List.take_append,
        List.take_of_length_le (Nat.le_add_right sent.length k), Nat.add_sub_cancel_left]

lemma SendEnds.stop {sent : Bytes} {t : σ} (h : SendEnds S sent s (.ok false) t) (data : Bytes) :
    SendEnds S (sent ++ data) s (.ok false) t := by
  obtain ⟨hr, -⟩ | ⟨-, k, hk, rfl⟩ := h
  · cases hr
  · refine Or.inr ⟨rfl, k, ?_, ?_⟩
    · rw [List.length_append]
      omega
    · rw [List.take_append_of_le_length hk.le]

lemma SendEnds.sent {sent : Bytes} {t : σ} (h : SendEnds S sent s (.ok true) t) :
    t = S.put s ((S.conn s).emit sent) := by
  obtain ⟨-, rfl⟩ | ⟨hr, -⟩ := h
  · rfl
  · cases hr

lemma SendEnds.ne_error {sent : Bytes} {e : Exn} {t : σ} : ¬ SendEnds S sent s (.error e) t := by
  rintro (⟨hr, -⟩ | ⟨hr, -⟩) <;> cases hr

lemma safe_sendMessageMeta (hallow : ∀ data count s, allow (.send data count) s) (host : Endian)
    (h : MessageHeader) (username filename : Bytes) :
    Safe nx allow (sendMessageMeta host h username filename)
      (SendEnds S (wireMeta h username filename) s) s := by
  refine safe_bind_of (safe_sendAll S hallow _) ?_
  rw [headerMemory_swap]
  rintro (e | _ | _) t ht
  · exact (SendEnds.ne_error ht).elim
  · exact (ht.stop _).stop _
  rw [ht.sent]
  refine safe_bind_of (safe_sendField (S := S) hallow _ _) ?_
  rintro (e | _ | _) t ht
  · exact (SendEnds.ne_error ht).elim
  · exact ht.next.stop _
  rw [ht.next.sent]
  exact safe_mono (safe_sendField hallow _ _) fun r t ht => ht.next

end Safety

end Sending

section Receiving

variable {W : Wired nx} {α β : Type} {p : Code (Option α)} {a : α} {xs ys : Bytes}

lemma prefix_of_append {xs ys zs : Bytes} (h : zs <+: xs ++ ys) (hlen : xs.length ≤ zs.length) :
    ∃ t, zs = xs ++ t ∧ t <+: ys := by
  obtain ⟨t, rfl⟩ := List.prefix_of_prefix_length_le (List.prefix_append xs ys) h hlen
  exact ⟨t, rfl, (List.prefix_append_right_inj xs).mp h⟩

lemma Receives.seq {k : Option α → Code (Option β)} {b : β} (hp : Receives W p xs a)
    (hnone : k none = .pure none) (hk : Receives W (k (some a)) ys b) :
    Receives W (p.bind k) (xs ++ ys) b where
  whole Q s h := by
    have hx : xs <+: (W.conn s).input := (List.prefix_append xs ys).trans h
    obtain ⟨rest, hrest⟩ := h
    rw [wp_bind, hp.whole _ s hx]
    simp only [afterBind_ok]
    rw [hk.whole _ (W.put s ((W.conn s).consume xs)) (by simp [← hrest, List.append_assoc])]
    simp [Conn.consume_consume]
  cut Q s h hlen heof := by
    rw [wp_bind]
    by_cases hx : (W.conn s).input.length < xs.length
    · have hpre : (W.conn s).input <+: xs :=
        List.prefix_of_prefix_length_le h (List.prefix_append xs ys) hx.le
      rw [hp.cut _ s hpre hx heof]
      simp only [afterBind_ok, hnone, wp_pure]
    · obtain ⟨t, ht, hty⟩ := prefix_of_append h (not_lt.mp hx)
      rw [hp.whole _ s (ht ▸ List.prefix_append xs t)]
      simp only [afterBind_ok]
      have hcut := hk.cut Q (W.put s ((W.conn s).consume xs))
      simp only [W.conn_put, W.put_put, Conn.consume_input, Conn.consume_eof, ht, List.drop_left,
        Conn.consume_consume] at hcut ⊢
      exact hcut hty (by simp [ht] at hlen; omega) heof

lemma Receives.last {k : Option α → Code (Option β)} {b : β} (hp : Receives W p xs a)
    (hnone : k none = .pure none) (hsome : k (some a) = .pure (some b)) :
    Receives W (p.bind k) xs b where
  whole Q s h := by
    rw [wp_bind, hp.whole _ s h, afterBind_ok, hsome, wp_pure]
  cut Q s h hlen heof := by
    rw [wp_bind, hp.cut _ s h hlen heof, afterBind_ok, hnone, wp_pure]

lemma receives_nothing : Receives W (.pure (some a)) [] a where
  whole Q s _ := by simp
  cut Q s _ hlen _ := by simp at hlen

lemma receives_recvAll (h : xs.length < 2 ^ 31) : Receives W (recvAll xs.length) xs xs where
  whole Q s hx := by
    obtain ⟨rest, hrest⟩ := hx
    rw [wp_recvAll W h (by simp [← hrest])]
    simp [← hrest]
  cut Q s _ hlen heof := wp_recvAll_short W h hlen heof

lemma receives_recvHeader (host : Endian) (h : MessageHeader) :
    Receives W (recvHeader host) (wireHeader h) h := by
  have hall : Receives W (recvAll 32) (wireHeader h) (wireHeader h) := by
    have hs : (wireHeader h).length < 2 ^ 31 := by simp
    simpa using receives_recvAll (W := W) hs
  refine hall.last rfl ?_
  simp only [headerOfMemory_wireHeader, Prog.pure_eq]

lemma receives_recvField (halloc : Allocates nx) {length : UInt64}
    (hlen : length.toNat = xs.length) (hsmall : xs.length < 2 ^ 31) :
    Receives W (recvField length) xs xs := by
  have hall := receives_recvAll (W := W) hsmall
  unfold recvField
  split
  · rw [hlen]
    constructor
    · intro Q s h
      rw [Prog.bind_eq, wp_bind, halloc, afterBind_ok, hall.whole _ s h]
    · intro Q s h hl heof
      rw [Prog.bind_eq, wp_bind, halloc, afterBind_ok, hall.cut _ s h hl heof]
  · have hzero : xs = [] := by
      apply List.eq_nil_of_length_eq_zero
      rename_i h
      rw [UInt64.lt_iff_toNat_lt] at h
      simpa [hlen] using h
    subst hzero
    exact receives_nothing

end Receiving

variable {W : Wired nx}

def Request.wire (r : Request) : Bytes := wireHeader r.header ++ (r.username ++ r.filename)

/-- The header tells the lengths of the names, which an `int` can count. -/
structure Request.Framed (r : Request) : Prop where
  username_length : r.header.usernameLength.toNat = r.username.length
  filename_length : r.header.filenameLength.toNat = r.filename.length
  username_small : r.username.length < 2 ^ 31
  filename_small : r.filename.length < 2 ^ 31

lemma sends_sendMessageMeta (host : Endian) {r : Request} (h : r.Framed) :
    Sends W (sendMessageMeta host r.header r.username r.filename) r.wire :=
  (sends_sendHeader host r.header).seq
    ((sends_sendField h.username_length h.username_small).seq
      (sends_sendField h.filename_length h.filename_small))

lemma receives_recvMessageMeta (halloc : Allocates nx) (host : Endian) {r : Request}
    (h : r.Framed) : Receives W (recvMessageMeta host) r.wire r :=
  (receives_recvHeader host r.header).seq rfl
    ((receives_recvField halloc h.username_length h.username_small).seq rfl
      ((receives_recvField halloc h.filename_length h.filename_small).last rfl rfl))

/-- A request or response whose header tells its lengths. -/
structure Packet extends Request where
  payload : Bytes
  username_length : header.usernameLength.toNat = username.length
  filename_length : header.filenameLength.toNat = filename.length
  payload_length : header.payloadLength.toNat = payload.length

def Packet.wire (m : Packet) : Bytes := m.toRequest.wire ++ m.payload

/-- A packet with lengths that an `int` can count. -/
structure Message extends Packet where
  username_small : username.length < 2 ^ 31
  filename_small : filename.length < 2 ^ 31
  payload_small : payload.length < 2 ^ 31

namespace Message

lemma framed (m : Message) : m.toRequest.Framed :=
  ⟨m.username_length, m.filename_length, m.username_small, m.filename_small⟩

lemma sends_payload (m : Message) : Sends W
    (if 0 < m.header.payloadLength then sendAll m.payload else .pure true) m.payload := by
  have h := sends_sendField (W := W) m.payload_length m.payload_small
  rwa [sendField, m.payload_length, List.take_length] at h

lemma sends_sendMessage (host : Endian) (m : Message) :
    Sends W (sendMessage host m.header m.username m.filename (some m.payload)) m.wire := by
  have h := (sends_sendHeader (W := W) host m.header).seq
    ((sends_sendField m.username_length m.username_small).seq
      ((sends_sendField m.filename_length m.filename_small).seq m.sends_payload))
  rw [Packet.wire, Request.wire, List.append_assoc, List.append_assoc]
  exact h

lemma sends_sendMessage_null (host : Endian) (m : Message) (h : m.payload = []) :
    Sends W (sendMessage host m.header m.username m.filename none) m.wire := by
  have hs := (sends_sendHeader (W := W) host m.header).seq
    ((sends_sendField m.username_length m.username_small).seq
      ((sends_sendField m.filename_length m.filename_small).seq sends_nothing))
  rw [Packet.wire, Request.wire, List.append_assoc, List.append_assoc, h]
  exact hs

lemma receives_recvMessage (halloc : Allocates nx) (host : Endian) (m : Message) :
    Receives W (recvMessage host) m.wire (m.toRequest, m.payload) := by
  rw [Packet.wire, Request.wire, List.append_assoc, List.append_assoc]
  exact (receives_recvHeader host m.header).seq rfl
    ((receives_recvField halloc m.username_length m.username_small).seq rfl
      ((receives_recvField halloc m.filename_length m.filename_small).seq rfl
        ((receives_recvField halloc m.payload_length m.payload_small).last rfl rfl)))

end Message

end Mtfss
