import Mtfss.Common.Framing

/-! Lists of messages, sent in either way and received in either way from a connection that ends
anywhere. -/

namespace Mtfss.FramingRoundTrip

open Effects

/-- How a message is sent: whole, with a null pointer for an empty payload, or the header and
names first and then the payload in chunks. -/
inductive SendMode (m : Message)
  | whole
  | null (h : m.payload = [])
  | streamed (chunks : List Bytes) (h : chunks.flatten = m.payload)

def sendChunks : List Bytes → Code Bool
  | [] => .pure true
  | chunk :: chunks => do
    if !(← sendAll chunk) then .pure false else sendChunks chunks

def sendAs (host : Endian) (m : Message) : SendMode m → Code Bool
  | .whole => sendMessage host m.header m.username m.filename (some m.payload)
  | .null _ => sendMessage host m.header m.username m.filename none
  | .streamed chunks _ => do
    if !(← sendMessageMeta host m.header m.username m.filename) then .pure false
    else sendChunks chunks

def sendMessages (host : Endian) : List (Σ m : Message, SendMode m) → Code Bool
  | [] => .pure true
  | ⟨m, mode⟩ :: rest => do
    if !(← sendAs host m mode) then .pure false else sendMessages host rest

inductive RecvMode
  | whole
  | streamed

def recvAs (host : Endian) : RecvMode → Code (Option (Request × Bytes))
  | .whole => recvMessage host
  | .streamed => do
    match ← recvMessageMeta host with
    | none => .pure none
    | some req =>
      match ← recvAll req.header.payloadLength.toNat with
      | none => .pure none
      | some payload => .pure (some (req, payload))

/-- One reception for each mode, until one returns `false`: the messages received, and whether
`false` was returned. -/
def recvMessages (host : Endian) : List RecvMode → Code (List (Request × Bytes) × Bool)
  | [] => .pure ([], false)
  | mode :: modes => do
    match ← recvAs host mode with
    | none => .pure ([], true)
    | some received =>
      let (rest, ended) ← recvMessages host modes
      .pure (received :: rest, ended)

def wireOf (ms : List Message) : Bytes := ms.flatMap (fun m => m.wire)

/-- The messages of `ms` that lie wholly inside the first `n` bytes on the wire. -/
def wholeWithin : ℕ → List Message → List Message
  | _, [] => []
  | n, m :: ms => if m.wire.length ≤ n then m :: wholeWithin (n - m.wire.length) ms else []

variable {σ : Type} {nx : Next Call Answer σ} {W : Wired nx}

lemma wire_length_pos (m : Message) : 0 < m.wire.length := by
  simp only [Packet.wire, Request.wire, List.length_append, wireHeader_length]
  omega

lemma sends_sendChunks {chunks : List Bytes} (h : chunks.flatten.length < 2 ^ 31) :
    Sends W (sendChunks chunks) chunks.flatten := by
  induction chunks with
  | nil => exact sends_nothing
  | cons chunk chunks ih =>
    rw [List.flatten_cons, List.length_append] at h
    have hc : Sends W (sendAll chunk) chunk := sends_sendAll (by omega)
    exact hc.seq (ih (by omega))

lemma sends_sendAs (host : Endian) (m : Message) (mode : SendMode m) :
    Sends W (sendAs host m mode) m.wire := by
  cases mode with
  | whole => exact m.sends_sendMessage host
  | null h => exact m.sends_sendMessage_null host h
  | streamed chunks h =>
    have hsmall := m.payload_small
    have hc : Sends W (sendChunks chunks) m.payload := by
      rw [← h] at hsmall ⊢
      exact sends_sendChunks hsmall
    exact (sends_sendMessageMeta host m.framed).seq hc

lemma sends_sendMessages (host : Endian) (ms : List (Σ m : Message, SendMode m)) :
    Sends W (sendMessages host ms) (wireOf (ms.map Sigma.fst)) := by
  induction ms with
  | nil => exact sends_nothing
  | cons m ms ih =>
    obtain ⟨m, mode⟩ := m
    exact (sends_sendAs host m mode).seq ih

lemma receives_recvAs (halloc : Allocates nx) (host : Endian) (mode : RecvMode)
    (m : Message) : Receives W (recvAs host mode) m.wire (m.toRequest, m.payload) := by
  cases mode with
  | whole => exact m.receives_recvMessage halloc host
  | streamed =>
    have hp : Receives W (recvAll m.header.payloadLength.toNat) m.payload m.payload := by
      rw [m.payload_length]
      exact receives_recvAll m.payload_small
    exact (receives_recvMessageMeta halloc host m.framed).seq rfl (hp.last rfl rfl)

lemma recvAs_ended (halloc : Allocates nx) (host : Endian) (mode : RecvMode)
    {Q : Except Exn (Option (Request × Bytes)) → σ → Prop} {s : σ}
    (hinput : (W.conn s).input = []) (heof : (W.conn s).eof = true) :
    wp nx (recvAs host mode) Q s ↔ Q (.ok none) s := by
  have m : Message := ⟨⟨⟨⟨0, 0, 0, 0, 0⟩, [], []⟩, [], rfl, rfl, rfl⟩, by simp, by simp, by simp⟩
  have h := (receives_recvAs (W := W) halloc host mode m).cut Q s (by simp [hinput])
    (by simpa [hinput] using wire_length_pos m) heof
  simpa [hinput] using h

lemma wp_recvMessages (halloc : Allocates nx) (host : Endian) (modes : List RecvMode)
    (ms : List Message) (n : ℕ) (s : σ)
    (hinput : (W.conn s).input = (wireOf ms).take n) (heof : (W.conn s).eof = true) :
    wp nx (recvMessages host modes)
      (fun r _ => r = .ok (((wholeWithin n ms).take modes.length).map
        (fun m => (m.toRequest, m.payload)), decide ((wholeWithin n ms).length < modes.length)))
      s := by
  induction modes generalizing ms n s with
  | nil => simp [recvMessages]
  | cons mode modes ih =>
    rw [recvMessages, Prog.bind_eq, wp_bind]
    cases ms with
    | nil =>
      rw [recvAs_ended (W := W) halloc host mode (by simp [hinput, wireOf]) heof]
      simp [wholeWithin]
    | cons m ms =>
      have hr := receives_recvAs (W := W) halloc host mode m
      have hwire : wireOf (m :: ms) = m.wire ++ wireOf ms := rfl
      rw [hwire] at hinput
      by_cases hlen : m.wire.length ≤ n
      · have hin : (W.conn s).input = m.wire ++ (wireOf ms).take (n - m.wire.length) := by
          rw [hinput, List.take_append, List.take_of_length_le hlen]
        have hrest := ih ms (n - m.wire.length) (W.put s ((W.conn s).consume m.wire))
          (by simp [hin]) (by simpa using heof)
        rw [hr.whole _ s ⟨_, hin.symm⟩]
        simp only [afterBind_ok, Prog.bind_eq, wp_bind]
        refine wp_mono hrest ?_
        rintro r t rfl
        simp [wholeWithin, hlen]
      · have hin : (W.conn s).input = m.wire.take n := by
          rw [hinput, List.take_append_of_le_length (by omega)]
        rw [hr.cut _ s (hin ▸ List.take_prefix n m.wire) (by simp [hin]; omega) heof]
        simp [wholeWithin, hlen]

/-- What is on the wire is the messages' fields in order, and any cut of it is received as the
messages it holds whole, however the two sides split their transfers and whatever their byte
orders are. -/
theorem framing_round_trip (env : Env) (halloc : env.faults.alloc = false)
    (sender receiver : Endian) (ms : List (Σ m : Message, SendMode m)) :
    (∀ l s, l.conn.eof = false → wp (next env) (sendMessages sender ms)
      (fun r t => r = .ok true ∧ t = ({ l with
        conn := l.conn.emit (ms.flatMap (fun m => ByteOrder.be32 m.1.header.command ++
          ByteOrder.be32 m.1.header.status ++ ByteOrder.be64 m.1.header.payloadLength ++
          ByteOrder.be64 m.1.header.filenameLength ++ ByteOrder.be64 m.1.header.usernameLength ++
          m.1.username ++ m.1.filename ++ m.1.payload)) }, s)) (l, s)) ∧
    (∀ (modes : List RecvMode) (n : ℕ) l s,
      l.conn.input = (wireOf (ms.map Sigma.fst)).take n → l.conn.eof = true →
      wp (next env) (recvMessages receiver modes)
        (fun r _ => r = .ok (((wholeWithin n (ms.map Sigma.fst)).take modes.length).map
          (fun m => (m.toRequest, m.payload)),
          decide ((wholeWithin n (ms.map Sigma.fst)).length < modes.length))) (l, s)) := by
  constructor
  · intro l s heof
    refine (sends_sendMessages (W := machine env) sender ms _ (l, s)).mpr ⟨⟨rfl, ?_⟩, fun h => ?_⟩
    · simp [wireOf, List.flatMap_map, Packet.wire, Request.wire, wireHeader]
    · simp [heof] at h
  · intro modes n l s hinput heof
    exact wp_recvMessages (W := machine env) (allocates_machine halloc) receiver modes _ n (l, s)
      hinput heof

def loginBob : Message :=
  ⟨⟨⟨makeRequest .login 0 0 3, [0x62, 0x6F, 0x62], []⟩, [], rfl, rfl, rfl⟩, by simp, by simp,
    by simp⟩

/-- Two requests of 35 bytes, cut after 40. -/
theorem framing_round_trip_login : wp (next .atRoot) (recvMessages .big [.whole, .streamed])
    (fun r _ => r = .ok ([(loginBob.toRequest, [])], true))
    (.fresh 0 ((wireOf [loginBob, loginBob]).take 40) true, .fresh (.ofDir [])) :=
  (framing_round_trip .atRoot rfl .little .big
    [⟨loginBob, .whole⟩, ⟨loginBob, .null rfl⟩]).2 [.whole, .streamed] 40 _ _ rfl rfl

end Mtfss.FramingRoundTrip
