import Mtfss.Common.ByteOrder
import Mtfss.Common.NetworkUtils

/-! The wire protocol: commands, status codes, and the four ways of moving a message. -/

namespace Mtfss

open Effects ByteOrder

inductive CommandType
  | login
  | upload
  | download
  | list
  | deleteF
  | rename
  | quit
  deriving DecidableEq

def CommandType.code : CommandType → UInt32
  | .login => 1
  | .upload => 2
  | .download => 3
  | .list => 4
  | .deleteF => 5
  | .rename => 6
  | .quit => 7

/-- The named command behind a number; any other number is a value without a name. -/
def CommandType.ofCode (c : UInt32) : Option CommandType :=
  if c = 1 then some .login
  else if c = 2 then some .upload
  else if c = 3 then some .download
  else if c = 4 then some .list
  else if c = 5 then some .deleteF
  else if c = 6 then some .rename
  else if c = 7 then some .quit
  else none

lemma CommandType.ofCode_eq_some (c : UInt32) (t : CommandType) :
    CommandType.ofCode c = some t ↔ c = t.code := by
  constructor
  · intro h
    unfold CommandType.ofCode at h
    split_ifs at h with h₁ h₂ h₃ h₄ h₅ h₆ h₇ <;> cases h <;> assumption
  · rintro rfl
    cases t <;> rfl

inductive StatusCode
  | ok
  | created
  | badRequest
  | notFound
  | conflict
  | internalError
  deriving DecidableEq

def StatusCode.code : StatusCode → UInt32
  | .ok => 200
  | .created => 201
  | .badRequest => 400
  | .notFound => 404
  | .conflict => 409
  | .internalError => 500

lemma StatusCode.code_injective : Function.Injective StatusCode.code := by
  intro a b h
  cases a <;> cases b <;> first | rfl | exact absurd h (by decide)

structure MessageHeader where
  command : UInt32
  status : UInt32
  payloadLength : UInt64
  filenameLength : UInt64
  usernameLength : UInt64
  deriving DecidableEq

def makeRequest (cmd : CommandType) (payloadLen filenameLen usernameLen : ℕ) : MessageHeader :=
  ⟨cmd.code, 0, .ofNat payloadLen, .ofNat filenameLen, .ofNat usernameLen⟩

def makeResponse (cmd : UInt32) (status : StatusCode) (payloadLen : UInt64) : MessageHeader :=
  ⟨cmd, status.code, payloadLen, 0, 0⟩

def commandToString (cmd : UInt32) : Bytes :=
  match CommandType.ofCode cmd with
  | some .login => bytes "LOGIN"
  | some .upload => bytes "UPLOAD"
  | some .download => bytes "DOWNLOAD"
  | some .list => bytes "LIST"
  | some .deleteF => bytes "DELETE"
  | some .rename => bytes "RENAME"
  | some .quit => bytes "QUIT"
  | none => bytes "UNKNOWN"

def statusToString (status : UInt32) : Bytes :=
  if status = 200 then bytes "200 OK"
  else if status = 201 then bytes "201 Created"
  else if status = 400 then bytes "400 Bad Request"
  else if status = 404 then bytes "404 Not Found"
  else if status = 409 then bytes "409 Conflict"
  else if status = 500 then bytes "500 Internal Error"
  else bytes "??? Unknown"

def headerMemory (host : Endian) (h : MessageHeader) : Bytes :=
  mem32 host h.command ++ mem32 host h.status ++ mem64 host h.payloadLength ++
    mem64 host h.filenameLength ++ mem64 host h.usernameLength

/-- The header that a host reads in 32 bytes of its memory. -/
def headerOfMemory (host : Endian) (bs : Bytes) : MessageHeader where
  command := load32 host (bs.take 4)
  status := load32 host ((bs.drop 4).take 4)
  payloadLength := load64 host ((bs.drop 8).take 8)
  filenameLength := load64 host ((bs.drop 16).take 8)
  usernameLength := load64 host ((bs.drop 24).take 8)

def MessageHeader.swap (host : Endian) (h : MessageHeader) : MessageHeader where
  command := htonl host h.command
  status := htonl host h.status
  payloadLength := htonll host h.payloadLength
  filenameLength := htonll host h.filenameLength
  usernameLength := htonll host h.usernameLength

def sendHeader (host : Endian) (h : MessageHeader) : Code Bool :=
  sendAll (headerMemory host (h.swap host))

def recvHeader (host : Endian) : Code (Option MessageHeader) := do
  match ← recvAll 32 with
  | none => pure none
  | some bs => pure (some ((headerOfMemory host bs).swap host))

/-- A `resize` of a string, then `recv_all` into it; nothing is read for a length of zero. -/
def recvField (length : UInt64) : Code (Option Bytes) :=
  if 0 < length then do
    Sys.alloc length.toNat
    recvAll length.toNat
  else pure (some [])

def sendField (length : UInt64) (field : Bytes) : Code Bool :=
  if 0 < length then sendAll (field.take length.toNat) else pure true

def sendMessageMeta (host : Endian) (h : MessageHeader) (username filename : Bytes) :
    Code Bool := do
  if !(← sendHeader host h) then pure false
  else if !(← sendField h.usernameLength username) then pure false
  else sendField h.filenameLength filename

/-- `payload` is `none` for a null pointer. -/
def sendMessage (host : Endian) (h : MessageHeader) (username filename : Bytes)
    (payload : Option Bytes) : Code Bool := do
  if !(← sendHeader host h) then pure false
  else if !(← sendField h.usernameLength username) then pure false
  else if !(← sendField h.filenameLength filename) then pure false
  else
    match payload with
    | some data => if 0 < h.payloadLength then sendAll data else pure true
    | none => pure true

structure Request where
  header : MessageHeader
  username : Bytes
  filename : Bytes
  deriving DecidableEq

def recvMessageMeta (host : Endian) : Code (Option Request) := do
  match ← recvHeader host with
  | none => pure none
  | some h =>
    match ← recvField h.usernameLength with
    | none => pure none
    | some username =>
      match ← recvField h.filenameLength with
      | none => pure none
      | some filename => pure (some ⟨h, username, filename⟩)

def recvMessage (host : Endian) : Code (Option (Request × Bytes)) := do
  match ← recvHeader host with
  | none => pure none
  | some h =>
    match ← recvField h.usernameLength with
    | none => pure none
    | some username =>
      match ← recvField h.filenameLength with
      | none => pure none
      | some filename =>
        match ← recvField h.payloadLength with
        | none => pure none
        | some payload => pure (some (⟨h, username, filename⟩, payload))

end Mtfss
