import Mtfss.Server.FileManager

/-! `Server::handle_client`: the request loop of one connection. -/

namespace Mtfss

open Effects Relation

namespace Server

/-- The places where `handle_client` leaves its loop. -/
inductive Exit
  /-- `running_` is false -/
  | notRunning
  | requestLost
  | payloadLost
  | headerLost
  | streamFailed
  | quit
  | responseLost
  deriving DecidableEq

/-- How a round of the loop leaves the `switch`. -/
inductive Reply
  /-- by `break`, with the response still to be sent -/
  | message (header : MessageHeader) (payload : Bytes)
  /-- by `continue`, after a file has been streamed -/
  | streamed
  /-- by `goto session_end` -/
  | ended (exit : Exit)
  deriving DecidableEq

/-- A response with the length of its payload filled in. -/
def respond (cmd : UInt32) (status : StatusCode) (payload : Bytes) : Reply :=
  .message (makeResponse cmd status (.ofNat payload.length)) payload

def mustLogin (cmd : UInt32) : Reply := respond cmd .badRequest (bytes "Must LOGIN first")

def upload (user filename : Bytes) (cmd : UInt32) (size : UInt64) : Code Reply := do
  if user = [] then
    FileManager.discardData size
    pure (mustLogin cmd)
  else if ← FileManager.saveFile user filename size then
    pure (respond cmd .created (bytes "File uploaded successfully."))
  else
    pure (respond cmd .internalError (bytes "Failed to save file."))

def download (host : Endian) (user filename : Bytes) (cmd : UInt32) : Code Reply := do
  if user = [] then pure (mustLogin cmd)
  else
    let fileSize ← FileManager.getFileSize user filename
    if fileSize = -1 then pure (respond cmd .notFound (bytes "File not found."))
    else if !(← sendMessageMeta host (makeResponse cmd .ok fileSize) [] []) then
      pure (.ended .headerLost)
    else if !(← FileManager.streamFileToSocket user filename) then pure (.ended .streamFailed)
    else pure .streamed

def list (user : Bytes) (cmd : UInt32) : Code Reply := do
  if user = [] then pure (mustLogin cmd)
  else
    let listing ← FileManager.listFiles user
    pure (respond cmd .ok listing)

def delete (user filename : Bytes) (cmd : UInt32) : Code Reply := do
  if user = [] then pure (mustLogin cmd)
  else if ← FileManager.deleteFile user filename then
    pure (respond cmd .ok (bytes "File deleted successfully."))
  else
    pure (respond cmd .notFound (bytes "File not found or cannot be deleted."))

def rename (user filename newName : Bytes) (cmd : UInt32) : Code Reply := do
  if user = [] then pure (mustLogin cmd)
  else if ← FileManager.renameFile user filename newName then
    pure (respond cmd .ok (bytes "Renamed successfully."))
  else
    pure (respond cmd .notFound (bytes "File not found or new name conflicts."))

def quit (host : Endian) (cmd : UInt32) : Code Reply := do
  let _ ← sendMessage host (makeResponse cmd .ok 8) [] [] (some (bytes "Goodbye!"))
  pure (.ended .quit)

/-- The `switch` of `handle_client`: the reply and the session's user afterwards. -/
def dispatch (host : Endian) (user : Bytes) (req : Request) (payload : Bytes) :
    Code (Reply × Bytes) :=
  let cmd := req.header.command
  match CommandType.ofCode cmd with
  | some .login => do
    Sys.log
    pure (respond cmd .ok (bytes "Welcome, " ++ req.username ++ bytes "!"), req.username)
  | some .upload => do
    pure (← upload user req.filename cmd req.header.payloadLength, user)
  | some .download => do
    pure (← download host user req.filename cmd, user)
  | some .list => do
    pure (← list user cmd, user)
  | some .deleteF => do
    pure (← delete user req.filename cmd, user)
  | some .rename => do
    pure (← rename user req.filename payload cmd, user)
  | some .quit => do
    pure (← quit host cmd, user)
  | none =>
    pure (respond cmd .badRequest
      (bytes "Unknown or unsupported command: " ++ commandToString cmd), user)

/-- The payload of any command but UPLOAD is read whole before the `switch`. -/
def recvPayload (header : MessageHeader) : Code (Option Bytes) :=
  if CommandType.ofCode header.command ≠ some .upload ∧ 0 < header.payloadLength then do
    Sys.alloc header.payloadLength.toNat
    recvAll header.payloadLength.toNat
  else pure (some [])

/-- The part of a round after the `switch`. -/
def sendReply (host : Endian) (reply : Reply) (user : Bytes) : Code (Exit ⊕ Bytes) :=
  match reply with
  | .message header payload => do
    if ← sendMessage host header [] [] (some payload) then pure (.inr user)
    else pure (.inl .responseLost)
  | .streamed => pure (.inr user)
  | .ended exit => pure (.inl exit)

/-- One round of the loop from the reading of a request on: the exit taken, or the user to go on
with. -/
def handleRequest (host : Endian) (user : Bytes) : Code (Exit ⊕ Bytes) := do
  match ← recvMessageMeta host with
  | none => pure (.inl .requestLost)
  | some req =>
    Sys.log
    match ← recvPayload req.header with
    | none => pure (.inl .payloadLost)
    | some payload =>
      let (reply, user') ← dispatch host user req payload
      sendReply host reply user'

/-- What follows the loop, at `session_end`. -/
def endSession : Code Unit := do
  Sys.closesocket
  Sys.activeConnections (-1)
  Sys.log

/-- One round of `while (running_)`, with the code after the loop when it is left. -/
def round (host : Endian) (user : Bytes) : Code (Exit ⊕ Bytes) := do
  if ← Sys.running then
    match ← handleRequest host user with
    | .inr user' => pure (.inr user')
    | .inl exit =>
      endSession
      pure (.inl exit)
  else
    endSession
    pure (.inl .notRunning)

/-- `handle_client` up to the end of its first round. -/
def handleClient (host : Endian) : Code (Exit ⊕ Bytes) := do
  Sys.activeConnections 1
  round host []

/-- Steps of a session among steps of others, which change the shared state in any way but never
start a stopped server again. -/
inductive SessionStep (nx : Next Call Answer Machine) (host : Endian) :
    Prog.Running Call Answer Exn (Exit ⊕ Bytes) Machine →
      Prog.Running Call Answer Exn (Exit ⊕ Bytes) Machine → Prop
  | own {c d} : LoopStep nx (round host) c d → SessionStep nx host c d
  | others {p l s s'} : (s.running = false → s'.running = false) →
      SessionStep nx host (p, (l, s)) (p, (l, s'))

end Server

end Mtfss
