import Mtfss.Server.FileManager

/-! The client: each method sends one request and takes in one response. -/

namespace Mtfss

open Effects

/-- What a `Client` object remembers between calls. -/
structure Client where
  connected : Bool
  username : Bytes
  deriving DecidableEq

namespace Client

abbrev Method := Client → Code (Bool × Client)

/-- `disconnect()`, and `return false` after it -/
def disconnect : Method := fun c =>
  if c.connected then do
    Sys.closesocket
    Sys.print (bytes "[Client] Disconnected\n")
    pure (false, ⟨false, []⟩)
  else pure (false, c)

def isSuccess (status : UInt32) : Bool :=
  status = StatusCode.ok.code || status = StatusCode.created.code

def receiveResponse (host : Endian) : Method := fun c => do
  match ← recvMessage host with
  | none => disconnect c
  | some (resp, payload) =>
    Sys.print (bytes "[Server " ++ statusToString resp.header.status ++ bytes "] " ++ payload ++
      bytes "\n")
    pure (isSuccess resp.header.status, c)

def sendCommand (host : Endian) (cmd : CommandType) (filename : Bytes) (payload : Option Bytes) :
    Method := fun c => do
  let header := makeRequest cmd (payload.getD []).length filename.length c.username.length
  if ← sendMessage host header c.username filename payload then receiveResponse host c
  else disconnect c

def login (host : Endian) (username : Bytes) : Method := fun c =>
  if c.connected then sendCommand host .login [] none { c with username := username }
  else pure (false, c)

def listFiles (host : Endian) : Method := fun c =>
  if c.connected then sendCommand host .list [] none c else pure (false, c)

def deleteFile (host : Endian) (filename : Bytes) : Method := fun c =>
  if c.connected then sendCommand host .deleteF filename none c else pure (false, c)

def renameFile (host : Endian) (oldName newName : Bytes) : Method := fun c =>
  if c.connected then sendCommand host .rename oldName (some newName) c else pure (false, c)

/-- The send loop of `upload_file`. A stream that has come to its end reads nothing more. -/
def uploadLoop (filepath : Bytes) (fileSize : ℕ) : ℕ → ℕ → Bool → Code Bool
  | 0, _, _ => pure true
  | fuel + 1, bytesSent, good =>
    if bytesSent < fileSize then do
      let (buffer, good') ←
        if good then Sys.read filepath bytesSent TRANSFER_BUFFER_SIZE else pure ([], false)
      if buffer = [] then pure true
      else if ← sendAll buffer then
        uploadLoop filepath fileSize fuel (bytesSent + buffer.length) good'
      else pure false
    else pure true

def sendFile (host : Endian) (filepath filename : Bytes) (fileSize : UInt64) : Method := fun c => do
  let header := makeRequest .upload fileSize.toNat filename.length c.username.length
  Sys.print (bytes "[Client] Uploading " ++ filename ++ bytes " (" ++ decimal fileSize.toNat ++
    bytes " bytes)...\n")
  if ← sendMessageMeta host header c.username filename then
    Sys.alloc TRANSFER_BUFFER_SIZE
    if ← uploadLoop filepath fileSize.toNat (fileSize.toNat + 1) 0 true then
      receiveResponse host c
    else disconnect c
  else disconnect c

def uploadFile (host : Endian) (filepath : Bytes) : Method := fun c => do
  if !c.connected || c.username = [] then pure (false, c)
  else if !(← Sys.fsExists filepath) then pure (false, c)
  else if !(← Sys.isRegularFile filepath) then pure (false, c)
  else
    let fileSize ← Sys.fileSize filepath
    if ← Sys.openIn filepath then sendFile host filepath (Paths.filename filepath) fileSize c
    else pure (false, c)

def downloads : Bytes := bytes "downloads"

/-- The part of `download_file` after a response other than 200. -/
def refusedDownload (header : MessageHeader) : Method := fun c =>
  if 0 < header.payloadLength then do
    Sys.alloc header.payloadLength.toNat
    match ← recvAll header.payloadLength.toNat with
    | some text =>
      Sys.print (bytes "[Server " ++ statusToString header.status ++ bytes "] " ++ text ++
        bytes "\n")
      pure (false, c)
    | none => pure (false, c)
  else do
    Sys.print (bytes "[Server " ++ statusToString header.status ++ bytes "]\n")
    pure (false, c)

/-- The part of `download_file` after a response of 200. -/
def acceptDownload (filename : Bytes) (size : UInt64) : Method := fun c => do
  Sys.print (bytes "[Client] Downloading " ++ filename ++ bytes " (" ++ decimal size.toNat ++
    bytes " bytes)...\n")
  FileManager.ensureDir downloads
  let dlPath ← Sys.pathAppend downloads filename
  if ← Sys.openOut dlPath then
    Sys.alloc TRANSFER_BUFFER_SIZE
    if ← FileManager.receiveLoop dlPath size.toNat size.toNat true then
      Sys.print (bytes "[Client] Download complete: " ++ dlPath ++ bytes "\n")
      let _ ← Sys.closeOut dlPath
      pure (true, c)
    else
      let _ ← Sys.closeOut dlPath
      let _ ← Sys.fsRemove dlPath
      disconnect c
  else
    Sys.alloc TRANSFER_BUFFER_SIZE
    if ← FileManager.discardLoop size.toNat size.toNat then pure (false, c)
    else disconnect c

def downloadFile (host : Endian) (filename : Bytes) : Method := fun c => do
  if !c.connected || c.username = [] then pure (false, c)
  else
    let header := makeRequest .download 0 filename.length c.username.length
    if ← sendMessageMeta host header c.username filename then
      match ← recvMessageMeta host with
      | none => disconnect c
      | some resp =>
        if resp.header.status = StatusCode.ok.code then
          acceptDownload filename resp.header.payloadLength c
        else refusedDownload resp.header c
    else disconnect c

def quit (host : Endian) : Method := fun c => do
  if ← sendMessage host (makeRequest .quit 0 0 0) [] [] none then
    let (_, c') ← receiveResponse host c
    let (_, c'') ← disconnect c'
    pure (true, c'')
  else disconnect c

end Client

end Mtfss
