import Mtfss.Common.Protocol

/-! `FileManager`: the file operations of the server. -/

namespace Mtfss

open Effects

def TRANSFER_BUFFER_SIZE : ℕ := 8192

def storage : Bytes := bytes "storage"

/-- The index key of a user: `"storage/" + username` -/
def indexDir (username : Bytes) : Bytes := bytes "storage/" ++ username

def isValidFilename (filename : Bytes) : Bool :=
  if filename = [] ∨ filename = [dot] ∨ filename = [dot, dot] then false
  else if slash ∈ filename ∨ backslash ∈ filename then false
  else if [dot, dot] <:+: filename then false
  else true

lemma isValidFilename_iff {f : Bytes} : isValidFilename f = true ↔
    f ≠ [] ∧ f ≠ [dot] ∧ (∀ b ∈ f, Paths.isSep b = false) ∧ ¬ [dot, dot] <:+: f := by
  have hsep : (∀ b ∈ f, Paths.isSep b = false) ↔ slash ∉ f ∧ backslash ∉ f := by
    simp only [Paths.isSep, Bool.or_eq_false_iff, beq_eq_false_iff_ne]
    constructor
    · intro h
      exact ⟨fun hm => (h _ hm).1 rfl, fun hm => (h _ hm).2 rfl⟩
    · rintro ⟨h₁, h₂⟩ b hb
      exact ⟨fun he => h₁ (he ▸ hb), fun he => h₂ (he ▸ hb)⟩
  have hdots : f = [dot, dot] → [dot, dot] <:+: f := fun h => h ▸ List.infix_rfl
  rw [hsep]
  simp only [isValidFilename]
  split_ifs <;> grind

lemma noSep_of_valid {f : Bytes} (h : isValidFilename f = true) : ∀ b ∈ f, Paths.isSep b = false :=
  (isValidFilename_iff.mp h).2.2.1

lemma noDots_of_valid {f : Bytes} (h : isValidFilename f = true) : ¬ [dot, dot] <:+: f :=
  (isValidFilename_iff.mp h).2.2.2

namespace FileManager

/-- The loop of `discard_data`, which leaves off when the connection is lost. -/
def discardLoop : ℕ → ℕ → Code Bool
  | 0, _ => pure true
  | fuel + 1, remaining =>
    if 0 < remaining then do
      let chunkSize := min TRANSFER_BUFFER_SIZE remaining
      match ← recvAll chunkSize with
      | none => pure false
      | some _ => discardLoop fuel (remaining - chunkSize)
    else pure true

def discardData (size : UInt64) : Code Unit := do
  Sys.alloc TRANSFER_BUFFER_SIZE
  let _ ← discardLoop size.toNat size.toNat

/-- The receive loop of `save_file`. A failed write leaves the stream bad, and later writes to it do
nothing. `false` is a network error. -/
def receiveLoop (filePath : Bytes) : ℕ → ℕ → Bool → Code Bool
  | 0, _, _ => pure true
  | fuel + 1, remaining, good =>
    if 0 < remaining then do
      let chunkSize := min TRANSFER_BUFFER_SIZE remaining
      match ← recvAll chunkSize with
      | none => pure false
      | some buffer =>
        if good then do
          let failed ← Sys.write filePath buffer
          receiveLoop filePath fuel (remaining - chunkSize) failed.isNone
        else receiveLoop filePath fuel (remaining - chunkSize) good
    else pure true

/-- `save_file` from the taking of the lock to its release. -/
def saveLocked (username filename filePath : Bytes) (fileSize : UInt64) : Code Bool := do
  if !(← Sys.openOut filePath) then
    Sys.log
    discardData fileSize
    Sys.unlock filePath
    Sys.releaseLockRef filePath
    pure false
  else
    Sys.alloc TRANSFER_BUFFER_SIZE
    if ← receiveLoop filePath fileSize.toNat fileSize.toNat true then
      let _ ← Sys.closeOut filePath
      Sys.addFile (indexDir username) filename fileSize
      Sys.log
      Sys.unlock filePath
      Sys.releaseLockRef filePath
      pure true
    else
      Sys.log
      let _ ← Sys.closeOut filePath
      let _ ← Sys.fsRemove filePath
      -- no `release_lock_ref` on this path: only the destructor of the lock runs
      Sys.unlock filePath
      pure false

/-- `if (!fs::exists(dir)) fs::create_directories(dir);` -/
def ensureDir (dir : Bytes) : Code Unit := do
  if !(← Sys.fsExists dir) then Sys.createDirectories dir else pure ()

/-- `save_file` from the check of the name on. -/
def saveInto (username filename userDir : Bytes) (fileSize : UInt64) : Code Bool := do
  if !isValidFilename filename then
    Sys.log
    discardData fileSize
    pure false
  else
    let filePath ← Sys.pathAppend userDir filename
    Sys.acquireLockRef filePath
    Sys.lock filePath
    (saveLocked username filename filePath fileSize).onThrow (Sys.unlock filePath)

def trySaveFile (username filename : Bytes) (fileSize : UInt64) : Code Bool := do
  let userDir ← Sys.pathAppend storage username
  ensureDir userDir
  saveInto username filename userDir fileSize

def saveFile (username filename : Bytes) (fileSize : UInt64) : Code Bool :=
  (trySaveFile username filename fileSize).tryCatch (fun _ => do
    Sys.log
    discardData fileSize
    pure false)

/-- `none` is `static_cast<uint64_t>(-1)`, as is a size of that value. -/
def getFileSize (username filename : Bytes) : Code UInt64 := do
  if !(← Sys.fileExists (indexDir username) filename) then pure (-1)
  else Sys.getFileSize (indexDir username) filename

/-- The send loop of `stream_file_to_socket`. Offsets are below `2 ^ 64`, so `2 ^ 64 / 8192 + 1`
reads come to the end of any file. -/
def streamLoop (filePath : Bytes) : ℕ → ℕ → Code Bool
  | 0, _ => pure true
  | fuel + 1, offset => do
    let (buffer, good) ← Sys.read filePath offset TRANSFER_BUFFER_SIZE
    if buffer ≠ [] then
      if !(← sendAll buffer) then pure false
      else if good then streamLoop filePath fuel (offset + TRANSFER_BUFFER_SIZE)
      else pure true
    else if good then streamLoop filePath fuel (offset + TRANSFER_BUFFER_SIZE)
    else pure true

def streamLocked (filePath : Bytes) : Code Bool := do
  if !(← Sys.openIn filePath) then
    Sys.log
    Sys.unlockShared filePath
    Sys.releaseLockRef filePath
    pure false
  else
    Sys.alloc TRANSFER_BUFFER_SIZE
    if ← streamLoop filePath (2 ^ 51 + 1) 0 then
      -- no `release_lock_ref` after a complete transfer
      Sys.log
      Sys.unlockShared filePath
      pure true
    else
      Sys.log
      Sys.unlockShared filePath
      Sys.releaseLockRef filePath
      pure false

def tryStreamFile (username filename : Bytes) : Code Bool := do
  if !isValidFilename filename then pure false
  else
    let userDir ← Sys.pathAppend storage username
    let filePath ← Sys.pathAppend userDir filename
    Sys.acquireLockRef filePath
    Sys.lockShared filePath
    (streamLocked filePath).onThrow (Sys.unlockShared filePath)

def streamFileToSocket (username filename : Bytes) : Code Bool :=
  (tryStreamFile username filename).tryCatch (fun _ => do
    Sys.log
    pure false)

def listLine (record : FileMetadata) : Bytes :=
  record.filename ++ bytes " (" ++ decimal record.size.toNat ++ bytes " bytes) - " ++
    record.upload_time ++ bytes "\n"

def renderListing (files : List FileMetadata) : Bytes :=
  if files = [] then bytes "(Empty)" else files.flatMap listLine

def listFiles (username : Bytes) : Code Bytes := do
  let files ← Sys.listDirectory (indexDir username)
  pure (renderListing files)

def deleteLocked (username filename filePath : Bytes) : Code Bool := do
  let success ← Sys.fsRemove filePath
  if success then
    Sys.removeFile (indexDir username) filename
  Sys.unlock filePath
  Sys.releaseLockRef filePath
  pure success

def tryDeleteFile (username filename : Bytes) : Code Bool := do
  if !isValidFilename filename then pure false
  else
    let userDir ← Sys.pathAppend storage username
    let filePath ← Sys.pathAppend userDir filename
    Sys.acquireLockRef filePath
    Sys.lock filePath
    (deleteLocked username filename filePath).onThrow (Sys.unlock filePath)

def deleteFile (username filename : Bytes) : Code Bool :=
  (tryDeleteFile username filename).tryCatch (fun _ => pure false)

def unlockBoth (oldKey newKey : Bytes) : Code Unit := do
  Sys.unlock oldKey
  Sys.unlock newKey

def releaseBoth (oldKey newKey : Bytes) : Code Unit := do
  Sys.releaseLockRef oldKey
  Sys.releaseLockRef newKey

def renameLocked (username oldName newName oldPath newPath : Bytes) : Code Bool := do
  let missing ← (do
    if !(← Sys.fsExists oldPath) then pure true
    else Sys.fsExists newPath)
  if missing then
    unlockBoth oldPath newPath
    releaseBoth oldPath newPath
    pure false
  else
    Sys.fsRename oldPath newPath
    let size ← Sys.getFileSize (indexDir username) oldName
    Sys.removeFile (indexDir username) oldName
    Sys.addFile (indexDir username) newName size
    unlockBoth oldPath newPath
    releaseBoth oldPath newPath
    pure true

def tryRenameFile (username oldName newName : Bytes) : Code Bool := do
  if !isValidFilename oldName || !isValidFilename newName then pure false
  else
    let oldDir ← Sys.pathAppend storage username
    let oldPath ← Sys.pathAppend oldDir oldName
    let newDir ← Sys.pathAppend storage username
    let newPath ← Sys.pathAppend newDir newName
    if oldPath = newPath then pure true
    else
      Sys.acquireLockRef oldPath
      Sys.acquireLockRef newPath
      Sys.lockBoth oldPath newPath
      (renameLocked username oldName newName oldPath newPath).onThrow
        (unlockBoth newPath oldPath)

def renameFile (username oldName newName : Bytes) : Code Bool :=
  (tryRenameFile username oldName newName).tryCatch (fun _ => pure false)

end FileManager

end Mtfss
