import Mtfss.Effects.Execution
import Mtfss.System.Connection
import Mtfss.System.Disk
import Mtfss.Server.FileLocks
import Mtfss.Server.MetadataManager

/-! The calls the program makes of the system and of its shared objects, and their answers. -/

namespace Mtfss

open Effects Paths

/-- The exceptions thrown by the calls, all derived from `std::exception`. -/
inductive Exn
  | filesystemError
  | badAlloc
  deriving DecidableEq

inductive Call
  | recv (count : ℤ)
  | send (data : Bytes) (count : ℤ)
  | closesocket
  /-- `running_.load()` -/
  | running
  /-- `active_connections_ += delta` -/
  | activeConnections (delta : ℤ)
  /-- `p / q`, with the conversion of the operand to a path -/
  | pathAppend (p q : Bytes)
  | fsExists (p : Bytes)
  | isRegularFile (p : Bytes)
  | fileSize (p : Bytes)
  | createDirectories (p : Bytes)
  | fsRemove (p : Bytes)
  | fsRename (p q : Bytes)
  | openOut (p : Bytes)
  | write (p data : Bytes)
  | closeOut (p : Bytes)
  | openIn (p : Bytes)
  /-- `infile.read` of `count` bytes at an offset -/
  | read (p : Bytes) (offset count : ℕ)
  | acquireLockRef (key : Bytes)
  | releaseLockRef (key : Bytes)
  | lock (key : Bytes)
  | unlock (key : Bytes)
  | lockShared (key : Bytes)
  | unlockShared (key : Bytes)
  /-- `std::lock(lock1, lock2)` -/
  | lockBoth (key₁ key₂ : Bytes)
  | clock
  | addFile (dir filename : Bytes) (size : UInt64) (time : Bytes)
  | removeFile (dir filename : Bytes)
  | fileExists (dir filename : Bytes)
  | getFileSize (dir filename : Bytes)
  | listDirectory (dir : Bytes)
  /-- a buffer or string of `size` bytes is allocated -/
  | alloc (size : ℕ)
  /-- a `LOG_` macro -/
  | log
  /-- `std::cout << text` -/
  | print (text : Bytes)

/-- What a call answers. For a stream operation, `none` is success and `some n` a failure after
which `n` bytes of the data, or of the file, are on disk. -/
abbrev Answer : Call → Type
  | .recv _ => Option Bytes
  | .send _ _ => Option ℕ
  | .running | .openOut _ | .openIn _ | .fileExists _ _ => Bool
  | .fsExists _ | .isRegularFile _ | .fsRemove _ => Except Exn Bool
  | .fileSize _ => Except Exn UInt64
  | .pathAppend _ _ => Except Exn Bytes
  | .write _ _ | .closeOut _ => Option ℕ
  | .read _ _ _ => Bytes × Bool
  | .clock => Bytes
  | .getFileSize _ _ => UInt64
  | .listDirectory _ => List FileMetadata
  | .createDirectories _ | .fsRename _ _ | .acquireLockRef _ | .addFile _ _ _ _ | .removeFile _ _
  | .alloc _ | .log => Except Exn Unit
  | .closesocket | .activeConnections _ | .releaseLockRef _ | .lock _ | .unlock _ | .lockShared _
  | .unlockShared _ | .lockBoth _ _ | .print _ => Unit

/-- What one thread has for itself: its number, its connection, the lock entries it has fetched and
what it has printed. -/
structure Local where
  self : ℕ
  conn : Conn
  entry : Bytes → ℕ
  console : Bytes

/-- What the threads of one process share. -/
structure Store where
  disk : Disk
  index : Index
  locks : LockManager
  running : Bool
  active : ℤ

abbrev Machine := Local × Store

/-- A thread that has done nothing yet, on a connection with the given input. -/
def Local.fresh (self : ℕ) (input : Bytes) (eof : Bool) : Local :=
  ⟨self, ⟨input, eof, [], 0⟩, fun _ => 0, []⟩

/-- A server that has just started on a disk, with an empty index. -/
def Store.fresh (disk : Disk) : Store := ⟨disk, .empty, .initial, true, 0⟩

/-- The kinds of failure that are not a consequence of the state. -/
structure Faults where
  /-- a name cannot be converted to a path -/
  path : Bool
  /-- an `fs::` call throws, a file cannot be opened -/
  fs : Bool
  read : Bool
  /-- a write or the final flush fails -/
  write : Bool
  alloc : Bool
  /-- `stop()` may be called -/
  stop : Bool
  deriving DecidableEq

def Faults.none : Faults := ⟨false, false, false, false, false, false⟩

structure Env where
  cwd : Cwd
  faults : Faults

/-- The root of drive C is the working directory, and nothing fails by itself. -/
def Env.atRoot : Env := ⟨⟨0x43, fun _ => []⟩, .none⟩

def answer {α σ : Type} [DecidableEq α] (r expected : α) (m : σ) : Option σ :=
  if r = expected then some m else none

/-- A call that throws `e` when `failing`, and otherwise goes on as `ok` says. -/
def orThrow {α σ : Type} (failing : Bool) (e : Exn) (m : σ) (ok : α → Option σ) :
    Except Exn α → Option σ
  | .ok a => ok a
  | .error e' => if failing = true ∧ e' = e then some m else none

def next (env : Env) : Next Call Answer Machine
  | .recv count, (l, s), r => (l.conn.recv count r).map (fun c => ({ l with conn := c }, s))
  | .send data count, (l, s), r =>
    (l.conn.send data count r).map (fun c => ({ l with conn := c }, s))
  | .closesocket, (l, s), () => some ({ l with conn := l.conn.close }, s)
  | .running, (l, s), r =>
    if r = true then if s.running = true then some (l, s) else none
    else if s.running = false ∨ env.faults.stop = true then some (l, { s with running := false })
    else none
  | .activeConnections delta, (l, s), () => some (l, { s with active := s.active + delta })
  | .pathAppend p q, m, r =>
    orThrow env.faults.path .filesystemError m (fun x => answer x (append p q) m) r
  | .fsExists p, (l, s), r =>
    orThrow env.faults.fs .filesystemError (l, s)
      (fun b => answer b (s.disk.existsAt (resolve env.cwd p)) (l, s)) r
  | .isRegularFile p, (l, s), r =>
    orThrow env.faults.fs .filesystemError (l, s)
      (fun b => answer b (s.disk.isRegularFile (resolve env.cwd p)) (l, s)) r
  | .fileSize p, (l, s), r =>
    orThrow (env.faults.fs || !s.disk.isRegularFile (resolve env.cwd p)) .filesystemError (l, s)
      (fun n => if some n = (s.disk.content (resolve env.cwd p)).map (fun c => .ofNat c.length)
        then some (l, s) else none) r
  | .createDirectories p, (l, s), r =>
    orThrow (env.faults.fs || (s.disk.createDirectories (resolve env.cwd p)).isNone)
      .filesystemError (l, s)
      (fun _ => (s.disk.createDirectories (resolve env.cwd p)).map
        (fun d => (l, { s with disk := d }))) r
  | .fsRemove p, (l, s), r =>
    orThrow (env.faults.fs || (s.disk.remove (resolve env.cwd p)).isNone) .filesystemError (l, s)
      (fun b => (s.disk.remove (resolve env.cwd p)).bind
        (fun (b', d) => answer b b' (l, { s with disk := d }))) r
  | .fsRename p q, (l, s), r =>
    orThrow (env.faults.fs || (s.disk.rename (resolve env.cwd p) (resolve env.cwd q)).isNone)
      .filesystemError (l, s)
      (fun _ => (s.disk.rename (resolve env.cwd p) (resolve env.cwd q)).map
        (fun d => (l, { s with disk := d }))) r
  | .openOut p, (l, s), r =>
    if r = true then
      (s.disk.openOut (resolve env.cwd p)).map (fun d => (l, { s with disk := d }))
    else if env.faults.fs = true ∨ s.disk.openOut (resolve env.cwd p) = none then some (l, s)
    else none
  | .write p data, (l, s), r =>
    match r with
    | none => some (l, { s with disk := s.disk.modify (resolve env.cwd p) (· ++ data) })
    | some n =>
      if env.faults.write = true then
        some (l, { s with disk := s.disk.modify (resolve env.cwd p) (· ++ data.take n) })
      else none
  | .closeOut p, (l, s), r =>
    match r with
    | none => some (l, s)
    | some n =>
      if env.faults.write = true then
        some (l, { s with disk := s.disk.modify (resolve env.cwd p) (·.take n) })
      else none
  | .openIn p, (l, s), r =>
    if r = true then if s.disk.canRead (resolve env.cwd p) = true then some (l, s) else none
    else if env.faults.fs = true ∨ s.disk.canRead (resolve env.cwd p) = false then some (l, s)
    else none
  | .read p offset count, (l, s), (bs, good) =>
    let rest := ((s.disk.content (resolve env.cwd p)).getD []).drop offset
    if bs = rest.take count ∧ good = decide (count ≤ rest.length) then some (l, s)
    else if env.faults.read = true ∧ bs <+: rest.take count ∧ good = false then some (l, s)
    else none
  | .acquireLockRef key, (l, s), r =>
    orThrow env.faults.alloc .badAlloc (l, s)
      (fun _ => some ({ l with entry := Function.update l.entry key (s.locks.entryOf key) },
        { s with locks := s.locks.acquire key })) r
  | .releaseLockRef key, (l, s), () => some (l, { s with locks := s.locks.release key })
  | .lock key, (l, s), () =>
    if s.locks.isFree key (l.entry key) = true then
      some (l, { s with locks := s.locks.lock l.self key (l.entry key) })
    else none
  | .unlock key, (l, s), () =>
    some (l, { s with locks := s.locks.unlock key (l.entry key) })
  | .lockShared key, (l, s), () =>
    if s.locks.canShare key (l.entry key) = true then
      some (l, { s with locks := s.locks.lockShared l.self key (l.entry key) })
    else none
  | .unlockShared key, (l, s), () =>
    some (l, { s with locks := s.locks.unlockShared l.self key (l.entry key) })
  | .lockBoth k₁ k₂, (l, s), () =>
    if s.locks.isFree k₁ (l.entry k₁) = true ∧ s.locks.isFree k₂ (l.entry k₂) = true then
      some (l, { s with
        locks := (s.locks.lock l.self k₁ (l.entry k₁)).lock l.self k₂ (l.entry k₂) })
    else none
  | .clock, m, _ => some m
  | .addFile dir filename size time, (l, s), r =>
    orThrow env.faults.alloc .badAlloc (l, s)
      (fun _ => some (l, { s with index := s.index.addFile dir filename size time })) r
  | .removeFile dir filename, (l, s), r =>
    orThrow env.faults.alloc .badAlloc (l, s)
      (fun _ => some (l, { s with index := s.index.removeFile dir filename })) r
  | .fileExists dir filename, (l, s), r => answer r (s.index.fileExists dir filename) (l, s)
  | .getFileSize dir filename, (l, s), r => answer r (s.index.getFileSize dir filename) (l, s)
  | .listDirectory dir, (l, s), r =>
    if r.Perm (s.index.listDirectory dir) then some (l, s) else none
  | .alloc _, m, r => orThrow env.faults.alloc .badAlloc m (fun _ => some m) r
  | .log, m, r => orThrow env.faults.alloc .badAlloc m (fun _ => some m) r
  | .print text, (l, s), () => some ({ l with console := l.console ++ text }, s)

abbrev Code := Prog Call Answer Exn

namespace Sys

def recv (count : ℤ) : Code (Option Bytes) := .op (.recv count) .pure
def send (data : Bytes) (count : ℤ) : Code (Option ℕ) := .op (.send data count) .pure
def closesocket : Code Unit := .op .closesocket .pure
def running : Code Bool := .op .running .pure
def activeConnections (delta : ℤ) : Code Unit := .op (.activeConnections delta) .pure
def pathAppend (p q : Bytes) : Code Bytes := .op (.pathAppend p q) .ofExcept
def fsExists (p : Bytes) : Code Bool := .op (.fsExists p) .ofExcept
def isRegularFile (p : Bytes) : Code Bool := .op (.isRegularFile p) .ofExcept
def fileSize (p : Bytes) : Code UInt64 := .op (.fileSize p) .ofExcept
def createDirectories (p : Bytes) : Code Unit := .op (.createDirectories p) .ofExcept
def fsRemove (p : Bytes) : Code Bool := .op (.fsRemove p) .ofExcept
def fsRename (p q : Bytes) : Code Unit := .op (.fsRename p q) .ofExcept
def openOut (p : Bytes) : Code Bool := .op (.openOut p) .pure
def write (p data : Bytes) : Code (Option ℕ) := .op (.write p data) .pure
def closeOut (p : Bytes) : Code (Option ℕ) := .op (.closeOut p) .pure
def openIn (p : Bytes) : Code Bool := .op (.openIn p) .pure
def read (p : Bytes) (offset count : ℕ) : Code (Bytes × Bool) := .op (.read p offset count) .pure
def acquireLockRef (key : Bytes) : Code Unit := .op (.acquireLockRef key) .ofExcept
def releaseLockRef (key : Bytes) : Code Unit := .op (.releaseLockRef key) .pure
def lock (key : Bytes) : Code Unit := .op (.lock key) .pure
def unlock (key : Bytes) : Code Unit := .op (.unlock key) .pure
def lockShared (key : Bytes) : Code Unit := .op (.lockShared key) .pure
def unlockShared (key : Bytes) : Code Unit := .op (.unlockShared key) .pure
def lockBoth (key₁ key₂ : Bytes) : Code Unit := .op (.lockBoth key₁ key₂) .pure
def removeFile (dir filename : Bytes) : Code Unit := .op (.removeFile dir filename) .ofExcept
def fileExists (dir filename : Bytes) : Code Bool := .op (.fileExists dir filename) .pure
def getFileSize (dir filename : Bytes) : Code UInt64 := .op (.getFileSize dir filename) .pure
def listDirectory (dir : Bytes) : Code (List FileMetadata) := .op (.listDirectory dir) .pure
def alloc (size : ℕ) : Code Unit := .op (.alloc size) .ofExcept
def log : Code Unit := .op .log .ofExcept
def print (text : Bytes) : Code Unit := .op (.print text) .pure

/-- `MetadataManager::add_file`, which reads the clock before it takes the index mutex. -/
def addFile (dir filename : Bytes) (size : UInt64) : Code Unit :=
  .op .clock (fun time => .op (.addFile dir filename size time) .ofExcept)

end Sys

end Mtfss
