import Mtfss.System.Calls
import Mtfss.Effects.Threads

/-! The answers of a system in which nothing fails that can succeed. -/

namespace Mtfss

open Effects Paths

def oblige (env : Env) : (o : Call) → Machine → Answer o
  | .recv count, m => some (m.1.conn.input.take count.toNat)
  | .send _ count, _ => some count.toNat
  | .running, m => m.2.running
  | .pathAppend p q, _ => .ok (append p q)
  | .fsExists p, m => .ok (m.2.disk.existsAt (resolve env.cwd p))
  | .isRegularFile p, m => .ok (m.2.disk.isRegularFile (resolve env.cwd p))
  | .fileSize p, m =>
    match m.2.disk.content (resolve env.cwd p) with
    | some c => .ok (.ofNat c.length)
    | none => .error .filesystemError
  | .createDirectories p, m =>
    if (m.2.disk.createDirectories (resolve env.cwd p)).isSome then .ok () else .error
      .filesystemError
  | .fsRemove p, m =>
    match m.2.disk.remove (resolve env.cwd p) with
    | some (b, _) => .ok b
    | none => .error .filesystemError
  | .fsRename p q, m =>
    if (m.2.disk.rename (resolve env.cwd p) (resolve env.cwd q)).isSome then .ok ()
    else .error .filesystemError
  | .openOut p, m => (m.2.disk.openOut (resolve env.cwd p)).isSome
  | .openIn p, m => m.2.disk.canRead (resolve env.cwd p)
  | .write _ _, _ | .closeOut _, _ => none
  | .read p offset count, m =>
    let rest := ((m.2.disk.content (resolve env.cwd p)).getD []).drop offset
    (rest.take count, decide (count ≤ rest.length))
  | .fileExists dir filename, m => m.2.index.fileExists dir filename
  | .getFileSize dir filename, m => m.2.index.getFileSize dir filename
  | .listDirectory dir, m => m.2.index.listDirectory dir
  | .clock, _ => []
  | .acquireLockRef _, _ | .addFile _ _ _ _, _ | .removeFile _ _, _ | .alloc _,
      _ | .log, _ => .ok ()
  | .closesocket, _ | .activeConnections _, _ | .releaseLockRef _, _ | .lock _, _ | .unlock _, _
  | .lockShared _, _ | .unlockShared _, _ | .lockBoth _ _, _ | .print _, _ => ()

end Mtfss
