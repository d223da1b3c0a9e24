import Mtfss.Common.MessageCalls
import Mtfss.Server.Session
import Mtfss.System.Frames

/-! The places a request of one user names to the file system, the lock manager and the index. -/

namespace Mtfss

open Effects Paths Rules

namespace Call

def paths : Call → List Bytes
  | .fsExists p | .isRegularFile p | .fileSize p | .createDirectories p | .fsRemove p | .openOut p
  | .write p _ | .closeOut p | .openIn p | .read p _ _ => [p]
  | .fsRename p q => [p, q]
  | _ => []

def keys : Call → List Bytes
  | .acquireLockRef key | .releaseLockRef key | .lock key | .unlock key | .lockShared key
  | .unlockShared key => [key]
  | .lockBoth key₁ key₂ => [key₁, key₂]
  | _ => []

def indexDirs : Call → List Bytes
  | .addFile dir _ _ _ | .removeFile dir _ | .fileExists dir _ | .getFileSize dir _
  | .listDirectory dir => [dir]
  | _ => []

/-- What the program relies on in an answer. -/
def Faithful : (o : Call) → Answer o → Prop
  | .pathAppend p q, r => ∀ x, r = .ok x → x = append p q
  | _, _ => True

end Call

lemma next_faithful {env : Env} {o : Call} {m m' : Machine} {r : Answer o}
    (h : next env o m r = some m') : o.Faithful r := by
  cases o <;> try trivial
  rintro x rfl
  simp only [next, orThrow, answer_eq_some] at h
  exact h.1

/-- `fs::path("storage") / username` -/
def userDir (user : Bytes) : Bytes := append storage user

/-- `fs::path("storage") / username / filename` -/
def filePath (user f : Bytes) : Bytes := append (userDir user) f

/-- The path of a file of the user that has a valid name among `names`. -/
def IsFilePath (user : Bytes) (names : List Bytes) (p : Bytes) : Prop :=
  ∃ f ∈ names, isValidFilename f = true ∧ p = filePath user f

/-- The call stays with the directory of the user and files in it that have names among `names`,
and there is a user if there is any such file. -/
structure Footprint (user : Bytes) (names : List Bytes) (o : Call) : Prop where
  paths : ∀ p ∈ o.paths, user ≠ [] ∧ (p = userDir user ∨ IsFilePath user names p)
  keys : ∀ key ∈ o.keys, user ≠ [] ∧ IsFilePath user names key
  index : ∀ dir ∈ o.indexDirs, user ≠ [] ∧ dir = indexDir user

/-- The calls that a request of the user makes, with the paths, keys and directories it hands
over. -/
def Serves (user : Bytes) (names : List Bytes) : Call → Prop
  | .recv _ | .send _ _ | .pathAppend _ _ | .alloc _ | .log | .clock => True
  | .fsExists p => user ≠ [] ∧ (p = userDir user ∨ IsFilePath user names p)
  | .createDirectories p => user ≠ [] ∧ p = userDir user
  | .fsRemove p | .openOut p | .write p _ | .closeOut p | .openIn p | .read p _ _ =>
    user ≠ [] ∧ IsFilePath user names p
  | .fsRename p q => user ≠ [] ∧ IsFilePath user names p ∧ IsFilePath user names q
  | .acquireLockRef key | .releaseLockRef key | .lock key | .unlock key | .lockShared key
  | .unlockShared key => user ≠ [] ∧ IsFilePath user names key
  | .lockBoth key₁ key₂ => user ≠ [] ∧ IsFilePath user names key₁ ∧ IsFilePath user names key₂
  | .addFile dir _ _ _ | .removeFile dir _ | .fileExists dir _ | .getFileSize dir _
  | .listDirectory dir => user ≠ [] ∧ dir = indexDir user
  | .closesocket | .running | .activeConnections _ | .isRegularFile _ | .fileSize
      _ | .print _ => False

abbrev Within {α : Type} (user : Bytes) (names : List Bytes) (p : Code α) : Prop :=
  p.Calls Call.Faithful (Serves user names)

/-- The calls that a session makes while it is the user's. -/
def Attends (user : Bytes) : Call → Prop
  | .closesocket | .running | .activeConnections _ => True
  | o => ∃ names, Serves user names o

def fileNames (req : Request) (payload : Bytes) : List Bytes :=
  match CommandType.ofCode req.header.command with
  | some .upload | some .download | some .deleteF => [req.filename]
  | some .rename => [req.filename, payload]
  | _ => []

section Keeps

variable {α : Type} {user : Bytes} {names : List Bytes}

lemma footprint_free {o : Call} (hp : o.paths = []) (hk : o.keys = []) (hi : o.indexDirs = []) :
    Footprint user names o :=
  ⟨by simp [hp], by simp [hk], by simp [hi]⟩

lemma footprint_path {o : Call} {p : Bytes} (hp : o.paths = [p]) (hk : o.keys = [])
    (hi : o.indexDirs = []) (hu : user ≠ []) (h : p = userDir user ∨ IsFilePath user names p) :
    Footprint user names o :=
  ⟨by simpa [hp] using ⟨hu, h⟩, by simp [hk], by simp [hi]⟩

lemma footprint_key {o : Call} {key : Bytes} (hp : o.paths = []) (hk : o.keys = [key])
    (hi : o.indexDirs = []) (hu : user ≠ []) (h : IsFilePath user names key) :
    Footprint user names o :=
  ⟨by simp [hp], by simpa [hk] using ⟨hu, h⟩, by simp [hi]⟩

lemma Serves.footprint {o : Call} (h : Serves user names o) : Footprint user names o := by
  cases o with
  | fsExists p => exact footprint_path rfl rfl rfl h.1 h.2
  | createDirectories p => exact footprint_path rfl rfl rfl h.1 (Or.inl h.2)
  | fsRemove p => exact footprint_path rfl rfl rfl h.1 (Or.inr h.2)
  | openOut p => exact footprint_path rfl rfl rfl h.1 (Or.inr h.2)
  | write p data => exact footprint_path rfl rfl rfl h.1 (Or.inr h.2)
  | closeOut p => exact footprint_path rfl rfl rfl h.1 (Or.inr h.2)
  | openIn p => exact footprint_path rfl rfl rfl h.1 (Or.inr h.2)
  | read p offset count => exact footprint_path rfl rfl rfl h.1 (Or.inr h.2)
  | fsRename p q =>
    refine ⟨?_, nofun, nofun⟩
    simp only [Call.paths, List.mem_cons, List.not_mem_nil, or_false]
    rintro x (rfl | rfl)
    · exact ⟨h.1, Or.inr h.2.1⟩
    · exact ⟨h.1, Or.inr h.2.2⟩
  | acquireLockRef key => exact footprint_key rfl rfl rfl h.1 h.2
  | releaseLockRef key => exact footprint_key rfl rfl rfl h.1 h.2
  | lock key => exact footprint_key rfl rfl rfl h.1 h.2
  | unlock key => exact footprint_key rfl rfl rfl h.1 h.2
  | lockShared key => exact footprint_key rfl rfl rfl h.1 h.2
  | unlockShared key => exact footprint_key rfl rfl rfl h.1 h.2
  | lockBoth key₁ key₂ =>
    refine ⟨nofun, ?_, nofun⟩
    simp only [Call.keys, List.mem_cons, List.not_mem_nil, or_false]
    rintro x (rfl | rfl)
    · exact ⟨h.1, h.2.1⟩
    · exact ⟨h.1, h.2.2⟩
  | addFile dir f size time => exact ⟨nofun, nofun, by simpa [Call.indexDirs] using! h⟩
  | removeFile dir f => exact ⟨nofun, nofun, by simpa [Call.indexDirs] using! h⟩
  | fileExists dir f => exact ⟨nofun, nofun, by simpa [Call.indexDirs] using! h⟩
  | getFileSize dir f => exact ⟨nofun, nofun, by simpa [Call.indexDirs] using! h⟩
  | listDirectory dir => exact ⟨nofun, nofun, by simpa [Call.indexDirs] using! h⟩
  | isRegularFile p => exact h.elim
  | fileSize p => exact h.elim
  | recv count => exact footprint_free rfl rfl rfl
  | send data count => exact footprint_free rfl rfl rfl
  | pathAppend p q => exact footprint_free rfl rfl rfl
  | alloc n => exact footprint_free rfl rfl rfl
  | log => exact footprint_free rfl rfl rfl
  | clock => exact footprint_free rfl rfl rfl
  | closesocket => exact h.elim
  | running => exact h.elim
  | activeConnections delta => exact h.elim
  | print text => exact h.elim

lemma Attends.footprint {o : Call} (h : Attends user o) : ∃ names, Footprint user names o := by
  cases o with
  | closesocket => exact ⟨[], footprint_free rfl rfl rfl⟩
  | running => exact ⟨[], footprint_free rfl rfl rfl⟩
  | activeConnections delta => exact ⟨[], footprint_free rfl rfl rfl⟩
  | _ =>
    obtain ⟨names, h⟩ := h
    exact ⟨names, h.footprint⟩

lemma attends_within (names : List Bytes) {p : Code α} (h : Within user names p) :
    p.Calls Call.Faithful (Attends user) :=
  h.mono fun o ho => by
    cases o <;> first | trivial | exact ⟨names, ho⟩

lemma within_pathAppend {p q : Bytes} {f : Bytes → Code α}
    (h : Within user names (f (append p q))) : Within user names ((Sys.pathAppend p q).bind f) := by
  refine ⟨trivial, fun r hr => ?_⟩
  cases r with
  | error e => trivial
  | ok x => exact hr x rfl ▸ h

lemma within_sendAll (bs : Bytes) : Within user names (sendAll bs) :=
  calls_sendAll (fun _ _ => trivial) bs

lemma within_recvAll (n : ℕ) : Within user names (recvAll n) := calls_recvAll (fun _ => trivial) n

lemma within_recvMessageMeta (host : Endian) : Within user names (recvMessageMeta host) :=
  calls_recvMessageMeta (fun _ => trivial) (fun _ => trivial) host

lemma within_sendMessageMeta (host : Endian) (h : MessageHeader) (u f : Bytes) :
    Within user names (sendMessageMeta host h u f) :=
  calls_sendMessageMeta (fun _ _ => trivial) host h u f

lemma within_sendMessage (host : Endian) (h : MessageHeader) (u f : Bytes)
    (payload : Option Bytes) : Within user names (sendMessage host h u f payload) :=
  calls_sendMessage (fun _ _ => trivial) host h u f payload

lemma within_log : Within user names Sys.log := ⟨trivial, fun _ _ => by simp⟩

namespace FileManager

lemma within_discardLoop (fuel n : ℕ) : Within user names (discardLoop fuel n) := by
  induction fuel generalizing n with
  | zero => trivial
  | succ fuel ih =>
    rw [discardLoop]
    split
    · refine .bind (within_recvAll _) ?_
      rintro (_ | _)
      · trivial
      · exact ih _
    · trivial

lemma within_discardData (size : UInt64) : Within user names (discardData size) :=
  .bind (⟨trivial, fun _ _ => by simp⟩)
    (fun _ => .bind (within_discardLoop _ _) (fun _ => trivial))

variable {p q : Bytes}

lemma within_receiveLoop (hu : user ≠ []) (hp : IsFilePath user names p) (fuel n : ℕ)
    (good : Bool) : Within user names (receiveLoop p fuel n good) := by
  induction fuel generalizing n good with
  | zero => trivial
  | succ fuel ih =>
    rw [receiveLoop]
    split
    · refine .bind (within_recvAll _) ?_
      rintro (_ | _)
      · trivial
      · dsimp only
        split
        · exact ⟨⟨hu, hp⟩, fun _ _ => ih _ _⟩
        · exact ih _ _
    · trivial

lemma within_unlock (hu : user ≠ []) (hp : IsFilePath user names p) :
    Within user names (Sys.unlock p) :=
  ⟨⟨hu, hp⟩, fun _ _ => trivial⟩

lemma within_releaseLockRef (hu : user ≠ []) (hp : IsFilePath user names p) :
    Within user names (Sys.releaseLockRef p) :=
  ⟨⟨hu, hp⟩, fun _ _ => trivial⟩

lemma within_acquireLockRef (hu : user ≠ []) (hp : IsFilePath user names p) :
    Within user names (Sys.acquireLockRef p) :=
  ⟨⟨hu, hp⟩, fun _ _ => by simp⟩

lemma within_addFile (hu : user ≠ []) (f : Bytes) (size : UInt64) :
    Within user names (Sys.addFile (indexDir user) f size) :=
  ⟨trivial, fun _ _ => ⟨⟨hu, rfl⟩, fun _ _ => by simp⟩⟩

lemma within_removeFile (hu : user ≠ []) (f : Bytes) :
    Within user names (Sys.removeFile (indexDir user) f) :=
  ⟨⟨hu, rfl⟩, fun _ _ => by simp⟩

lemma within_saveLocked (hu : user ≠ []) (hp : IsFilePath user names p) (f : Bytes)
    (size : UInt64) : Within user names (saveLocked user f p size) := by
  refine .bind ⟨⟨hu, hp⟩, fun _ _ => trivial⟩ ?_
  rintro (_ | _)
  · exact .bind within_log fun _ => .bind (within_discardData size) fun _ =>
      .bind (within_unlock hu hp) fun _ => .bind (within_releaseLockRef hu hp) fun _ => trivial
  refine .bind (⟨trivial, fun _ _ => by simp⟩) (fun _ => ?_)
  refine .bind (within_receiveLoop hu hp _ _ _) ?_
  have hclose : Within user names (Sys.closeOut p) :=
    ⟨⟨hu, hp⟩, fun _ _ => trivial⟩
  rintro (_ | _)
  · exact .bind within_log fun _ => .bind hclose fun _ =>
      .bind ⟨⟨hu, hp⟩, fun _ _ => by simp⟩ fun _ =>
      .bind (within_unlock hu hp) fun _ => trivial
  · exact .bind hclose fun _ => .bind (within_addFile hu f size) fun _ =>
      .bind within_log fun _ => .bind (within_unlock hu hp) fun _ =>
      .bind (within_releaseLockRef hu hp) fun _ => trivial

lemma within_saveFile (hu : user ≠ []) {f : Bytes} (hf : f ∈ names) (size : UInt64) :
    Within user names (saveFile user f size) := by
  refine .tryCatch ?_ (fun _ => .bind within_log fun _ =>
    .bind (within_discardData size) fun _ => trivial)
  refine within_pathAppend (.bind (.bind ?_ ?_) (fun _ => ?_))
  · exact ⟨⟨hu, Or.inl rfl⟩, fun _ _ => by simp⟩
  · rintro (_ | _)
    · exact ⟨⟨hu, rfl⟩, fun _ _ => by simp⟩
    · trivial
  rw [saveInto]
  cases hv : isValidFilename f with
  | false =>
    exact .bind within_log fun _ => .bind (within_discardData size) fun _ => trivial
  | true =>
    have hp : IsFilePath user names (append (append storage user) f) := ⟨f, hf, hv, rfl⟩
    refine within_pathAppend (.bind (within_acquireLockRef hu hp) fun _ => .bind ?_ fun _ => ?_)
    · exact ⟨⟨hu, hp⟩, fun _ _ => trivial⟩
    · exact .onThrow (within_saveLocked hu hp f size) (within_unlock hu hp)

lemma within_getFileSize (hu : user ≠ []) (f : Bytes) : Within user names (getFileSize user f) := by
  refine .bind ⟨⟨hu, rfl⟩, fun _ _ => trivial⟩ ?_
  rintro (_ | _)
  · trivial
  · exact ⟨⟨hu, rfl⟩, fun _ _ => trivial⟩

lemma within_streamLoop (hu : user ≠ []) (hp : IsFilePath user names p) (fuel offset : ℕ) :
    Within user names (streamLoop p fuel offset) := by
  induction fuel generalizing offset with
  | zero => trivial
  | succ fuel ih =>
    refine .bind ⟨⟨hu, hp⟩, fun _ _ => trivial⟩ ?_
    rintro ⟨buffer, good⟩
    dsimp only
    split
    · refine .bind (within_sendAll _) ?_
      rintro (_ | _)
      · trivial
      · cases good
        · trivial
        · exact ih _
    · cases good
      · trivial
      · exact ih _

lemma within_streamLocked (hu : user ≠ []) (hp : IsFilePath user names p) :
    Within user names (streamLocked p) := by
  have hunlock : Within user names (Sys.unlockShared p) :=
    ⟨⟨hu, hp⟩, fun _ _ => trivial⟩
  refine .bind ⟨⟨hu, hp⟩, fun _ _ => trivial⟩ ?_
  rintro (_ | _)
  · exact .bind within_log fun _ => .bind hunlock fun _ =>
      .bind (within_releaseLockRef hu hp) fun _ => trivial
  refine .bind (⟨trivial, fun _ _ => by simp⟩) (fun _ => ?_)
  refine .bind (within_streamLoop hu hp _ _) ?_
  rintro (_ | _)
  · exact .bind within_log fun _ => .bind hunlock fun _ =>
      .bind (within_releaseLockRef hu hp) fun _ => trivial
  · exact .bind within_log fun _ => .bind hunlock fun _ => trivial

lemma within_streamFileToSocket (hu : user ≠ []) {f : Bytes} (hf : f ∈ names) :
    Within user names (streamFileToSocket user f) := by
  refine .tryCatch ?_ (fun _ => .bind within_log fun _ => trivial)
  rw [tryStreamFile]
  cases hv : isValidFilename f with
  | false => trivial
  | true =>
    have hp : IsFilePath user names (append (append storage user) f) := ⟨f, hf, hv, rfl⟩
    refine within_pathAppend (within_pathAppend (.bind (within_acquireLockRef hu hp) fun _ =>
      .bind ⟨⟨hu, hp⟩, fun _ _ => trivial⟩ fun _ => ?_))
    exact .onThrow (within_streamLocked hu hp) ⟨⟨hu, hp⟩, fun _ _ => trivial⟩

lemma within_listFiles (hu : user ≠ []) : Within user names (listFiles user) :=
  .bind ⟨⟨hu, rfl⟩, fun _ _ => trivial⟩ fun _ => trivial

lemma within_deleteFile (hu : user ≠ []) {f : Bytes} (hf : f ∈ names) :
    Within user names (deleteFile user f) := by
  refine .tryCatch ?_ (fun _ => trivial)
  rw [tryDeleteFile]
  cases hv : isValidFilename f with
  | false => trivial
  | true =>
    have hp : IsFilePath user names (append (append storage user) f) := ⟨f, hf, hv, rfl⟩
    refine within_pathAppend (within_pathAppend (.bind (within_acquireLockRef hu hp) fun _ =>
      .bind ⟨⟨hu, hp⟩, fun _ _ => trivial⟩ fun _ => ?_))
    refine .onThrow (.bind ⟨⟨hu, hp⟩, fun _ _ => by simp⟩ ?_)
      (within_unlock hu hp)
    rintro (_ | _)
    · exact .bind (within_unlock hu hp) fun _ =>
        .bind (within_releaseLockRef hu hp) fun _ => trivial
    · exact .bind (within_removeFile hu f) fun _ => .bind (within_unlock hu hp) fun _ =>
        .bind (within_releaseLockRef hu hp) fun _ => trivial

lemma within_unlockBoth (hu : user ≠ []) (hp : IsFilePath user names p)
    (hq : IsFilePath user names q) : Within user names (unlockBoth p q) :=
  .bind (within_unlock hu hp) fun _ => within_unlock hu hq

lemma within_releaseBoth (hu : user ≠ []) (hp : IsFilePath user names p)
    (hq : IsFilePath user names q) : Within user names (releaseBoth p q) :=
  .bind (within_releaseLockRef hu hp) fun _ => within_releaseLockRef hu hq

lemma within_renameLocked (hu : user ≠ []) (hp : IsFilePath user names p)
    (hq : IsFilePath user names q) (f g : Bytes) :
    Within user names (renameLocked user f g p q) := by
  have hexists : ∀ {p}, IsFilePath user names p → Within user names (Sys.fsExists p) := fun hp =>
    ⟨⟨hu, Or.inr hp⟩, fun _ _ => by simp⟩
  refine .bind (.bind (hexists hp) ?_) ?_
  · rintro (_ | _)
    · trivial
    · exact hexists hq
  rintro (_ | _)
  · exact .bind ⟨⟨hu, hp, hq⟩, fun _ _ => by simp⟩ fun _ =>
      .bind ⟨⟨hu, rfl⟩, fun _ _ => trivial⟩ fun _ =>
      .bind (within_removeFile hu f) fun _ => .bind (within_addFile hu g _) fun _ =>
      .bind (within_unlockBoth hu hp hq) fun _ =>
        .bind (within_releaseBoth hu hp hq) fun _ => trivial
  · exact .bind (within_unlockBoth hu hp hq) fun _ =>
      .bind (within_releaseBoth hu hp hq) fun _ => trivial

lemma within_renameFile (hu : user ≠ []) {f g : Bytes} (hf : f ∈ names) (hg : g ∈ names) :
    Within user names (renameFile user f g) := by
  refine .tryCatch ?_ (fun _ => trivial)
  rw [tryRenameFile]
  cases hvf : isValidFilename f with
  | false => trivial
  | true =>
  cases hvg : isValidFilename g with
  | false => trivial
  | true =>
  have hp : IsFilePath user names (append (append storage user) f) := ⟨f, hf, hvf, rfl⟩
  have hq : IsFilePath user names (append (append storage user) g) := ⟨g, hg, hvg, rfl⟩
  refine within_pathAppend (within_pathAppend (within_pathAppend (within_pathAppend ?_)))
  split
  · trivial
  exact .bind (within_acquireLockRef hu hp) fun _ => .bind (within_acquireLockRef hu hq) fun _ =>
    .bind ⟨⟨hu, hp, hq⟩, fun _ _ => trivial⟩ fun _ =>
      .onThrow (within_renameLocked hu hp hq f g) (within_unlockBoth hu hq hp)

end FileManager

namespace Server

open FileManager

lemma within_dispatch (host : Endian) (req : Request) (payload : Bytes) :
    Within user (fileNames req payload) (dispatch host user req payload) := by
  rw [dispatch, fileNames]
  cases CommandType.ofCode req.header.command with
  | none => trivial
  | some c =>
    cases c with
    | login =>
      exact .bind within_log fun _ => trivial
    | upload =>
      dsimp only
      refine .bind ?_ fun _ => trivial
      rw [upload]
      split
      · exact .bind (within_discardData _) fun _ => trivial
      · refine .bind (within_saveFile ‹_› (by simp) _) ?_
        rintro (_ | _) <;> trivial
    | download =>
      dsimp only
      refine .bind ?_ fun _ => trivial
      rw [download]
      split
      · trivial
      · refine .bind (within_getFileSize ‹_› _) fun n => ?_
        split
        · trivial
        · refine .bind (within_sendMessageMeta _ _ _ _) ?_
          rintro (_ | _)
          · trivial
          · refine .bind (within_streamFileToSocket ‹_› (by simp)) ?_
            rintro (_ | _) <;> trivial
    | list =>
      dsimp only
      refine .bind ?_ fun _ => trivial
      rw [list]
      split
      · trivial
      · exact .bind (within_listFiles ‹_›) fun _ => trivial
    | deleteF =>
      dsimp only
      refine .bind ?_ fun _ => trivial
      rw [delete]
      split
      · trivial
      · refine .bind (within_deleteFile ‹_› (by simp)) ?_
        rintro (_ | _) <;> trivial
    | rename =>
      dsimp only
      refine .bind ?_ fun _ => trivial
      rw [rename]
      split
      · trivial
      · refine .bind (within_renameFile ‹_› (by simp) (by simp)) ?_
        rintro (_ | _) <;> trivial
    | quit =>
      dsimp only
      refine .bind ?_ fun _ => trivial
      exact .bind (within_sendMessage _ _ _ _ _) fun _ => trivial

lemma within_sendReply (host : Endian) (reply : Reply) (user' : Bytes) :
    Within user names (sendReply host reply user') := by
  cases reply with
  | message header payload =>
    refine .bind (within_sendMessage _ _ _ _ _) ?_
    rintro (_ | _) <;> trivial
  | streamed => trivial
  | ended exit => trivial

lemma attends_round (host : Endian) : (round host user).Calls Call.Faithful (Attends user) := by
  have hend : endSession.Calls Call.Faithful (Attends user) :=
    .bind ⟨trivial, fun _ _ => trivial⟩ fun _ => .bind ⟨trivial, fun _ _ => trivial⟩ fun _ =>
      attends_within [] within_log
  refine .bind ⟨trivial, fun _ _ => trivial⟩ ?_
  rintro (_ | _)
  · exact .bind hend fun _ => trivial
  refine .bind (.bind (attends_within [] (within_recvMessageMeta host)) ?_) ?_
  · rintro (_ | req)
    · trivial
    refine .bind (attends_within [] within_log) fun _ => .bind ?_ ?_
    · rw [recvPayload]
      split
      · exact .bind (attends_within [] ⟨trivial, fun _ _ => by simp⟩) fun _ =>
          attends_within [] (within_recvAll _)
      · trivial
    rintro (_ | payload)
    · trivial
    refine .bind (attends_within _ (within_dispatch host req payload)) ?_
    rintro ⟨reply, user'⟩
    exact attends_within [] (within_sendReply host reply user')
  · rintro (exit | user')
    · exact .bind hend fun _ => trivial
    · trivial

lemma keeps_round (host : Endian) :
    (round host user).Calls Call.Faithful (fun o => ∃ names, Footprint user names o) :=
  (attends_round host).mono fun _ => Attends.footprint

end Server

end Keeps

end Mtfss
