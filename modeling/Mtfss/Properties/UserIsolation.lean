import Mtfss.Effects.Unwinding
import Mtfss.Properties.FailedUpload
import Mtfss.Properties.FileIdentity
import Mtfss.Server.Regions
import Mtfss.System.Oblige

/-! What the sessions of one user do to those of others. -/

namespace Mtfss.UserIsolation

open Effects Parties Paths Server FailedUpload FileIdentity StorageRoot

/-- Sessions by number, on the store of one server. -/
abbrev Sessions := Parties ℕ (Code (Exit ⊕ Bytes) × Local) Store

/-- The session is at its beginning, or at the head of its loop with `owner` logged in. -/
def Begins (host : Endian) (owner : Bytes) (x : Code (Exit ⊕ Bytes) × Local) : Prop :=
  x.1 = handleClient host ∨ x.1 = round host owner

/-- A step of a session that meets a condition before it. -/
def Moves (env : Env) (host : Endian) (Meets : ℕ → Code (Exit ⊕ Bytes) → Prop) (i : ℕ)
    (m m' : (Code (Exit ⊕ Bytes) × Local) × Store) : Prop :=
  Meets i m.1.1 ∧ LoopStep (next env) (round host) (m.1.1, (m.1.2, m.2)) (m'.1.1, (m'.1.2, m'.2))

/-- Nobody but `owner` is logged in when the session goes on to its next request. -/
def LogsInAs (owner : Bytes) : Code (Exit ⊕ Bytes) → Prop
  | .pure (.inr user) => user = owner ∨ user = []
  | _ => True

/-- Each accepted filename of `user` whose path the next call uses denotes an entry of the directory
of the user. -/
def StaysAtHome (cwd : Cwd) (user : Bytes) : Code (Exit ⊕ Bytes) → Prop
  | .op o _ => ∀ f, isValidFilename f = true → filePath user f ∈ o.paths ++ o.keys →
      IsEntryOf cwd (userDir user) (filePath user f)
  | _ => True

/-- Neither user's directory is, or is inside, that of the other, and the index has them under
different keys. -/
structure Apart (cwd : Cwd) (u v : Bytes) : Prop where
  not_above : ¬ resolve cwd (userDir u) <+: resolve cwd (userDir v)
  not_below : ¬ resolve cwd (userDir v) <+: resolve cwd (userDir u)
  keys : normalizePath (indexDir u) ≠ normalizePath (indexDir v)

section Regions

variable {env : Env} {cwd : Cwd} {U V : Set Bytes} {u : Bytes} {o : Call}

def dirsOf (cwd : Cwd) (U : Set Bytes) : Set Loc := {D | ∃ u ∈ U, D = resolve cwd (userDir u)}

def keysOf (U : Set Bytes) : Set Bytes := {key | ∃ u ∈ U, key = normalizePath (indexDir u)}

lemma separate_dirsOf (h : ∀ u ∈ U, ∀ v ∈ V, Apart cwd u v) :
    Disk.Separate (dirsOf cwd U) (dirsOf cwd V) := by
  rintro _ ⟨u, hu, rfl⟩ _ ⟨v, hv, rfl⟩
  exact ⟨(h u hu v hv).not_above, (h u hu v hv).not_below⟩

lemma not_mem_keysOf (h : ∀ u ∈ U, ∀ v ∈ V, Apart cwd u v) : ∀ key ∈ keysOf U, key ∉ keysOf V := by
  rintro _ ⟨u, hu, rfl⟩ ⟨v, hv, heq⟩
  exact (h u hu v hv).keys heq

lemma attends_of_nobody (h : Attends [] o) (u : Bytes) : Attends u o := by
  cases o <;> first | exact h | exact h.elim fun names ho => ⟨names, (ho.1 rfl).elim⟩

lemma inside_of_attends (hu : u ∈ U) (h : Attends u o)
    (hhome : ∀ f, isValidFilename f = true → filePath u f ∈ o.paths ++ o.keys →
      IsEntryOf cwd (userDir u) (filePath u f)) : o.Inside cwd (dirsOf cwd U) (keysOf U) := by
  have hdir : resolve cwd (userDir u) ∈ dirsOf cwd U := ⟨u, hu, rfl⟩
  have hkey : ∀ {dir}, dir = indexDir u → normalizePath dir ∈ keysOf U := by
    rintro _ rfl
    exact ⟨u, hu, rfl⟩
  have hfile : ∀ {names p}, IsFilePath u names p → p ∈ o.paths ++ o.keys →
      Disk.EntryIn (dirsOf cwd U) (resolve cwd p) := by
    rintro names _ ⟨f, -, hvalid, rfl⟩ hp
    exact ⟨_, hdir, hhome f hvalid hp⟩
  cases o with
  | fsExists p =>
    obtain ⟨names, -, rfl | hp⟩ := h
    · exact Or.inl hdir
    · exact Or.inr (hfile hp (by simp [Call.paths]))
  | createDirectories p =>
    obtain ⟨names, -, rfl⟩ := h
    exact hdir
  | isRegularFile p => exact h.elim fun _ ho => ho.elim
  | fileSize p => exact h.elim fun _ ho => ho.elim
  | fsRemove p => exact h.elim fun _ ho => hfile ho.2 (by simp [Call.paths])
  | openOut p => exact h.elim fun _ ho => hfile ho.2 (by simp [Call.paths])
  | write p data => exact h.elim fun _ ho => hfile ho.2 (by simp [Call.paths])
  | closeOut p => exact h.elim fun _ ho => hfile ho.2 (by simp [Call.paths])
  | openIn p => exact h.elim fun _ ho => hfile ho.2 (by simp [Call.paths])
  | read p offset count => exact h.elim fun _ ho => hfile ho.2 (by simp [Call.paths])
  | fsRename p q =>
    obtain ⟨names, -, hp, hq⟩ := h
    exact ⟨hfile hp (by simp [Call.paths]), hfile hq (by simp [Call.paths])⟩
  | acquireLockRef key => exact h.elim fun _ ho => hfile ho.2 (by simp [Call.keys])
  | releaseLockRef key => exact h.elim fun _ ho => hfile ho.2 (by simp [Call.keys])
  | lock key => exact h.elim fun _ ho => hfile ho.2 (by simp [Call.keys])
  | unlock key => exact h.elim fun _ ho => hfile ho.2 (by simp [Call.keys])
  | lockShared key => exact h.elim fun _ ho => hfile ho.2 (by simp [Call.keys])
  | unlockShared key => exact h.elim fun _ ho => hfile ho.2 (by simp [Call.keys])
  | lockBoth key₁ key₂ =>
    obtain ⟨names, -, hp, hq⟩ := h
    exact ⟨hfile hp (by simp [Call.keys]), hfile hq (by simp [Call.keys])⟩
  | addFile dir f size time => exact h.elim fun _ ho => hkey ho.2
  | removeFile dir f => exact h.elim fun _ ho => hkey ho.2
  | fileExists dir f => exact h.elim fun _ ho => hkey ho.2
  | getFileSize dir f => exact h.elim fun _ ho => hkey ho.2
  | listDirectory dir => exact h.elim fun _ ho => hkey ho.2
  | _ => trivial

end Regions

section Isolation

variable {env : Env} {host : Endian} {owner : ℕ → Bytes} {a : Bytes} {i : ℕ}
variable {x x' : Code (Exit ⊕ Bytes) × Local} {s s' t : Store}

/-- What is asked of the steps of the sessions of the users `owner`. -/
def Proper (cwd : Cwd) (owner : ℕ → Bytes) (i : ℕ) (p : Code (Exit ⊕ Bytes)) : Prop :=
  LogsInAs (owner i) p ∧ StaysAtHome cwd (owner i) p

/-- All that is left of a session is done for its owner. -/
def IsOwn (owner : ℕ → Bytes) (i : ℕ) (x : Code (Exit ⊕ Bytes) × Local) : Prop :=
  x.1.Calls Call.Faithful (Attends (owner i))

/-- The users of other sessions than those of `a`. -/
def others (owner : ℕ → Bytes) (a : Bytes) : Set Bytes := {u | u ≠ a ∧ ∃ i, owner i = u}

lemma attends_nobody (host : Endian) (u : Bytes) :
    (round host []).Calls Call.Faithful (Attends u) :=
  (attends_round host).mono fun _ ho => attends_of_nobody ho u

lemma isOwn_of_begins (h : Begins host (owner i) x) : IsOwn owner i x := by
  obtain ⟨p, l⟩ := x
  obtain rfl | rfl : p = handleClient host ∨ p = round host (owner i) := h
  · exact .bind ⟨trivial, fun _ _ => trivial⟩ fun _ => attends_nobody host _
  · exact attends_round host

lemma IsOwn.move (h : IsOwn owner i x)
    (hm : Moves env host (Proper env.cwd owner) i (x, s) (x', s')) :
    IsOwn owner i x' := by
  obtain ⟨p, l⟩ := x
  obtain ⟨q, l'⟩ := x'
  obtain ⟨⟨hlogin, -⟩, hs⟩ := hm
  cases hs with
  | inside hs => exact calls_step h (fun _ _ _ _ => next_faithful) hs
  | @again user m =>
    obtain rfl | rfl : user = owner i ∨ user = [] := hlogin
    · exact attends_round host
    · exact attends_nobody host _

lemma unnoticed (hapart : ∀ i, owner i ≠ a → Apart env.cwd a (owner i)) :
    Unnoticed (Moves env host (Proper env.cwd owner)) (IsOwn owner) {i | owner i = a}
      (Store.SameIn env (dirsOf env.cwd (others owner a)) (keysOf (others owner a))) where
  keep h hm := h.move hm
  aside := by
    rintro i ⟨p, l⟩ s ⟨q, l'⟩ s' t hi h hst ⟨⟨-, hhome⟩, hs⟩
    have ha : ∀ u ∈ ({a} : Set Bytes), ∀ v ∈ others owner a, Apart env.cwd u v := by
      rintro _ rfl _ ⟨hv, j, rfl⟩
      exact hapart j hv
    cases hs with
    | again => exact hst
    | inside hs =>
      cases hs with
      | call r hr =>
        have hin := inside_of_attends (U := {a}) hi h.1 hhome
        exact (Store.sameIn_aside hin hr (separate_dirsOf ha) (not_mem_keysOf ha)).trans hst
  alike := by
    rintro i ⟨p, l⟩ s ⟨q, l'⟩ s' t hi h hst ⟨hproper, hs⟩
    cases hs with
    | again => exact ⟨t, ⟨hproper, .again⟩, hst⟩
    | inside hs =>
      cases hs with
      | call r hr =>
        have hin := inside_of_attends (U := others owner a) ⟨hi, i, rfl⟩ h.1 hproper.2
        obtain ⟨t', ht', hagree⟩ := hst.alike hin hr
        exact ⟨t', ⟨hproper, .inside (.call r ht')⟩, hagree⟩

/-- The second has the sessions of the first but for those of `a`. -/
structure Without (owner : ℕ → Bytes) (a : Bytes) (c d : Sessions) : Prop where
  same : ∀ i, owner i ≠ a → d.party i = c.party i
  absent : ∀ i, owner i = a → d.party i = none

/-- While the directory and the index key of `a` are apart from those of the others, and nobody uses
a filename that leads out of the user's directory, the others do with the sessions of `a` what they
can do without them, and get the same responses. -/
theorem isolated (env : Env) (host : Endian) (owner : ℕ → Bytes) (a : Bytes)
    (client : ℕ → Code (Exit ⊕ Bytes) × Local) (hclient : ∀ i, Begins host (owner i) (client i))
    (hapart : ∀ i, owner i ≠ a → Apart env.cwd a (owner i)) (s : Store) (c : Sessions)
    (h : Parties.Run (fun i x => x = client i) (Moves env host (Proper env.cwd owner)) (idle s) c) :
    ∃ d, Parties.Run (fun i x => x = client i) (Moves env host (Proper env.cwd owner)) (idle s) d ∧
      Without owner a c d := by
  have hstart : ∀ i x, x = client i → IsOwn owner i x := by
    rintro i _ rfl
    exact isOwn_of_begins (hclient i)
  obtain ⟨d, hd, hides⟩ := unwind (unnoticed hapart) hstart (Store.SameIn.refl ..) h
  exact ⟨d, hd, hides.shown, hides.absent⟩

end Isolation

section Examples

variable {a b u : Bytes} {p q : Code (Exit ⊕ Bytes)} {l l' : Local} {s s' : Store}

def listing : Request := ⟨makeRequest .list 0 0 0, [], []⟩

/-- Session 0 is of `a`, the others are of `b`. -/
def owner (a b : Bytes) : ℕ → Bytes
  | 0 => a
  | _ + 1 => b

/-- The session of `a` uploads the file `x`, the others list their files. -/
def client (a b : Bytes) : ℕ → Code (Exit ⊕ Bytes) × Local
  | 0 => (round .little a, .fresh 0 (oneByte.wire ++ bytes "a") false)
  | i + 1 => (round .little b, .fresh (i + 1) listing.wire false)

lemma begins_client (a b : Bytes) (i : ℕ) : Begins .little (owner a b i) (client a b i) := by
  cases i <;> exact Or.inr rfl

/-- The call uses no path but those of the user's directory and of the file `x` in it. -/
def KeepsTo (u : Bytes) (o : Call) : Prop :=
  ∀ p ∈ o.paths ++ o.keys, p = userDir u ∨ p = filePath u (bytes "x")

instance (u : Bytes) (o : Call) : Decidable (KeepsTo u o) := by
  unfold KeepsTo
  infer_instance

/-- The environment for a user whose calls keep to the file `x`. -/
def keeping (u : Bytes) : Next Call Answer Machine := fun o m r =>
  if KeepsTo u o then next .atRoot o m r else none

def newStore : Store := .fresh (.ofDir [driveRoot 0x43])

/-- A round of a session of the user in which nothing fails. -/
def played (u : Bytes) (x : Code (Exit ⊕ Bytes) × Local) (s : Store) :
    Option (Prog.Running Call Answer Exn (Exit ⊕ Bytes) Machine) :=
  follow (oblige .atRoot) (keeping u) 100 x.1 (x.2, s)

/-- The session 1 when `a` has uploaded and `b` has then listed. -/
def listed (a b : Bytes) : Option (Prog.Running Call Answer Exn (Exit ⊕ Bytes) Machine) :=
  (played a (client a b 0) newStore).bind fun c => played b (client a b 1) c.2.2

lemma moves_of_steps {M : ℕ → Code (Exit ⊕ Bytes) → Prop} {i : ℕ}
    (hM : ∀ o (k : Answer o → Code (Exit ⊕ Bytes)), KeepsTo u o → M i (.op o k))
    {c d : Prog.Running Call Answer Exn (Exit ⊕ Bytes) Machine} (h : Steps (keeping u) c d) :
    Relation.ReflTransGen (Moves .atRoot .little M i) ((c.1, c.2.1), c.2.2)
      ((d.1, d.2.1), d.2.2) := by
  induction h with
  | refl => exact .refl
  | tail _ hs ih =>
    refine ih.tail ?_
    cases hs with
    | @call o k m m' r hr =>
      obtain ⟨hkeeps, hnext⟩ := Option.ite_none_right_eq_some.mp hr
      exact ⟨hM o k hkeeps, .inside (.call r hnext)⟩

lemma run_listed {M : ℕ → Code (Exit ⊕ Bytes) → Prop}
    (hM : ∀ i o (k : Answer o → Code (Exit ⊕ Bytes)), KeepsTo (owner a b i) o → M i (.op o k))
    (h : listed a b = some (q, (l, s))) :
    ∃ c : Sessions, Parties.Run (fun i x => x = client a b i) (Moves .atRoot .little M)
      (idle newStore) c ∧
      c.party 1 = some (q, l) ∧ ∀ i, 1 < i → c.party i = none := by
  obtain ⟨⟨q₀, l₀, s₀⟩, h₀, h₁⟩ := Option.bind_eq_some_iff.mp h
  have hrun₀ : Parties.Run (fun i x => x = client a b i) (Moves .atRoot .little M)
      (idle newStore) _ :=
    run_party (i := 0) rfl rfl (moves_of_steps (hM 0) (steps_of_follow h₀))
  have hrun₁ : Parties.Run (fun i x => x = client a b i) (Moves .atRoot .little M) _ _ :=
    run_party (c := (idle newStore).set 0 (q₀, l₀) s₀) (i := 1) rfl rfl
      (moves_of_steps (hM 1) (steps_of_follow h₁))
  refine ⟨_, hrun₀.trans hrun₁, set_party_self .., fun i hi => ?_⟩
  rw [set_party_ne (by omega), set_party_ne (by omega)]
  rfl

lemma filePath_ne_userDir (hu : IsPlain u) {f : Bytes} (hf : isValidFilename f = true) :
    filePath u f ≠ userDir u := by
  intro h
  by_cases hr : rootName f = []
  · rw [filePath_extend hf (.inl hr), relative_of_noRoot hr, extend, hasFilename_userDir] at h
    have hlen := congrArg List.length h
    have hpos := List.length_pos_of_ne_nil (isValidFilename_iff.mp hf).1
    split at hlen <;> simp only [List.length_append, List.length_cons] at hlen <;> omega
  · have hstays : ¬ StaysInDir u f := by
      rintro (h | h)
      · exact hr h
      · exact hr (h.trans hu.noDrive)
    rw [filePath_drive hstays, userDir_plain hu] at h
    have hsep := noSep_of_valid hf backslash (by simp [h])
    cases hsep

lemma proper_of_keepsTo (ha : IsPlain a) (hb : IsPlain b) (i : ℕ) (o : Call)
    (k : Answer o → Code (Exit ⊕ Bytes)) (h : KeepsTo (owner a b i) o) :
    Proper Env.atRoot.cwd (owner a b) i (.op o k) := by
  have hu : IsPlain (owner a b i) := by
    cases i
    · exact ha
    · exact hb
  refine ⟨trivial, fun f hf hmem => ?_⟩
  rcases h _ hmem with hdir | hfile
  · exact (filePath_ne_userDir hu hf hdir).elim
  · rw [hfile]
    exact isEntryOf_plain Env.atRoot.cwd hu (by decide)

def goesOn : Code (Exit ⊕ Bytes) → Bool
  | .pure (.inr _) => true
  | _ => false

/-- What eve is told of her files does not depend on the upload of bob. -/
theorem isolated_bob : ∃ c d : Sessions, (∃ p l, c.party 1 = some (p, l) ∧ goesOn p = true) ∧
    Parties.Run (fun i x => x = client (bytes "bob") (bytes "eve") i) (Moves .atRoot .little
      (Proper Env.atRoot.cwd (owner (bytes "bob") (bytes "eve")))) (idle newStore) d ∧
    Without (owner (bytes "bob") (bytes "eve")) (bytes "bob") c d := by
  have hend : (listed (bytes "bob") (bytes "eve")).any (fun c => goesOn c.1) = true := by
    decide +kernel
  obtain ⟨⟨q, l, s⟩, hlisted, hgoes⟩ := (Option.any_eq_true _ _).mp hend
  obtain ⟨c, hrun, hc, -⟩ := run_listed (proper_of_keepsTo plain_bob (by decide)) hlisted
  have happart : Apart Env.atRoot.cwd (bytes "bob") (bytes "eve") :=
    ⟨by decide, by decide, by decide⟩
  have hapart : ∀ i, owner (bytes "bob") (bytes "eve") i ≠ bytes "bob" →
      Apart Env.atRoot.cwd (bytes "bob") (owner (bytes "bob") (bytes "eve") i) := by
    rintro (_ | i) hi
    · exact (hi rfl).elim
    · exact happart
  obtain ⟨d, hd, hwithout⟩ := isolated .atRoot .little _ _ _ (begins_client _ _) hapart _ c hrun
  exact ⟨c, d, ⟨q, l, hc, hgoes⟩, hd, hwithout⟩

def emptyReply : Message where
  header := makeResponse CommandType.list.code .ok 7
  username := []
  filename := []
  payload := bytes "(Empty)"
  username_length := rfl
  filename_length := rfl
  payload_length := rfl
  username_small := by decide
  filename_small := by decide
  payload_small := by decide

lemma framed_listing : listing.Framed := ⟨rfl, rfl, by decide, by decide⟩

/-- A session has read and answered one LIST, of no files. -/
structure Told (r : Except Exn (Exit ⊕ Bytes)) (m : Machine) : Prop where
  sent : m.1.conn.sent = emptyReply.wire
  input : m.1.conn.input = []
  eof : m.1.conn.eof = false
  running : m.2.running = true

lemma wp_round_listing (hu : u ≠ []) (hconn : l.conn = ⟨listing.wire, false, [], 0⟩)
    (hrun : s.running = true)
    (hindex : s.index = .empty) : wp (next .atRoot) (round .little u) Told (l, s) := by
  rw [Server.round, Prog.bind_eq, wp_bind, Rules.wp_running]
  refine ⟨fun _ => ?_, fun h => ?_⟩
  · rw [afterBind_ok, if_pos rfl, Prog.bind_eq, wp_bind, handleRequest, Prog.bind_eq, wp_bind,
      (receives_recvMessageMeta (W := machine .atRoot) (allocates_machine rfl) .little
        framed_listing).whole]
    · have hpayload : recvPayload listing.header = .pure (some []) := rfl
      have hdispatch : dispatch .little u listing [] =
          (list u CommandType.list.code).bind fun reply => .pure (reply, u) := rfl
      have hlist : list u CommandType.list.code = (FileManager.listFiles u).bind fun text =>
          .pure (respond CommandType.list.code .ok text) := by
        rw [list, if_neg hu]
        rfl
      have hnone : s.index.listDirectory (indexDir u) = [] := by rw [hindex]; rfl
      simp only [afterBind_ok, Prog.bind_eq, wp_bind, Rules.wp_log, hpayload, hdispatch,
        hlist, wp_pure,
        Prog.pure_eq, FileManager.listFiles, machine, Rules.wp_listDirectory, hnone, List.perm_nil]
      refine ⟨?_, (by rintro ⟨⟩)⟩
      rintro _ rfl
      have hrespond : respond CommandType.list.code .ok (FileManager.renderListing []) =
          .message emptyReply.header emptyReply.payload := rfl
      have hreply : sendReply .little (.message emptyReply.header emptyReply.payload) u =
          (sendMessage .little emptyReply.header emptyReply.username emptyReply.filename
            (some emptyReply.payload)).bind fun sent =>
              if sent = true then .pure (.inr u) else .pure (.inl .responseLost) := rfl
      rw [hrespond, hreply, wp_bind, emptyReply.sends_sendMessage (W := machine .atRoot) .little]
      simp only [afterBind_ok, if_true, wp_pure, machine]
      refine ⟨⟨?_, ?_, ?_, hrun⟩, fun heof => ?_⟩
      · rw [Conn.sent_emit, Conn.sent_consume, hconn]
        rfl
      · simp [hconn]
      · simp [hconn]
      · simp [hconn] at heof
    · show listing.wire <+: l.conn.input
      rw [hconn]
  · simp [hrun, Env.atRoot, Faults.none] at h

lemma safe_round_waiting (hin : l.conn.input = []) (heof : l.conn.eof = false)
    (hrun : s.running = true) :
    Safe (next .atRoot) (fun _ _ => True) (round .little u) (fun _ _ => False) (l, s) := by
  refine safe_op.mpr ⟨trivial, fun r m hr => ?_⟩
  cases r with
  | true =>
    obtain ⟨-, ⟨⟩⟩ := Option.ite_none_right_eq_some.mp hr
    refine safe_op.mpr ⟨trivial, fun r m hr => ?_⟩
    obtain ⟨c, hc, -⟩ := Option.map_eq_some_iff.mp hr
    rcases (Conn.recv_positive (by decide)).mp hc with ⟨bs, -, hbs, -, hpre, -⟩ | ⟨-, heof', -⟩
    · rw [hin] at hpre
      exact (hbs (List.prefix_nil.mp hpre)).elim
    · rw [heof] at heof'
      cases heof'
  | false =>
    obtain ⟨hstop, -⟩ := Option.ite_none_right_eq_some.mp hr
    simp [hrun, Env.atRoot, Faults.none] at hstop

/-- Where a session with one LIST to answer stands. -/
def Listing (c : Prog.Running Call Answer Exn (Exit ⊕ Bytes) Machine) : Prop :=
  wp (next .atRoot) c.1 Told c.2 ∨ Safe (next .atRoot) (fun _ _ => True) c.1 (fun _ _ => False) c.2

lemma Listing.step {c d : Prog.Running Call Answer Exn (Exit ⊕ Bytes) Machine} (h : Listing c)
    (hs : LoopStep (next .atRoot) (round .little) c d) : Listing d := by
  cases hs with
  | inside hs => exact h.imp (wp_step · hs) (safe_step · hs)
  | @again x m =>
    rcases h with htold | hfalse
    · exact Or.inr (safe_round_waiting htold.input htold.eof htold.running)
    · exact hfalse.elim

/-- The usernames `bob` and `bob/` share an entry of the index. -/
theorem not_isolated : ¬ ∀ (env : Env) (host : Endian) (a b : Bytes), a ≠ b →
    SessionUser env host a →
    SessionUser env host b → ∀ owner : ℕ → Bytes, (∀ i, owner i = a ∨ owner i = b) →
    ∀ client : ℕ → Code (Exit ⊕ Bytes) × Local, (∀ i, Begins host (owner i) (client i)) →
    ∀ (s : Store) (c : Sessions), Parties.Run (fun i x => x = client i)
      (Moves env host fun i => LogsInAs (owner i)) (idle s) c →
    ∃ d, Parties.Run (fun i x => x = client i)
      (Moves env host fun i => LogsInAs (owner i)) (idle s) d ∧
      Without owner a c d := by
  intro hall
  have hend : (listed (bytes "bob") (bytes "bob/")).any (fun c => goesOn c.1 &&
      c.2.1.conn.sent != emptyReply.wire) = true := by decide +kernel
  obtain ⟨⟨q, l, s⟩, hlisted, hcheck⟩ := (Option.any_eq_true _ _).mp hend
  obtain ⟨hgoes, hsent⟩ := Bool.and_eq_true_iff.mp hcheck
  obtain ⟨c, hrun, hc, hnone⟩ := run_listed
    (M := fun i => LogsInAs (owner (bytes "bob") (bytes "bob/") i)) (fun _ _ _ _ => trivial) hlisted
  have huser : ∀ u : Bytes, u ≠ [] → u.length + 10 < 2 ^ 31 → SessionUser .atRoot .little u :=
    fun u hu h => sessionUser_login rfl rfl .little hu h
  obtain ⟨d, hd, hwithout⟩ := hall .atRoot .little (bytes "bob") (bytes "bob/") (by decide)
    (huser _ (by decide) (by decide)) (huser _ (by decide) (by decide))
    (owner (bytes "bob") (bytes "bob/")) (by rintro (_ | i) <;> simp [owner]) _
      (begins_client _ _) _ c hrun
  have honly : ∀ i ≠ 1, d.party i = none := by
    rintro (_ | i) hi
    · exact hwithout.absent 0 rfl
    · rw [hwithout.same (i + 1) (show bytes "bob/" ≠ bytes "bob" by decide)]
      exact hnone (i + 1) (by omega)
  have hsession : d.party 1 = some (q, l) := (hwithout.same 1 (by decide)).trans hc
  rcases run_alone hd honly with ⟨hno, -⟩ | ⟨x, x', rfl, hx', hmoves⟩
  · cases hno.symm.trans hsession
  cases hx'.symm.trans hsession
  have hlisting : ∀ {m}, Relation.ReflTransGen (Moves .atRoot .little
      (fun i => LogsInAs (owner (bytes "bob") (bytes "bob/") i)) 1)
      (client (bytes "bob") (bytes "bob/") 1, newStore) m → Listing (m.1.1, (m.1.2, m.2)) := by
    intro m hm
    induction hm with
    | refl => exact Or.inl (wp_round_listing (by decide) rfl rfl rfl)
    | tail _ hs ih => exact ih.step hs.2
  cases q with
  | pure r =>
    rcases hlisting hmoves with htold | hfalse
    · rw [htold.sent] at hsent
      simp at hsent
    · exact hfalse.elim
  | throw e => cases hgoes
  | op o k => cases hgoes

end Examples

end Mtfss.UserIsolation
