import Mtfss.Client.Client
import Mtfss.Properties.StoredUpload

/-! What a download leaves of the local file and of the connection. -/

namespace Mtfss.WholeDownload

open Effects Paths FileManager StoredUpload

def responseHeader (host : Endian) (c : Conn) : MessageHeader :=
  (headerOfMemory host (c.input.take 32)).swap host

def metaLength (h : MessageHeader) : ℕ := 32 + h.usernameLength.toNat + h.filenameLength.toNat

def responseLength (h : MessageHeader) : ℕ := metaLength h + h.payloadLength.toNat

def payload (host : Endian) (c : Conn) : Bytes :=
  (c.input.drop (metaLength (responseHeader host c))).take
    (responseHeader host c).payloadLength.toNat

/-- `dl_path` -/
def localPath (filename : Bytes) : Bytes := append Client.downloads filename

def localContent (env : Env) (filename : Bytes) (s : Store) : Option Bytes :=
  s.disk.content (resolve env.cwd (localPath filename))

/-- The local file holds the payload, which has arrived whole. -/
structure Downloaded (env : Env) (host : Endian) (filename : Bytes) (c : Conn) (s : Store) :
    Prop where
  content : localContent env filename s = some (payload host c)
  length : (payload host c).length = (responseHeader host c).payloadLength.toNat

def NoCopy (env : Env) (filename : Bytes) (s s' : Store) : Prop :=
  localContent env filename s' = none ∨ localContent env filename s' = localContent env filename s

def Dead (c : Conn) : Prop := c.input = [] ∧ c.eof = true

/-- The client has disconnected, or the connection is dead, or exactly the response is consumed. -/
def Settled (host : Endian) (u : Client) (c c' : Conn) : Prop :=
  u.connected = false ∨ Dead c' ∨
    responseLength (responseHeader host c) ≤ c.input.length ∧
      c'.input = c.input.drop (responseLength (responseHeader host c))

def Asked (filename : Bytes) (u : Client) (c c' : Conn) : Prop :=
  c'.sent = c.sent ++ wireMeta (makeRequest .download 0 filename.length u.username.length)
    u.username filename

/-- A refusal with an error text longer than an `int` counts, on a connection that does not end
within the part that `recv_all` reads of it. -/
structure Overlong (host : Endian) (c : Conn) : Prop where
  username : (responseHeader host c).usernameLength.toNat < 2 ^ 31
  filename : (responseHeader host c).filenameLength.toNat < 2 ^ 31
  status : (responseHeader host c).status ≠ StatusCode.ok.code
  payload : 2 ^ 31 ≤ (responseHeader host c).payloadLength.toNat
  lasts : ¬ (c.eof = true ∧ c.input.length ≤ metaLength (responseHeader host c) +
    (toInt32 (responseHeader host c).payloadLength.toNat).toNat)

section Receiving

variable {env : Env} {m : (Local × ℕ) × Store}

/-- The thread after it has read `n` more bytes. -/
def after (env : Env) (m : (Local × ℕ) × Store) (n : ℕ) : (Local × ℕ) × Store :=
  (wired env).put m (m.1.1.conn.skip n)

@[simp] lemma after_conn (n : ℕ) : (after env m n).1.1.conn = m.1.1.conn.skip n := rfl

@[simp] lemma after_store (n : ℕ) : (after env m n).2 = m.2 := rfl

lemma after_after (a b : ℕ) : after env (after env m a) b = after env m (a + b) := by
  rw [after, after_conn, Conn.skip_skip]
  rfl

def isReading : Call → Bool
  | .recv _ | .alloc _ => true
  | _ => false

lemma safe_store {α : Type} {p : Code α}
    (hp : p.Calls (fun _ _ => True) (fun o => isReading o = true)) :
    Safe (counted env) (fun _ _ => True) p (fun _ m' => m'.2 = m.2) m := by
  refine safe_of_calls (I := fun m' : (Local × ℕ) × Store => m'.2 = m.2) hp
    (fun _ _ _ _ _ => trivial) (fun _ _ _ _ => trivial) ?_ rfl
  intro o m₁ r m₂ ho hr hm₁
  obtain ⟨⟨l, j⟩, s⟩ := m₁
  obtain ⟨⟨l', j'⟩, s'⟩ := m₂
  obtain ⟨hnext, -⟩ := Monitor.watch_eq_some.mp hr
  rw [← hm₁]
  cases o with
  | recv count =>
    obtain ⟨c, -, hpair⟩ := Option.map_eq_some_iff.mp hnext
    cases hpair
    rfl
  | alloc n =>
    rw [next, Rules.orThrow_eq_some] at hnext
    obtain ⟨_, rfl, ⟨⟩⟩ | ⟨_, rfl, ⟨⟩⟩ := hnext <;> rfl
  | _ => cases ho

lemma safe_recvAll_small {n : ℕ} (hn : n < 2 ^ 31) :
    Safe (counted env) (fun _ _ => True) (recvAll n) (fun r m' =>
      (∀ buf, r = .ok (some buf) → n ≤ m.1.1.conn.input.length ∧ buf = m.1.1.conn.input.take n ∧
        m' = after env m n) ∧
      (r = .ok none → m.1.1.conn.eof = true ∧ m.1.1.conn.input.length < n ∧ Dead m'.1.1.conn ∧
        m'.2 = m.2)) m := by
  refine safe_mono (safe_recvAll_skip (wired env) hn) ?_
  rintro r m' ⟨rfl, ⟨rfl, hlen⟩ | ⟨rfl, hshort, heof⟩⟩
  · constructor
    · rintro buf ⟨⟩
      exact ⟨hlen, rfl, rfl⟩
    · nofun
  · refine ⟨nofun, fun _ => ⟨heof, hshort, ⟨?_, heof⟩, rfl⟩⟩
    exact (Conn.skip_input _ n).trans (List.drop_of_length_le hshort.le)

lemma safe_alloc {α : Type} {n : ℕ} {p : Code α} {Q : Except Exn α → (Local × ℕ) × Store → Prop}
    (herror : ∀ e, Q (.error e) m) (h : Safe (counted env) (fun _ _ => True) p Q m) :
    Safe (counted env) (fun _ _ => True) ((Sys.alloc n).bind (fun _ => p)) Q m := by
  refine ⟨trivial, fun r m' hm => ?_⟩
  obtain ⟨⟨l, j⟩, s⟩ := m
  obtain ⟨⟨l', j'⟩, s'⟩ := m'
  obtain ⟨hnext, rfl⟩ := Monitor.watch_eq_some.mp hm
  rw [next, Rules.orThrow_eq_some] at hnext
  obtain ⟨_, rfl, ⟨⟩⟩ | ⟨_, rfl, ⟨⟩⟩ := hnext
  · exact h
  · exact herror _

/-- The connection ends within the next `n` bytes. -/
def Cut (c : Conn) (n : ℕ) : Prop := c.eof = true ∧ c.input.length < n

lemma safe_recvField (n : UInt64) :
    Safe (counted env) (fun _ _ => True) (recvField n) (fun r m' =>
      (∀ f, r = .ok (some f) → n.toNat < 2 ^ 31 ∧ n.toNat ≤ m.1.1.conn.input.length ∧
        m' = after env m n.toNat) ∧
      (r = .ok none → n.toNat < 2 ^ 31 → Cut m.1.1.conn n.toNat)) m := by
  unfold recvField
  split
  · refine safe_alloc (fun _ => ⟨nofun, nofun⟩) ?_
    by_cases hn : n.toNat < 2 ^ 31
    · refine safe_mono (safe_recvAll_small hn) ?_
      rintro r m' ⟨hall, hlost⟩
      constructor
      · intro f hf
        obtain ⟨hle, -, hm'⟩ := hall f hf
        exact ⟨hn, hle, hm'⟩
      · intro hr _
        obtain ⟨heof, hshort, -⟩ := hlost hr
        exact ⟨heof, hshort⟩
    · refine safe_mono (safe_recvAll_large (wired env) (not_lt.mp hn)) ?_
      rintro r m' ⟨rfl, -⟩
      exact ⟨nofun, fun _ hsmall => (hn hsmall).elim⟩
  · refine ⟨fun f hf => ?_, nofun⟩
    have hzero : n.toNat = 0 := by
      rename_i h
      rw [UInt64.lt_iff_toNat_lt] at h
      simpa using h
    rw [hzero]
    refine ⟨by decide, Nat.zero_le _, ?_⟩
    rw [after, Conn.skip_zero]
    exact ((wired env).put_conn m).symm

/-- The response up to its payload has been read. -/
structure Met (env : Env) (host : Endian) (m : (Local × ℕ) × Store) (resp : Request)
    (m' : (Local × ℕ) × Store) : Prop where
  header : resp.header = responseHeader host m.1.1.conn
  username : (responseHeader host m.1.1.conn).usernameLength.toNat < 2 ^ 31
  filename : (responseHeader host m.1.1.conn).filenameLength.toNat < 2 ^ 31
  arrived : metaLength (responseHeader host m.1.1.conn) ≤ m.1.1.conn.input.length
  after : m' = after env m (metaLength (responseHeader host m.1.1.conn))

lemma safe_recvHeader (host : Endian) :
    Safe (counted env) (fun _ _ => True) (recvHeader host) (fun r m' =>
      (∀ h, r = .ok (some h) →
        h = responseHeader host m.1.1.conn ∧ 32 ≤ m.1.1.conn.input.length ∧ m' = after env m 32) ∧
      (r = .ok none → Cut m.1.1.conn 32)) m := by
  refine safe_bind_of (safe_recvAll_small (by decide)) ?_
  rintro (e | _ | bs) m' ⟨hall, hlost⟩
  · exact ⟨nofun, nofun⟩
  · refine ⟨nofun, fun _ => ?_⟩
    obtain ⟨heof, hshort, -⟩ := hlost rfl
    exact ⟨heof, hshort⟩
  · refine ⟨?_, nofun⟩
    rintro _ ⟨⟩
    obtain ⟨hle, rfl, hm'⟩ := hall bs rfl
    exact ⟨rfl, hle, hm'⟩

/-- How the reading of a response up to its payload ends. -/
structure MetaEnds (env : Env) (host : Endian) (m : (Local × ℕ) × Store)
    (r : Except Exn (Option Request)) (m' : (Local × ℕ) × Store) : Prop where
  met : ∀ resp, r = .ok (some resp) → Met env host m resp m'
  lost : r = .ok none → (responseHeader host m.1.1.conn).usernameLength.toNat < 2 ^ 31 →
    (responseHeader host m.1.1.conn).filenameLength.toNat < 2 ^ 31 →
      Cut m.1.1.conn (metaLength (responseHeader host m.1.1.conn))

lemma safe_recvMessageMeta (host : Endian) :
    Safe (counted env) (fun _ _ => True) (recvMessageMeta host) (MetaEnds env host m) m := by
  refine safe_bind_of (safe_recvHeader host) ?_
  rintro (e | _ | h) m₁ ⟨hheader, hlost⟩
  · exact ⟨nofun, nofun⟩
  · refine ⟨nofun, fun _ _ _ => ?_⟩
    obtain ⟨heof, hshort⟩ := hlost rfl
    exact ⟨heof, by rw [metaLength]; omega⟩
  obtain ⟨rfl, h32, rfl⟩ := hheader h rfl
  refine safe_bind_of (safe_recvField _) ?_
  rintro (e | _ | username) m₂ ⟨husername, hlost⟩
  · exact ⟨nofun, nofun⟩
  · refine ⟨nofun, fun _ hu _ => ?_⟩
    obtain ⟨heof, hshort⟩ := hlost rfl hu
    rw [after_conn, Conn.skip_input, List.length_drop] at hshort
    exact ⟨heof, by rw [metaLength]; omega⟩
  obtain ⟨hu, hulen, rfl⟩ := husername username rfl
  refine safe_bind_of (safe_recvField _) ?_
  rintro (e | _ | filename) m₃ ⟨hfilename, hlost⟩
  · exact ⟨nofun, nofun⟩
  · refine ⟨nofun, fun _ _ hf => ?_⟩
    obtain ⟨heof, hshort⟩ := hlost rfl hf
    rw [after_after, after_conn, Conn.skip_input, List.length_drop] at hshort
    exact ⟨heof, by rw [metaLength]; omega⟩
  obtain ⟨hf, hflen, rfl⟩ := hfilename filename rfl
  refine ⟨?_, nofun⟩
  rintro _ ⟨⟩
  refine ⟨rfl, hu, hf, ?_, ?_⟩
  · simp only [after_conn, Conn.skip_skip, Conn.skip_input, List.length_drop] at hulen hflen
    rw [metaLength]
    omega
  · rw [after_after, after_after, metaLength, Nat.add_assoc]

/-- How far the reading of an error text of `n` bytes comes on the connection `c`. -/
structure TextRead (n : ℕ) (c c' : Conn) : Prop where
  small : n < 2 ^ 31 → n ≤ c.input.length ∧ c' = c.skip n ∨ Dead c'
  large : 2 ^ 31 ≤ n → c' = c.skip (toInt32 n).toNat ∧
    ((toInt32 n).toNat ≤ c.input.length ∨ c.eof = true)

lemma safe_print {α : Type} {text : Bytes} {p : Code α}
    {Q : Except Exn α → (Local × ℕ) × Store → Prop}
    (h : ∀ m', m'.1.1.conn = m.1.1.conn → m'.2 = m.2 →
      Safe (counted env) (fun _ _ => True) p Q m') :
    Safe (counted env) (fun _ _ => True) ((Sys.print text).bind (fun _ => p)) Q m := by
  refine ⟨trivial, fun r m' hr => ?_⟩
  obtain ⟨⟨l, j⟩, s⟩ := m
  cases hr
  exact h _ rfl rfl

end Receiving

section Refused

variable {env : Env} {m : (Local × ℕ) × Store}

/-- The end of `download_file` on a response other than 200. -/
def RefusedEnds (h : MessageHeader) (u : Client) (m : (Local × ℕ) × Store)
    (r : Except Exn (Bool × Client)) (m' : (Local × ℕ) × Store) : Prop :=
  ∀ b u', r = .ok (b, u') → b = false ∧ u' = u ∧ m'.2 = m.2 ∧
    TextRead h.payloadLength.toNat m.1.1.conn m'.1.1.conn

lemma safe_refusedDownload (h : MessageHeader) (u : Client) :
    Safe (counted env) (fun _ _ => True) (Client.refusedDownload h u) (RefusedEnds h u m) m := by
  unfold Client.refusedDownload
  split
  swap
  · rename_i hzero
    refine safe_print fun m' hconn hstore => ?_
    rintro b u' ⟨⟩
    have hzero : h.payloadLength.toNat = 0 := by
      rw [UInt64.lt_iff_toNat_lt] at hzero
      simpa using hzero
    refine ⟨rfl, rfl, hstore, fun _ => Or.inl ?_, fun hlarge => ?_⟩
    · rw [hzero, Conn.skip_zero, hconn]
      exact ⟨Nat.zero_le _, rfl⟩
    · omega
  refine safe_alloc (fun _ => nofun) ?_
  by_cases hn : h.payloadLength.toNat < 2 ^ 31
  · refine safe_bind_of (safe_recvAll_small hn) ?_
    rintro (e | _ | text) m₁ ⟨hall, hlost⟩
    · nofun
    · rintro b u' ⟨⟩
      obtain ⟨-, -, hdead, hstore⟩ := hlost rfl
      exact ⟨rfl, rfl, hstore, fun _ => Or.inr hdead, fun hlarge => by omega⟩
    · obtain ⟨hle, -, rfl⟩ := hall text rfl
      refine safe_print fun m' hconn hstore => ?_
      rintro b u' ⟨⟩
      exact ⟨rfl, rfl, hstore, fun _ => Or.inl ⟨hle, hconn⟩, fun hlarge => by omega⟩
  · refine safe_bind_of (safe_recvAll_large (wired env) (not_lt.mp hn)) ?_
    rintro r m₁ ⟨rfl, hcount, hm₁⟩ b u' hr
    cases hr
    have hafter : m₁ = after env m (toInt32 h.payloadLength.toNat).toNat := hm₁
    rw [hafter]
    refine ⟨rfl, rfl, after_store _, fun hsmall => (hn hsmall).elim, fun _ => ⟨after_conn _, ?_⟩⟩
    exact hcount

end Refused

section Accepted

variable {env : Env} {m m' : (Local × ℕ) × Store}

/-- Nothing has been read, and the local file is as it was. -/
structure Untouched (env : Env) (filename : Bytes) (m m' : (Local × ℕ) × Store) : Prop where
  conn : m'.1.1.conn = m.1.1.conn
  content : localContent env filename m'.2 = localContent env filename m.2

lemma Untouched.refl (filename : Bytes) : Untouched env filename m m := ⟨rfl, rfl⟩

lemma Untouched.frame {filename : Bytes} {o : Call} {r : Answer o} {m'' : (Local × ℕ) × Store}
    (h : Untouched env filename m m') (hr : counted env o m' r = some m'')
    (ho : o.isConn = false) (hd : o.writesDisk = false) : Untouched env filename m m'' := by
  obtain ⟨⟨l, j⟩, s⟩ := m'
  obtain ⟨⟨l', j'⟩, s'⟩ := m''
  obtain ⟨hnext, -⟩ := Monitor.watch_eq_some.mp hr
  refine ⟨(next_conn hnext ho).trans h.conn, ?_⟩
  rw [← h.content, localContent, localContent, next_disk hnext hd]

lemma safe_ensureDir (dir filename : Bytes) (h : Untouched env filename m m') :
    Safe (counted env) (fun _ _ => True) (ensureDir dir)
      (fun _ => Untouched env filename m) m' := by
  refine safe_bind.mpr ⟨trivial, fun r m₁ hr => ?_⟩
  have h := h.frame hr rfl rfl
  rcases r with e | _ | _
  · exact h
  · refine ⟨trivial, fun r m₂ hr => (safe_ofExcept r).mpr ?_⟩
    obtain ⟨⟨l, j⟩, s⟩ := m₁
    obtain ⟨⟨l', j'⟩, s'⟩ := m₂
    obtain ⟨hnext, -⟩ := Monitor.watch_eq_some.mp hr
    rw [next, Rules.orThrow_eq_some] at hnext
    obtain ⟨_, rfl, hmap⟩ | ⟨_, rfl, ⟨⟩⟩ := hnext
    · obtain ⟨d, hd, hpair⟩ := Option.map_eq_some_iff.mp hmap
      cases hpair
      refine ⟨h.conn, ?_⟩
      rw [← h.content]
      exact (Disk.createDirectories_adds hd).content _
    · exact ⟨h.conn, h.content⟩
  · exact h

/-- The end of `download_file` on a response of 200 with `size` bytes. -/
def AcceptedEnds (env : Env) (filename : Bytes) (size : ℕ) (u : Client) (m : (Local × ℕ) × Store)
    (r : Except Exn (Bool × Client)) (m' : (Local × ℕ) × Store) : Prop :=
  ∀ b u', r = .ok (b, u') →
    (b = true → u' = u ∧ ∃ k, Filled env (localPath filename) m.1.1.conn size k m') ∧
    (b = false → NoCopy env filename m.2 m'.2 ∧ (u'.connected = false ∨
      u' = u ∧ size ≤ m.1.1.conn.input.length ∧ m'.1.1.conn = m.1.1.conn.skip size))

/-- The end of a method that gives up: nothing but the socket has changed. -/
structure GivesUp (m : (Local × ℕ) × Store) (r : Except Exn (Bool × Client))
    (m' : (Local × ℕ) × Store) : Prop where
  off : ∀ b u', r = .ok (b, u') → b = false ∧ u'.connected = false
  store : m'.2 = m.2
  sent : m'.1.1.conn.sent = m.1.1.conn.sent

lemma safe_disconnect {u : Client} (hu : u.connected = true) :
    Safe (counted env) (fun _ _ => True) (Client.disconnect u) (GivesUp m) m := by
  rw [Client.disconnect, if_pos hu]
  refine ⟨trivial, fun r m₁ hr => ?_⟩
  obtain ⟨⟨l, j⟩, s⟩ := m
  cases hr
  refine safe_print fun m' hconn hstore => ⟨?_, hstore,
    (congrArg Conn.sent hconn).trans (Conn.sent_close l.conn)⟩
  rintro b u' ⟨⟩
  exact ⟨rfl, rfl⟩

lemma safe_drain {filename : Bytes} {size : UInt64} {u : Client} (hu : u.connected = true)
    (h : Untouched env filename m m') :
    Safe (counted env) (fun _ _ => True) ((Sys.alloc TRANSFER_BUFFER_SIZE).bind (fun _ =>
      (discardLoop size.toNat size.toNat).bind (fun received =>
        if received then .pure (false, u) else Client.disconnect u)))
      (AcceptedEnds env filename size.toNat u m) m' := by
  refine safe_alloc (fun _ => nofun) ?_
  refine safe_bind_of (safe_discardLoop (wired env) le_rfl) ?_
  have hcopy : ∀ s, s = m'.2 → NoCopy env filename m.2 s := fun s hs => Or.inr (hs ▸ h.content)
  rintro _ m₁ ⟨rfl, ⟨rfl, hle⟩ | ⟨rfl, -⟩⟩
  · rintro b u' ⟨⟩
    refine ⟨nofun, fun _ => ⟨hcopy _ rfl, Or.inr ⟨rfl, h.conn ▸ hle, ?_⟩⟩⟩
    exact congrArg (fun c => Conn.skip c size.toNat) h.conn
  · refine safe_mono (safe_disconnect hu) ?_
    intro r m₂ hend b u' hr
    obtain ⟨rfl, hoff⟩ := hend.off b u' hr
    exact ⟨nofun, fun _ => ⟨hcopy _ hend.store, Or.inl hoff⟩⟩

lemma safe_abandon {filename : Bytes} {size : ℕ} {u : Client} (hu : u.connected = true) :
    Safe (counted env) (fun _ _ => True) ((Sys.closeOut (localPath filename)).bind (fun _ =>
      (Sys.fsRemove (localPath filename)).bind (fun _ => Client.disconnect u)))
      (AcceptedEnds env filename size u m) m' := by
  refine ⟨trivial, fun _ m₁ _ => ⟨trivial, fun r m₂ hr => ?_⟩⟩
  obtain ⟨⟨l, j⟩, s⟩ := m₁
  obtain ⟨⟨l', j'⟩, s'⟩ := m₂
  obtain ⟨hnext, -⟩ := Monitor.watch_eq_some.mp hr
  rw [next, Rules.orThrow_eq_some] at hnext
  obtain ⟨removed, rfl, hbind⟩ | ⟨_, rfl, ⟨⟩⟩ := hnext
  swap
  · rintro _ _ ⟨⟩
  obtain ⟨⟨b', d⟩, hd, hanswer⟩ := Option.bind_eq_some_iff.mp hbind
  obtain ⟨rfl, hpair⟩ := Rules.answer_eq_some.mp hanswer
  cases hpair
  have hgone : localContent env filename { s with disk := d } = none := by
    have hnode : d.node (resolve env.cwd (localPath filename)) = none := by
      cases removed with
      | true => exact (Disk.remove_sets hd).at
      | false =>
        obtain ⟨rfl, hnone⟩ := Disk.remove_false hd
        exact hnone
    rw [localContent, Disk.content, hnode]
  refine safe_mono (safe_disconnect hu) ?_
  intro r m₃ hend b u' hr
  obtain ⟨rfl, hoff⟩ := hend.off b u' hr
  exact ⟨(by rintro ⟨⟩), fun _ => ⟨Or.inl (hend.store ▸ hgone), Or.inl hoff⟩⟩

lemma safe_acceptDownload (filename : Bytes) (size : UInt64) {u : Client}
    (hu : u.connected = true) :
    Safe (counted env) (fun _ _ => True) (Client.acceptDownload filename size u)
      (AcceptedEnds env filename size.toNat u m) m := by
  refine ⟨trivial, fun _ m₁ hr => ?_⟩
  have huntouched : Untouched env filename m m₁ := (Untouched.refl filename).frame hr rfl rfl
  simp only [Prog.bind_pure_left]
  refine safe_bind_of (safe_ensureDir _ _ huntouched) ?_
  rintro (e | _) m₂ huntouched
  · nofun
  refine ⟨trivial, fun r m₃ hr => ?_⟩
  have huntouched := huntouched.frame hr rfl rfl
  obtain rfl | ⟨e, rfl⟩ := pathAppend_answer (Monitor.watch_eq_some.mp hr).1
  swap
  · nofun
  refine ⟨trivial, fun opened m₄ hopen => ?_⟩
  cases opened with
  | false =>
    refine safe_drain hu ?_
    obtain ⟨⟨l, j⟩, s⟩ := m₃
    obtain ⟨⟨l', j'⟩, s'⟩ := m₄
    have hnext := (Monitor.watch_eq_some.mp hopen).1
    simp only [next, Bool.false_eq_true, if_false, Option.ite_none_right_eq_some] at hnext
    obtain ⟨-, ⟨⟩⟩ := hnext
    exact ⟨huntouched.conn, huntouched.content⟩
  | true =>
    have hfilled := Filled.opened hopen
    rw [huntouched.conn] at hfilled
    refine safe_alloc (fun _ => nofun) ?_
    refine safe_bind_of (receiveLoop_fills le_rfl hfilled (fun _ => rfl)) ?_
    rintro (e | _ | _) m₅ hread
    · nofun
    · exact safe_abandon hu
    obtain ⟨k, hfilled⟩ := hread rfl
    rw [Nat.zero_add] at hfilled
    refine ⟨trivial, fun _ m₆ hr => ?_⟩
    have hfilled := hfilled.frame hr rfl rfl
    refine ⟨trivial, fun _ m₇ hr => ?_⟩
    obtain ⟨k', hfilled⟩ := hfilled.closed hr
    rintro b u' ⟨⟩
    exact ⟨fun _ => ⟨rfl, k', hfilled⟩, nofun⟩

end Accepted

section Download

variable {env : Env} {host : Endian} {filename : Bytes} {u : Client} {m m' : (Local × ℕ) × Store}

structure LoggedIn (u : Client) : Prop where
  connected : u.connected = true
  username : u.username ≠ []

/-- What a download that has ended has to say for itself. -/
structure Outcome (env : Env) (host : Endian) (filename : Bytes) (u : Client)
    (m : (Local × ℕ) × Store) (r : Except Exn (Bool × Client))
      (m' : (Local × ℕ) × Store) : Prop where
  whole : ∀ u', r = .ok (true, u') → (Downloaded env host filename m.1.1.conn m'.2 ↔
    m'.1.2 = (responseHeader host m.1.1.conn).payloadLength.toNat)
  nothing : ∀ u', r = .ok (false, u') → NoCopy env filename m.2 m'.2
  settled : LoggedIn u → ∀ b u', r = .ok (b, u') →
    (Settled host u' m.1.1.conn m'.1.1.conn ↔
      (Asked filename u m.1.1.conn m'.1.1.conn → ¬ Overlong host m.1.1.conn))

lemma sent_skip (c : Conn) (n : ℕ) : (c.skip n).sent = c.sent := Conn.sent_consume ..

lemma outcome_error {e : Exn} : Outcome env host filename u m (.error e) m' := ⟨nofun, nofun, nofun⟩

lemma outcome_off {r : Except Exn (Bool × Client)} (hoff : ∀ b u', r = .ok (b, u') →
    b = false ∧ u'.connected = false) (hcopy : NoCopy env filename m.2 m'.2)
    (hgood : Asked filename u m.1.1.conn m'.1.1.conn → ¬ Overlong host m.1.1.conn) :
    Outcome env host filename u m r m' where
  whole u' hr := by
    cases (hoff true u' hr).1
  nothing _ _ := hcopy
  settled _ b u' hr := ⟨fun _ => hgood, fun _ => Or.inl (hoff b u' hr).2⟩

def requested (env : Env) (filename : Bytes) (u : Client) (m : (Local × ℕ) × Store) :
    (Local × ℕ) × Store :=
  (wired env).put m (m.1.1.conn.emit
    (wireMeta (makeRequest .download 0 filename.length u.username.length) u.username filename))

/-- The request has gone out, and the response has come in up to its payload. -/
structure Arrived (env : Env) (host : Endian) (filename : Bytes) (u : Client)
    (m : (Local × ℕ) × Store) (h : MessageHeader) (m' : (Local × ℕ) × Store) : Prop where
  header : h = responseHeader host m.1.1.conn
  shortUser : h.usernameLength.toNat < 2 ^ 31
  shortFile : h.filenameLength.toNat < 2 ^ 31
  arrived : metaLength h ≤ m.1.1.conn.input.length
  input : m'.1.1.conn.input = m.1.1.conn.input.drop (metaLength h)
  eof : m'.1.1.conn.eof = m.1.1.conn.eof
  asked : Asked filename u m.1.1.conn m'.1.1.conn
  store : m'.2 = m.2

lemma Met.arrived_after {resp : Request} (h : Met env host (requested env filename u m) resp m') :
    Arrived env host filename u m resp.header m' := by
  obtain ⟨hheader, husername, hfilename, harrived, rfl⟩ := h
  refine ⟨hheader, hheader ▸ husername, hheader ▸ hfilename, hheader ▸ harrived, ?_, rfl, ?_, rfl⟩
  · rw [after_conn, Conn.skip_input, hheader]
    rfl
  · rw [Asked, after_conn, sent_skip]
    exact Conn.sent_emit ..

variable {h : MessageHeader} {r : Except Exn (Bool × Client)} {m'' : (Local × ℕ) × Store}

lemma toInt32_toNat_lt {n : ℕ} (hn : 2 ^ 31 ≤ n) : (toInt32 n).toNat < n := by
  rcases toInt32_large hn with h | h <;> omega

/-- After an error text that is too long the client is settled only if the connection is dead. -/
lemma settled_iff_of_large (hu : u.connected = true) (harrived : Arrived env host filename u m h m')
    (hstatus : h.status ≠ StatusCode.ok.code) (hlarge : 2 ^ 31 ≤ h.payloadLength.toNat)
    (hread : TextRead h.payloadLength.toNat m'.1.1.conn m''.1.1.conn) :
    Settled host u m.1.1.conn m''.1.1.conn ↔
      (Asked filename u m.1.1.conn m''.1.1.conn → ¬ Overlong host m.1.1.conn) := by
  obtain ⟨rfl, husername, hfilename, hle, hinput, heof, hasked, -⟩ := harrived
  obtain ⟨hconn, -⟩ := hread.large hlarge
  have hlt := toInt32_toNat_lt hlarge
  have hinput' : m''.1.1.conn.input = m.1.1.conn.input.drop
      (metaLength (responseHeader host m.1.1.conn) +
        (toInt32 (responseHeader host m.1.1.conn).payloadLength.toNat).toNat) := by
    rw [hconn, Conn.skip_input, hinput, List.drop_drop]
  have heof' : m''.1.1.conn.eof = m.1.1.conn.eof := by rw [hconn, Conn.skip_eof, heof]
  have hasked' : Asked filename u m.1.1.conn m''.1.1.conn := by
    rw [Asked, hconn, sent_skip]
    exact hasked
  constructor
  · rintro (hoff | ⟨hempty, hended⟩ | ⟨hlong, hrest⟩) - hover
    · cases hu.symm.trans hoff
    · refine hover.lasts ⟨heof'.symm.trans hended, ?_⟩
      rw [hinput'] at hempty
      exact List.drop_eq_nil_iff.mp hempty
    · rw [hinput'] at hrest
      have hlen := congrArg List.length hrest
      rw [List.length_drop, List.length_drop] at hlen
      rw [responseLength] at hlong hlen
      omega
  · intro hgood
    by_contra hnot
    refine hgood hasked' ⟨husername, hfilename, hstatus, hlarge, ?_⟩
    rintro ⟨hended, hshort⟩
    refine hnot (Or.inr (Or.inl ⟨?_, heof'.trans hended⟩))
    rw [hinput']
    exact List.drop_eq_nil_iff.mpr hshort

lemma outcome_refused (hu : u.connected = true) (harrived : Arrived env host filename u m h m')
    (hstatus : h.status ≠ StatusCode.ok.code) (hend : RefusedEnds h u m' r m'') :
    Outcome env host filename u m r m'' where
  whole u' hr := by
    cases (hend true u' hr).1
  nothing u' hr := by
    obtain ⟨-, -, hstore, -⟩ := hend false u' hr
    exact Or.inr (by rw [hstore, harrived.store])
  settled _ b u' hr := by
    obtain ⟨-, rfl, -, hread⟩ := hend b u' hr
    by_cases hn : h.payloadLength.toNat < 2 ^ 31
    · obtain ⟨rfl, -, -, harrived, hinput, -⟩ := harrived
      refine iff_of_true (Or.inr ?_) (fun _ hover => absurd hover.payload (not_le.mpr hn))
      obtain ⟨hle, hconn⟩ | hdead := hread.small hn
      · right
        rw [hinput, List.length_drop] at hle
        rw [responseLength, hconn, Conn.skip_input, hinput, List.drop_drop]
        exact ⟨by omega, rfl⟩
      · exact Or.inl hdead
    · exact settled_iff_of_large hu harrived hstatus (not_lt.mp hn) hread

lemma outcome_accepted (harrived : Arrived env host filename u m h m')
    (hstatus : h.status = StatusCode.ok.code)
    (hend : AcceptedEnds env filename h.payloadLength.toNat u m' r m'') :
    Outcome env host filename u m r m'' := by
  obtain ⟨rfl, -, -, harrived, hinput, -, -, hstore⟩ := harrived
  have hgood : ¬ Overlong host m.1.1.conn := fun hover => hover.status hstatus
  constructor
  · intro u' hr
    obtain ⟨-, k, hfilled⟩ := (hend true u' hr).1 rfl
    have hcontent := hfilled.content
    have hpayload : payload host m.1.1.conn = m'.1.1.conn.input.take
        (responseHeader host m.1.1.conn).payloadLength.toNat := by rw [payload, hinput]
    rw [hfilled.kept]
    constructor
    · intro hdown
      have hlen := congrArg List.length (Option.some.inj (hcontent.symm.trans hdown.content))
      rw [hdown.length, List.length_take] at hlen
      have := hfilled.le
      have := hfilled.arrived
      omega
    · rintro rfl
      refine ⟨hcontent.trans (by rw [hpayload]), ?_⟩
      rw [hpayload, List.length_take, Nat.min_eq_left hfilled.arrived]
  · intro u' hr
    have hcopy := ((hend false u' hr).2 rfl).1
    rwa [hstore] at hcopy
  · intro _ b u' hr
    refine iff_of_true ?_ (fun _ => hgood)
    have hread : ∀ n ≤ m'.1.1.conn.input.length, m''.1.1.conn = m'.1.1.conn.skip n →
        metaLength (responseHeader host m.1.1.conn) + n ≤ m.1.1.conn.input.length ∧
          m''.1.1.conn.input =
            m.1.1.conn.input.drop (metaLength (responseHeader host m.1.1.conn) + n) := by
      intro n hn hconn
      rw [hinput, List.length_drop] at hn
      rw [hconn, Conn.skip_input, hinput, List.drop_drop]
      exact ⟨by omega, rfl⟩
    cases b with
    | true =>
      obtain ⟨-, k, hfilled⟩ := (hend true u' hr).1 rfl
      exact Or.inr (Or.inr (hread _ hfilled.arrived hfilled.conn))
    | false =>
      obtain ⟨-, hoff | ⟨-, hle, hconn⟩⟩ := (hend false u' hr).2 rfl
      · exact Or.inl hoff
      · exact Or.inr (Or.inr (hread _ hle hconn))

lemma safe_downloadFile (host : Endian) (filename : Bytes) (u : Client) :
    Safe (counted env) (fun _ _ => True) (Client.downloadFile host filename u)
      (Outcome env host filename u m) m := by
  unfold Client.downloadFile
  split
  · rename_i hnot
    refine ⟨nofun, fun _ _ => Or.inr rfl, fun hin => ?_⟩
    simp only [Bool.or_eq_true, Bool.not_eq_true', decide_eq_true_eq] at hnot
    obtain h | h := hnot
    · cases hin.connected.symm.trans h
    · exact (hin.username h).elim
  rename_i hin
  have hu : u.connected = true := by
    simp only [Bool.or_eq_true, Bool.not_eq_true', not_or, Bool.not_eq_false] at hin
    exact hin.1
  refine safe_bind_of (safe_sendMessageMeta (S := (wired env).sending) (fun _ _ _ => trivial) host
    _ _ _) ?_
  rintro r m₁ (⟨rfl, rfl⟩ | ⟨rfl, k, hk, rfl⟩)
  swap
  · refine safe_mono (safe_disconnect hu) fun r m₂ hend => ?_
    refine outcome_off hend.off (Or.inr (by rw [hend.store]; rfl)) fun hasked => ?_
    have hsent : (m.1.1.conn.emit ((wireMeta _ u.username filename).take k)).sent = _ :=
      hend.sent.symm.trans hasked
    have hlen := congrArg List.length hsent
    rw [Conn.sent_emit, List.length_append, List.length_append, List.length_take] at hlen
    omega
  refine safe_bind_of (safe_and (safe_recvMessageMeta host)
    (safe_store (calls_recvMessageMeta (fun _ => rfl) (fun _ => rfl) host))) ?_
  rintro (e | _ | resp) m₂ ⟨⟨hmet, hlost⟩, hstore⟩
  · exact outcome_error
  · refine safe_mono (safe_disconnect hu) fun r m₃ hend => ?_
    refine outcome_off hend.off (Or.inr (by rw [hend.store, hstore]; rfl)) fun _ hover => ?_
    obtain ⟨heof, hshort⟩ := hlost rfl hover.username hover.filename
    exact hover.lasts ⟨heof, (le_of_lt hshort).trans (Nat.le_add_right _ _)⟩
  have harrived := Met.arrived_after (hmet resp rfl)
  change Safe _ _ (if resp.header.status = StatusCode.ok.code then
    Client.acceptDownload filename resp.header.payloadLength u
    else Client.refusedDownload resp.header u) _ _
  split
  · rename_i hstatus
    exact safe_mono (safe_acceptDownload _ _ hu) fun _ _ => outcome_accepted harrived hstatus
  · rename_i hstatus
    exact safe_mono (safe_refusedDownload _ _) fun _ _ => outcome_refused hu harrived hstatus

end Download

/-- A download that returns true has left the payload in the local file if and only if the calls on
that file have kept all of it; one that returns false has left no copy; and a client that has made
its request is settled if and only if it was not refused with an overlong error text. -/
theorem download_whole_iff (env : Env) (host : Endian) (filename : Bytes) (u : Client) (l : Local)
    (s : Store) (r : Except Exn (Bool × Client)) (l' : Local) (n : ℕ) (s' : Store)
    (hrun : Steps (counted env) (Client.downloadFile host filename u, ((l, 0), s))
      (Prog.ofExcept r, ((l', n), s'))) :
    (∀ u', r = .ok (true, u') → (Downloaded env host filename l.conn s' ↔
      n = (responseHeader host l.conn).payloadLength.toNat)) ∧
    (∀ u', r = .ok (false, u') → NoCopy env filename s s') ∧
    (LoggedIn u → ∀ b u', r = .ok (b, u') → (Settled host u' l.conn l'.conn ↔
      (Asked filename u l.conn l'.conn → ¬ Overlong host l.conn))) := by
  have h : Outcome env host filename u ((l, 0), s) r ((l', n), s') :=
    safe_result (safe_downloadFile host filename u) hrun
  exact ⟨h.whole, h.nothing, h.settled⟩

def bob : Client := ⟨true, bytes "bob"⟩

/-- A response of 200 with the payload `a`. -/
def oneByteResponse : Bytes :=
  wireHeader (makeResponse CommandType.download.code .ok 1) ++ bytes "a"

/-- The download of `x` by bob, on an empty disk, with the given answers. -/
def downloaded (env : Env) (pick : (o : Call) → (Local × ℕ) × Store → Answer o) :
    Option (Prog.Running Call Answer Exn (Bool × Client) ((Local × ℕ) × Store)) :=
  follow pick (counted env) 100 (Client.downloadFile .little (bytes "x") bob)
    ((.fresh 0 oneByteResponse false, 0), .fresh (.ofDir [driveRoot 0x43]))

def succeeded : Code (Bool × Client) → Bool
  | .pure (b, _) => b
  | _ => false

lemma exists_of_succeeded {p : Code (Bool × Client)} (h : succeeded p = true) :
    ∃ u', p = Prog.ofExcept (.ok (true, u')) := by
  cases p with
  | pure a =>
    obtain ⟨b, u'⟩ := a
    obtain rfl : b = true := h
    exact ⟨u', rfl⟩
  | throw e => cases h
  | op o k => cases h

theorem download_whole_one : ∃ u' m,
    downloaded .atRoot (fun o m => oblige .atRoot o (m.1.1, m.2)) =
      some (Prog.ofExcept (.ok (true, u')), m) ∧
    Downloaded .atRoot .little (bytes "x") (Local.fresh 0 oneByteResponse false).conn m.2 := by
  have hend : (downloaded .atRoot (fun o m => oblige .atRoot o (m.1.1, m.2))).any
      (fun c => succeeded c.1 && c.2.1.2 == 1) = true := by decide +kernel
  obtain ⟨⟨p, ⟨l, n⟩, s⟩, hrun, hcheck⟩ := (Option.any_eq_true _ _).mp hend
  obtain ⟨hdone, hn⟩ := Bool.and_eq_true_iff.mp hcheck
  obtain ⟨u', rfl⟩ := exists_of_succeeded hdone
  have hlength : n = (responseHeader .little
      (Local.fresh 0 oneByteResponse false).conn).payloadLength.toNat :=
    (eq_of_beq hn).trans (by decide +kernel)
  refine ⟨u', _, hrun, ?_⟩
  exact ((download_whole_iff .atRoot .little (bytes "x") bob _ _ _ l n s
    (steps_of_follow hrun)).1 u' rfl).mpr hlength

/-- A local write that fails is not noticed. -/
theorem download_not_whole : ¬ ∀ (env : Env) (host : Endian) (filename : Bytes) (u : Client)
    (l : Local) (s : Store) (r : Except Exn (Bool × Client)) (l' : Local) (n : ℕ) (s' : Store),
    Steps (counted env) (Client.downloadFile host filename u, ((l, 0), s))
      (Prog.ofExcept r, ((l', n), s')) →
    (∀ u', r = .ok (true, u') → Downloaded env host filename l.conn s') ∧
    (∀ u', r = .ok (false, u') → NoCopy env filename s s') ∧
    (LoggedIn u → ∀ b u', r = .ok (b, u') → Settled host u' l.conn l'.conn) := by
  intro hall
  have hend : (downloaded fullDisk (fun o m => match o with
      | .write _ _ => some 0
      | o => oblige fullDisk o (m.1.1, m.2))).any (fun c => succeeded c.1 &&
        (localContent fullDisk (bytes "x") c.2.2 != some (bytes "a"))) = true := by decide +kernel
  obtain ⟨⟨p, ⟨l, n⟩, s⟩, hrun, hcheck⟩ := (Option.any_eq_true _ _).mp hend
  obtain ⟨hdone, hcontent⟩ := Bool.and_eq_true_iff.mp hcheck
  obtain ⟨u', rfl⟩ := exists_of_succeeded hdone
  have hdown := (hall fullDisk .little (bytes "x") bob _ _ _ l n s (steps_of_follow hrun)).1 u' rfl
  refine bne_iff_ne.mp hcontent (hdown.content.trans ?_)
  decide +kernel

end Mtfss.WholeDownload
