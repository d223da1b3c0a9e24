import Mtfss.System.CallRules

/-! What each call leaves alone. -/

namespace Mtfss

open Effects Rules Paths

namespace Call

def isConn : Call → Bool
  | .recv _ | .send _ _ | .closesocket => true
  | _ => false

def writesDisk : Call → Bool
  | .createDirectories _ | .fsRemove _ | .fsRename _ _ | .openOut _ | .write _
    _ | .closeOut _ => true
  | _ => false

def writesIndex : Call → Bool
  | .addFile _ _ _ _ | .removeFile _ _ => true
  | _ => false

def isLock : Call → Bool
  | .acquireLockRef _ | .releaseLockRef _ | .lock _ | .unlock _ | .lockShared _ | .unlockShared _
  | .lockBoth _ _ => true
  | _ => false

def isWaiting : Call → Bool
  | .lock _ | .lockShared _ | .lockBoth _ _ => true
  | _ => false

end Call

variable {env : Env} {o : Call} {l l' : Local} {s s' : Store} {r : Answer o}

lemma next_self (h : next env o (l, s) r = some (l', s')) : l'.self = l.self := by
  cases o <;>
    simp only [next, orThrow_eq_some, answer_eq_some, Option.map_eq_some_iff,
      Option.bind_eq_some_iff] at h <;>
    grind [Option.map_eq_some_iff]

lemma next_conn (h : next env o (l, s) r = some (l', s')) (ho : o.isConn = false) :
    l'.conn = l.conn := by
  cases o <;> simp only [Call.isConn, Bool.true_eq_false] at ho <;>
    simp only [next, orThrow_eq_some, answer_eq_some, Option.map_eq_some_iff,
      Option.bind_eq_some_iff] at h <;>
    grind [Option.map_eq_some_iff]

lemma next_withConn (h : next env o (l, s) r = some (l', s')) (ho : o.isConn = false) (c : Conn) :
    next env o ({ l with conn := c }, s) r = some ({ l' with conn := c }, s') := by
  cases o <;> simp only [Call.isConn, Bool.true_eq_false] at ho <;>
    simp only [next, orThrow_eq_some, answer_eq_some, Option.map_eq_some_iff,
      Option.bind_eq_some_iff] at h ⊢ <;>
    grind [Option.map_eq_some_iff]

/-- The connection when `xs` has arrived as well. -/
def Conn.extend (c : Conn) (xs : Bytes) : Conn := { c with input := c.input ++ xs }

lemma Conn.recv_extend {c c' : Conn} {count : ℤ} {a : Option Bytes} (xs : Bytes)
    (h : c.recv count a = some c') (heof : c.eof = false) :
    (c.extend xs).recv count a = some (c'.extend xs) ∧ c'.eof = false := by
  have hdrop : ∀ bs : Bytes, bs <+: c.input →
      (c.extend xs).consume bs = (c.consume bs).extend xs := fun bs hbs => by
    simp [Conn.extend, Conn.consume, List.drop_append_of_le_length hbs.length_le]
  have hpre : ∀ bs : Bytes, bs <+: c.input → bs <+: (c.extend xs).input :=
    fun bs hbs => hbs.trans (List.prefix_append _ _)
  have heof' : (c.extend xs).eof = false := heof
  unfold Conn.recv at h ⊢
  rcases a with _ | bs <;> grind [Conn.consume_eof]

lemma Conn.send_extend {c c' : Conn} {data : Bytes} {count : ℤ} {a : Option ℕ} (xs : Bytes)
    (h : c.send data count a = some c') (heof : c.eof = false) :
    (c.extend xs).send data count a = some (c'.extend xs) ∧ c'.eof = false := by
  have hemit : ∀ bs : Bytes, (c.extend xs).emit bs = (c.emit bs).extend xs := fun _ => rfl
  have heof' : (c.extend xs).eof = false := heof
  unfold Conn.send at h ⊢
  rcases a with _ | n <;> grind [Conn.emit_eof]

/-- A thread that runs while its connection is up would run so with more bytes waiting. -/
lemma next_extend (env : Env) (xs : Bytes) : Simulates (next env) (next env)
    (fun m m' => m.1.conn.eof = false ∧ m' = ({ m.1 with conn := m.1.conn.extend xs }, m.2)) := by
  rintro o ⟨l, s⟩ r ⟨l', s'⟩ _ ⟨heof, rfl⟩ h
  by_cases ho : o.isConn = false
  · have hc := next_conn h ho
    exact ⟨_, next_withConn h ho _, by simpa only [hc] using heof, by simp only [hc]⟩
  cases o with
  | recv count =>
    obtain ⟨c, hc, hpair⟩ := Option.map_eq_some_iff.mp h
    cases hpair
    obtain ⟨hext, heof'⟩ := Conn.recv_extend xs hc heof
    exact ⟨_, Option.map_eq_some_iff.mpr ⟨_, hext, rfl⟩, heof', rfl⟩
  | send data count =>
    obtain ⟨c, hc, hpair⟩ := Option.map_eq_some_iff.mp h
    cases hpair
    obtain ⟨hext, heof'⟩ := Conn.send_extend xs hc heof
    exact ⟨_, Option.map_eq_some_iff.mpr ⟨_, hext, rfl⟩, heof', rfl⟩
  | closesocket =>
    cases h
    exact ⟨_, rfl, heof, rfl⟩
  | _ => exact (ho rfl).elim

lemma next_disk (h : next env o (l, s) r = some (l', s')) (ho : o.writesDisk = false) :
    s'.disk = s.disk := by
  cases o <;> simp only [Call.writesDisk, Bool.true_eq_false] at ho <;>
    simp only [next, orThrow_eq_some, answer_eq_some, Option.map_eq_some_iff] at h <;>
    grind

lemma next_index (h : next env o (l, s) r = some (l', s')) (ho : o.writesIndex = false) :
    s'.index = s.index := by
  cases o <;> simp only [Call.writesIndex, Bool.true_eq_false] at ho <;>
    simp only [next, orThrow_eq_some, answer_eq_some, Option.map_eq_some_iff,
      Option.bind_eq_some_iff] at h <;>
    grind [Option.map_eq_some_iff]

lemma next_locks (h : next env o (l, s) r = some (l', s')) (ho : o.isLock = false) :
    s'.locks = s.locks ∧ l'.entry = l.entry := by
  cases o <;> simp only [Call.isLock, Bool.true_eq_false] at ho <;>
    simp only [next, orThrow_eq_some, answer_eq_some, Option.map_eq_some_iff,
      Option.bind_eq_some_iff] at h <;>
    grind [Option.map_eq_some_iff]

lemma next_running (h : next env o (l, s) r = some (l', s')) (ho : o ≠ .running) :
    s'.running = s.running := by
  cases o <;>
    simp only [next, orThrow_eq_some, answer_eq_some, Option.map_eq_some_iff,
      Option.bind_eq_some_iff] at h <;>
    grind [Option.map_eq_some_iff]

lemma pathAppend_answer {p q : Bytes} {m m' : Machine} {x : Except Exn Bytes}
    (h : next env (.pathAppend p q) m x = some m') : x = .ok (append p q) ∨ ∃ e, x = .error e := by
  rw [next, orThrow_eq_some] at h
  obtain ⟨a, rfl, ha⟩ | ⟨-, rfl, -⟩ := h
  · obtain ⟨rfl, -⟩ := answer_eq_some.mp ha
    exact Or.inl rfl
  · exact Or.inr ⟨_, rfl⟩

lemma fsExists_answer {p : Bytes} {x : Except Exn Bool}
    (h : next env (.fsExists p) (l, s) x = some (l', s')) :
    x = .ok (s.disk.existsAt (resolve env.cwd p)) ∨ ∃ e, x = .error e := by
  rw [next, orThrow_eq_some] at h
  obtain ⟨a, rfl, ha⟩ | ⟨-, rfl, -⟩ := h
  · obtain ⟨rfl, -⟩ := answer_eq_some.mp ha
    exact Or.inl rfl
  · exact Or.inr ⟨_, rfl⟩

lemma orThrow_enabled {α σ : Type} {failing : Bool} {e : Exn} {m : σ} {ok : α → Option σ}
    (h : failing = false → ∃ a t, ok a = some t) : ∃ r t, orThrow failing e m ok r = some t := by
  cases failing with
  | true => exact ⟨.error e, m, by simp [orThrow]⟩
  | false =>
    obtain ⟨a, t, ha⟩ := h rfl
    exact ⟨.ok a, t, ha⟩

/-- Only `recv` and the locks can keep a thread waiting. -/
lemma next_enabled (env : Env) (o : Call) (m : Machine) (hw : o.isWaiting = false)
    (hr : ∀ n, o ≠ .recv n) : ∃ r m', next env o m r = some m' := by
  obtain ⟨l, s⟩ := m
  cases o with
  | recv n => exact (hr n rfl).elim
  | lock | lockShared | lockBoth => cases hw
  | send data count =>
    rcases Int.lt_trichotomy count 0 with hneg | rfl | hpos
    · exact ⟨none, (l, s), by simp [next, Conn.send, hneg]⟩
    · exact ⟨some 0, (l, s), by simp [next, Conn.send]⟩
    · exact ⟨some 1, ({ l with conn := l.conn.emit (data.take 1) }, s),
        by simp [next, Conn.send, show ¬ count < 0 by omega, show count ≠ 0 by omega]; omega⟩
  | running =>
    cases hs : s.running with
    | true => exact ⟨true, (l, s), by simp [next, hs]⟩
    | false => exact ⟨false, _, by simp [next, hs]; rfl⟩
  | pathAppend p q => exact orThrow_enabled (fun _ => ⟨append p q, (l, s), by simp [answer]⟩)
  | fsExists p => exact orThrow_enabled (fun _ => ⟨_, (l, s), by simp [answer]; rfl⟩)
  | isRegularFile p => exact orThrow_enabled (fun _ => ⟨_, (l, s), by simp [answer]; rfl⟩)
  | fileSize p =>
    refine orThrow_enabled (fun h => ?_)
    obtain ⟨-, hreg⟩ := Bool.or_eq_false_iff.mp h
    obtain ⟨c, hc⟩ := Option.isSome_iff_exists.mp (by simpa [Disk.isRegularFile] using hreg)
    exact ⟨.ofNat c.length, (l, s), by simp [hc]⟩
  | createDirectories p =>
    refine orThrow_enabled (fun h => ?_)
    obtain ⟨-, hd⟩ := Bool.or_eq_false_iff.mp h
    obtain ⟨d, hd⟩ := Option.isSome_iff_exists.mp (by simpa using hd)
    exact ⟨(), _, by rw [hd]; rfl⟩
  | fsRename p q =>
    refine orThrow_enabled (fun h => ?_)
    obtain ⟨-, hd⟩ := Bool.or_eq_false_iff.mp h
    obtain ⟨d, hd⟩ := Option.isSome_iff_exists.mp (by simpa using hd)
    exact ⟨(), _, by rw [hd]; rfl⟩
  | fsRemove p =>
    refine orThrow_enabled (fun h => ?_)
    obtain ⟨-, hd⟩ := Bool.or_eq_false_iff.mp h
    obtain ⟨⟨b, d⟩, hd⟩ := Option.isSome_iff_exists.mp (by simpa using hd)
    exact ⟨b, (l, { s with disk := d }), by simp [hd, answer]⟩
  | openOut p =>
    cases hd : s.disk.openOut (resolve env.cwd p) with
    | none => exact ⟨false, (l, s), by simp [next, hd]⟩
    | some d => exact ⟨true, _, by simp [next, hd]; rfl⟩
  | openIn p =>
    cases hd : s.disk.canRead (resolve env.cwd p) with
    | false => exact ⟨false, (l, s), by simp [next, hd]⟩
    | true => exact ⟨true, (l, s), by simp [next, hd]⟩
  | write p data => exact ⟨none, _, rfl⟩
  | closeOut p => exact ⟨none, _, rfl⟩
  | read p offset count => exact ⟨(_, _), (l, s), if_pos ⟨rfl, rfl⟩⟩
  | acquireLockRef key => exact orThrow_enabled (fun _ => ⟨(), _, rfl⟩)
  | addFile dir filename size time => exact orThrow_enabled (fun _ => ⟨(), _, rfl⟩)
  | removeFile dir filename => exact orThrow_enabled (fun _ => ⟨(), _, rfl⟩)
  | alloc size => exact orThrow_enabled (fun _ => ⟨(), _, rfl⟩)
  | log => exact orThrow_enabled (fun _ => ⟨(), _, rfl⟩)
  | clock => exact ⟨[], _, rfl⟩
  | fileExists dir filename => exact ⟨_, (l, s), by simp [next, answer]; rfl⟩
  | getFileSize dir filename => exact ⟨_, (l, s), by simp [next, answer]; rfl⟩
  | listDirectory dir => exact ⟨_, (l, s), if_pos (List.Perm.refl _)⟩
  | closesocket | activeConnections | releaseLockRef | unlock | unlockShared | print =>
    exact ⟨(), _, rfl⟩

/-- A read waits only while nothing has arrived on an open connection. -/
lemma recv_enabled (env : Env) {n : ℤ} (h : l.conn.input ≠ [] ∨ l.conn.eof = true) :
    ∃ r m', next env (.recv n) (l, s) r = some m' := by
  rcases Int.lt_trichotomy n 0 with hneg | rfl | hpos
  · exact ⟨none, (l, s), by simp [next, Conn.recv, hneg]⟩
  · exact ⟨some [], (l, s), by simp [next, Conn.recv]⟩
  have hn : ¬ n < 0 ∧ n ≠ 0 := by omega
  cases hin : l.conn.input with
  | nil =>
    have heof : l.conn.eof = true := h.resolve_left (fun hne => hne hin)
    exact ⟨none, (l, s), by simp [next, Conn.recv, hn, hin, heof]⟩
  | cons b bs =>
    have hone : [b].length ≤ n ∧ [b] <+: l.conn.input := ⟨by simp; omega, ⟨bs, by simp [hin]⟩⟩
    exact ⟨some [b], ({ l with conn := l.conn.consume [b] }, s), by
      simp [next, Conn.recv, hn, hone]
      omega⟩

end Mtfss
