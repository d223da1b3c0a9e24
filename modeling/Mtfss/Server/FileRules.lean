import Mtfss.Server.Wire
import Mtfss.Server.Footprint
import Mtfss.System.DiskRules

/-! What an operation on files does to disk and index when no other operation is in progress and
the system fails only for a reason. -/

namespace Mtfss

open Effects Paths Rules

def Store.Idle (s : Store) : Prop := ∀ key e, s.locks.mutex key e = .unlocked

/-- All of the next `n` bytes arrive, or the connection ends. -/
def Conn.Ends (c : Conn) (n : ℕ) : Prop := n ≤ c.input.length ∨ c.eof = true

def dirLoc (env : Env) (u : Bytes) : Loc := resolve env.cwd (userDir u)

def fileLoc (env : Env) (u f : Bytes) : Loc := resolve env.cwd (filePath u f)

lemma LockManager.mutex_lock_unlock {m : LockManager} {key : Bytes} {e : ℕ}
    (h : m.mutex key e = .unlocked) (self : ℕ) :
    ((m.lock self key e).unlock key e).mutex = m.mutex := by
  funext k i
  rw [unlock, setMutex_mutex]
  split
  · obtain ⟨rfl, rfl⟩ := ‹_ ∧ _›
    rw [lock, setMutex_mutex, if_pos ⟨rfl, rfl⟩, h]
    rfl
  · rw [lock, setMutex_mutex, if_neg ‹_›]

namespace FileManager

section Upload

variable {env : Env} {u f : Bytes} {l : Local} {s : Store}

/-- The disk has the directory `u`, made if it was missing. -/
def Ensured (env : Env) (u : Bytes) (d d' : Disk) : Prop :=
  (d.existsAt (dirLoc env u) = true ∧ d' = d) ∨
    (d.existsAt (dirLoc env u) = false ∧ d.createDirectories (dirLoc env u) = some d')

lemma Ensured.adds {d d' : Disk} (h : Ensured env u d d') : d.AddsDirs d' (dirLoc env u) := by
  rcases h with ⟨-, rfl⟩ | ⟨-, h⟩
  · exact .refl _ _
  · exact Disk.createDirectories_adds h

/-- How an upload of `size` bytes ends when `input` is all that comes: its result, and the disk and
index it leaves. -/
inductive UploadEnd (env : Env) (u f input : Bytes) (size : UInt64) (d : Disk) (ix : Index) :
    Bool → Disk → Index → Prop
  /-- the directory cannot be made -/
  | noDir : d.existsAt (dirLoc env u) = false → d.createDirectories (dirLoc env u) = none →
      UploadEnd env u f input size d ix false d ix
  | rejected {d' : Disk} : Ensured env u d d' → isValidFilename f = false →
      UploadEnd env u f input size d ix false d' ix
  /-- the file cannot be opened -/
  | denied {d' : Disk} : Ensured env u d d' → isValidFilename f = true →
      d'.openOut (fileLoc env u f) = none → UploadEnd env u f input size d ix false d' ix
  /-- the connection is lost -/
  | lost {d' d'' : Disk} : Ensured env u d d' → isValidFilename f = true →
      (d'.openOut (fileLoc env u f)).isSome → input.length < size.toNat →
      d'.Sets d'' (fileLoc env u f) none → UploadEnd env u f input size d ix false d'' ix
  | saved {d' d'' : Disk} (time : Bytes) : Ensured env u d d' → isValidFilename f = true →
      (d'.openOut (fileLoc env u f)).isSome → size.toNat ≤ input.length →
      d'.Sets d'' (fileLoc env u f) (some (.file (input.take size.toNat))) →
      UploadEnd env u f input size d ix true d'' (ix.addFile (indexDir u) f size time)

lemma wp_discard (hf : env.faults = .none) {Q : Except Exn Unit → Machine → Prop} {size : UInt64}
    (hends : l.conn.Ends size.toNat) :
    wp (next env) (discardData size) Q (l, s) ↔
      Q (.ok ()) ({ l with conn := l.conn.skip size.toNat }, s) := by
  have halloc : Allocates (next env) := allocates_machine (by simp [hf, Faults.none])
  by_cases hlen : size.toNat ≤ l.conn.input.length
  · exact wp_discardData (machine env) halloc hlen
  · have hshort := wp_discardData_short (machine env) halloc (Q := Q) (s := (l, s))
      (not_le.mp hlen) (hends.resolve_left hlen)
    rw [hshort, Conn.skip, List.take_of_length_le (by omega)]
    rfl

lemma wp_receiveLoop (hf : env.faults = .none) {Q : Except Exn Bool → Machine → Prop} (p : Bytes)
    {fuel n : ℕ} (hfuel : n ≤ fuel) (hlen : n ≤ l.conn.input.length) {d : Disk} {c : Bytes}
    (hd : d.Sets s.disk (resolve env.cwd p) (some (.file c)))
    (hQ : ∀ d', d.Sets d' (resolve env.cwd p) (some (.file (c ++ l.conn.input.take n))) →
      Q (.ok true) ({ l with conn := l.conn.skip n }, { s with disk := d' })) :
    wp (next env) (receiveLoop p fuel n true) Q (l, s) := by
  induction fuel generalizing n c l s with
  | zero =>
    obtain rfl : n = 0 := by omega
    simpa [receiveLoop, Conn.skip] using hQ s.disk (by simpa using hd)
  | succ fuel ih =>
    rcases Nat.eq_zero_or_pos n with rfl | hpos
    · simpa [receiveLoop, Conn.skip] using hQ s.disk (by simpa using hd)
    have hc := chunk_pos hpos
    have hle : min TRANSFER_BUFFER_SIZE n ≤ n := Nat.min_le_right _ _
    rw [receiveLoop, if_pos hpos, Prog.bind_eq, wp_bind,
      wp_recvAll (machine env) (s := (l, s)) (chunk_small n) (hle.trans hlen)]
    generalize min TRANSFER_BUFFER_SIZE n = k at hc hle ⊢
    simp only [machine_conn, machine_put, afterBind_ok, if_true, Prog.bind_eq, wp_bind, wp_write]
    refine ⟨?_, by simp [hf, Faults.none]⟩
    have hsets := hd.trans (Disk.modify_sets hd.at (· ++ l.conn.input.take k))
    refine ih (by omega) (by simp; omega) hsets (fun d' hd' => ?_)
    have hsplit : l.conn.input.take n = l.conn.input.take k ++
        (l.conn.input.drop k).take (n - k) := by
      rw [← List.take_add, Nat.add_sub_cancel' hle]
    have hklen : (l.conn.input.take k).length = k := by simp; omega
    have hQ' := hQ d' (by
      rw [hsplit, ← List.append_assoc]
      simpa [hklen] using hd')
    rw [Conn.skip, hsplit] at hQ'
    simpa [Conn.skip, Conn.consume_consume, hklen] using hQ'

lemma wp_receiveLoop_short (hf : env.faults = .none) {Q : Except Exn Bool → Machine → Prop}
    (p : Bytes) {fuel n : ℕ} (hfuel : n ≤ fuel) (hlen : l.conn.input.length < n)
    (heof : l.conn.eof = true) {d : Disk} {c : Bytes}
    (hd : d.Sets s.disk (resolve env.cwd p) (some (.file c)))
    (hQ : ∀ d' c', d.Sets d' (resolve env.cwd p) (some (.file c')) →
      Q (.ok false) ({ l with conn := l.conn.skip n }, { s with disk := d' })) :
    wp (next env) (receiveLoop p fuel n true) Q (l, s) := by
  induction fuel generalizing n c l s with
  | zero => omega
  | succ fuel ih =>
    have hpos : 0 < n := by omega
    have hc := chunk_pos hpos
    have hle : min TRANSFER_BUFFER_SIZE n ≤ n := Nat.min_le_right _ _
    rw [receiveLoop, if_pos hpos, Prog.bind_eq, wp_bind]
    have hall : l.conn.skip n = l.conn.consume l.conn.input := by
      rw [Conn.skip, List.take_of_length_le (by omega)]
    rw [hall] at hQ
    by_cases hin : min TRANSFER_BUFFER_SIZE n ≤ l.conn.input.length
    · rw [wp_recvAll (machine env) (s := (l, s)) (chunk_small n) hin]
      generalize min TRANSFER_BUFFER_SIZE n = k at hc hle hin ⊢
      simp only [machine_conn, machine_put, afterBind_ok, if_true, Prog.bind_eq, wp_bind, wp_write]
      refine ⟨?_, by simp [hf, Faults.none]⟩
      have hsets := hd.trans (Disk.modify_sets hd.at (· ++ l.conn.input.take k))
      refine ih (by omega) (by simp; omega) heof hsets (fun d' c' hd' => ?_)
      have hklen : (l.conn.input.take k).length = k := by simp; omega
      have hrest : (l.conn.input.drop k).take (n - k) = l.conn.input.drop k :=
        List.take_of_length_le (by simp; omega)
      have hQ' := hQ d' c' hd'
      rw [← List.take_append_drop k l.conn.input, ← Conn.consume_consume] at hQ'
      simpa [Conn.skip, hklen, hrest] using hQ'
    · rw [wp_recvAll_short (machine env) (s := (l, s)) (chunk_small n) (not_le.mp hin) heof]
      exact hQ s.disk c hd

/-- The operation has ended with `b`, has left the disk `d` and the index `ix`, and holds no lock
that it did not hold before. -/
def Leaves (l : Local) (s : Store) (n : ℕ) (b : Bool) (d : Disk) (ix : Index) (r : Except Exn Bool)
    (m : Machine) : Prop :=
  r = .ok b ∧ ∃ entry locks, locks.mutex = s.locks.mutex ∧
    m = ({ l with conn := l.conn.skip n, entry := entry },
      { s with disk := d, index := ix, locks := locks })

lemma wp_saveLocked (hf : env.faults = .none) {size : UInt64} (hends : l.conn.Ends size.toNat)
    {p : Bytes} {locks : LockManager} (hmutex : (locks.unlock p (l.entry p)).mutex = s.locks.mutex)
    {Q : Except Exn Bool → Machine → Prop}
    (hdenied : s.disk.openOut (resolve env.cwd p) = none →
      ∀ r m, Leaves l s size.toNat false s.disk s.index r m → Q r m)
    (hlost : (s.disk.openOut (resolve env.cwd p)).isSome → l.conn.input.length < size.toNat →
      ∀ d, s.disk.Sets d (resolve env.cwd p) none →
      ∀ r m, Leaves l s size.toNat false d s.index r m → Q r m)
    (hsaved : (s.disk.openOut (resolve env.cwd p)).isSome → size.toNat ≤ l.conn.input.length →
      ∀ d, s.disk.Sets d (resolve env.cwd p) (some (.file (l.conn.input.take size.toNat))) →
      ∀ time r m, Leaves l s size.toNat true d (s.index.addFile (indexDir u) f size time) r m →
        Q r m) :
    wp (next env) (saveLocked u f p size) Q (l, { s with locks := locks }) := by
  have hrelease : ((locks.unlock p (l.entry p)).release p).mutex = s.locks.mutex := by
    rw [LockManager.release_mutex, hmutex]
  rw [saveLocked, Prog.bind_eq, wp_bind, wp_openOut]
  refine ⟨fun d hd => ?_, fun hnone => ?_⟩
  · have hsome : (s.disk.openOut (resolve env.cwd p)).isSome := by simp [hd]
    have hsets := Disk.openOut_sets hd
    simp only [afterBind_ok, Bool.not_true, Bool.false_eq_true, if_false, Prog.bind_eq, wp_bind,
      wp_alloc]
    refine ⟨?_, by simp [hf, Faults.none]⟩
    by_cases hlen : size.toNat ≤ l.conn.input.length
    · refine wp_receiveLoop hf p le_rfl hlen hsets (fun d' hd' => ?_)
      simp only [afterBind_ok, if_true, wp_bind, wp_closeOut, wp_addFile, wp_log, wp_unlock,
        wp_releaseLockRef, Prog.pure_eq, wp_pure]
      refine ⟨⟨fun time => ⟨?_, by simp [hf, Faults.none]⟩, by simp [hf, Faults.none]⟩,
        by simp [hf, Faults.none]⟩
      exact hsaved hsome hlen d' hd' time _ _ ⟨rfl, _, _, hrelease, rfl⟩
    · refine wp_receiveLoop_short hf p le_rfl (not_le.mp hlen) (hends.resolve_left hlen) hsets
        (fun d' c' hd' => ?_)
      simp only [afterBind_ok, Bool.false_eq_true, if_false, wp_bind, wp_log, wp_closeOut,
        wp_fsRemove, wp_unlock, Prog.pure_eq, wp_pure]
      obtain ⟨d'', hremove, hd''⟩ := Disk.remove_file hd'.at
      refine ⟨⟨⟨?_, ?_⟩, by simp [hf, Faults.none]⟩, by simp [hf, Faults.none]⟩
      · intro b d₂ hb
        rw [hremove] at hb
        cases hb
        exact hlost hsome (not_le.mp hlen) d'' (hd'.trans hd'') _ _ ⟨rfl, _, _, hmutex, rfl⟩
      · rintro (hfault | hnone)
        · simp [hf, Faults.none] at hfault
        · rw [hremove] at hnone
          cases hnone
  · have hnone : s.disk.openOut (resolve env.cwd p) = none := by
      simpa [hf, Faults.none] using hnone
    simp only [afterBind_ok, Bool.not_false, if_true, Prog.bind_eq, wp_bind, wp_log, wp_unlock,
      wp_releaseLockRef, Prog.pure_eq, wp_pure, wp_discard hf hends]
    exact ⟨hdenied hnone _ _ ⟨rfl, _, _, hrelease, rfl⟩, by simp [hf, Faults.none]⟩

lemma wp_saveInto (hf : env.faults = .none) (hidle : s.Idle) {size : UInt64}
    (hends : l.conn.Ends size.toNat) {d₀ : Disk} (hdir : Ensured env u d₀ s.disk) :
    wp (next env) (saveInto u f (userDir u) size) (fun r m => ∃ b d ix,
      UploadEnd env u f l.conn.input size d₀ s.index b d ix ∧
        Leaves l s size.toNat b d ix r m) (l, s) := by
  rw [saveInto]
  cases hvalid : isValidFilename f with
  | false =>
    simp only [Bool.not_false, if_true, Prog.bind_eq, wp_bind, wp_log, afterBind_ok, Prog.pure_eq,
      wp_pure, wp_discard hf hends]
    exact ⟨⟨_, _, _, .rejected hdir hvalid, rfl, l.entry, s.locks, rfl, rfl⟩,
      by simp [hf, Faults.none]⟩
  | true =>
    simp only [Bool.not_true, Bool.false_eq_true, if_false, Prog.bind_eq, wp_bind, wp_pathAppend,
      afterBind_ok, wp_acquireLockRef, wp_lock]
    refine ⟨⟨⟨?_, ?_⟩, by simp [hf, Faults.none]⟩, by simp [hf, Faults.none]⟩
    · simp only [LockManager.isFree, LockManager.acquire_mutex]
      rw [hidle]
      rfl
    rw [Prog.onThrow, wp_tryCatch]
    have hmutex : ∀ e, (((s.locks.acquire (filePath u f)).lock l.self (filePath u f) e).unlock
        (filePath u f) e).mutex = s.locks.mutex :=
      fun e => LockManager.mutex_lock_unlock (hidle _ _) _
    refine wp_saveLocked (s := s) (l := { l with
      entry := Function.update l.entry (filePath u f) (s.locks.entryOf (filePath u f)) }) hf hends
      ?_ ?_ ?_ ?_
    · exact hmutex _
    · rintro hnone _ _ ⟨rfl, entry, locks, hlocks, rfl⟩
      exact ⟨_, _, _, .denied hdir hvalid hnone, rfl, entry, locks, hlocks, rfl⟩
    · rintro hsome hlen d hd _ _ ⟨rfl, entry, locks, hlocks, rfl⟩
      exact ⟨_, _, _, .lost hdir hvalid hsome hlen hd, rfl, entry, locks, hlocks, rfl⟩
    · rintro hsome hlen d hd time _ _ ⟨rfl, entry, locks, hlocks, rfl⟩
      exact ⟨_, _, _, .saved time hdir hvalid hsome hlen hd, rfl, entry, locks, hlocks, rfl⟩

lemma wp_saveFile (hf : env.faults = .none) (hidle : s.Idle) {size : UInt64}
    (hends : l.conn.Ends size.toNat) :
    wp (next env) (saveFile u f size) (fun r m => ∃ b d ix,
      UploadEnd env u f l.conn.input size s.disk s.index b d ix ∧
        Leaves l s size.toNat b d ix r m) (l, s) := by
  rw [saveFile, wp_tryCatch, trySaveFile, Prog.bind_eq, wp_bind, wp_pathAppend]
  refine ⟨?_, by simp [hf, Faults.none]⟩
  rw [afterBind_ok, Prog.bind_eq, wp_bind, ensureDir, Prog.bind_eq, wp_bind, wp_fsExists]
  refine ⟨?_, by simp [hf, Faults.none]⟩
  rw [afterBind_ok]
  have hinto : ∀ (h : Exn → Code Bool) {d : Disk}, Ensured env u s.disk d →
      wp (next env) (saveInto u f (userDir u) size) (afterTry (next env) h (fun r m => ∃ b d ix,
        UploadEnd env u f l.conn.input size s.disk s.index b d ix ∧
          Leaves l s size.toNat b d ix r m)) (l, { s with disk := d }) := by
    intro h d hdir
    refine wp_mono (wp_saveInto (s := { s with disk := d }) hf hidle hends hdir) ?_
    rintro _ m ⟨b, d, ix, hend, rfl, hm⟩
    exact ⟨b, d, ix, hend, rfl, hm⟩
  cases hexists : s.disk.existsAt (dirLoc env u) with
  | true =>
    have hexists' : s.disk.existsAt (resolve env.cwd (append storage u)) = true := hexists
    simp only [hexists', Bool.not_true, Bool.false_eq_true, if_false, Prog.pure_eq, wp_pure,
      afterBind_ok]
    exact hinto _ (Or.inl ⟨hexists, rfl⟩)
  | false =>
    have hexists' : s.disk.existsAt (resolve env.cwd (append storage u)) = false := hexists
    simp only [hexists', Bool.not_false, if_true, wp_createDirectories]
    refine ⟨fun d hd => ?_, fun hnone => ?_⟩
    · rw [afterBind_ok]
      exact hinto _ (Or.inr ⟨hexists, hd⟩)
    · have hnone' : s.disk.createDirectories (resolve env.cwd (append storage u)) = none := by
        simpa [hf, Faults.none] using hnone
      have hnone : s.disk.createDirectories (dirLoc env u) = none := hnone'
      simp only [afterBind_error, afterTry_error, Prog.bind_eq, wp_bind, wp_log, afterBind_ok,
        Prog.pure_eq, wp_pure, wp_discard hf hends]
      exact ⟨⟨_, _, _, .noDir hexists hnone, rfl, l.entry, s.locks, rfl, rfl⟩,
        by simp [hf, Faults.none]⟩

end Upload

end FileManager

end Mtfss
