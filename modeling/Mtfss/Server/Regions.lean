import Mtfss.System.DiskRegion
import Mtfss.System.Frames

/-! What calls that stay in some directories and under some keys of the index do to two stores that
are alike there. -/

namespace Mtfss

open Effects Paths Rules

namespace LockManager

/-- The two are the same as to one key. -/
structure SameAt (m n : LockManager) (key : Bytes) : Prop where
  locks : m.locks key = n.locks key
  created : m.created key = n.created key
  mutex : m.mutex key = n.mutex key

variable {m n : LockManager} {key k : Bytes}

lemma SameAt.entryOf (h : m.SameAt n key) : m.entryOf key = n.entryOf key := by
  rw [LockManager.entryOf, LockManager.entryOf, h.locks, h.created]

lemma SameAt.refCount (h : m.SameAt n key) : m.refCount key = n.refCount key := by
  rw [LockManager.refCount, LockManager.refCount, h.locks]

lemma sameAt_acquire (h : key ≠ k) : (m.acquire k).SameAt m key where
  locks := Function.update_of_ne h _ _
  created := Function.update_of_ne h _ _
  mutex := rfl

lemma sameAt_release (h : key ≠ k) : (m.release k).SameAt m key where
  locks := by
    rw [release]
    split
    · rfl
    · exact Function.update_of_ne h _ _
  created := by
    rw [release]
    split <;> rfl
  mutex := by rw [release_mutex]

lemma sameAt_setMutex (h : key ≠ k) (e : ℕ) (x : SharedMutex) :
    (m.setMutex k e x).SameAt m key where
  locks := rfl
  created := rfl
  mutex := Function.update_of_ne h _ _

lemma SameAt.symm (h : m.SameAt n key) : n.SameAt m key :=
  ⟨h.locks.symm, h.created.symm, h.mutex.symm⟩

lemma SameAt.trans {o : LockManager} (h : m.SameAt n key) (h' : n.SameAt o key) : m.SameAt o key :=
  ⟨h.locks.trans h'.locks, h.created.trans h'.created, h.mutex.trans h'.mutex⟩

lemma SameAt.acquire (h : m.SameAt n key) (k : Bytes) : (m.acquire k).SameAt (n.acquire k) key := by
  by_cases hk : key = k
  · subst hk
    refine ⟨?_, ?_, h.mutex⟩
    · simp [LockManager.acquire, h.entryOf, h.refCount]
    · simp [LockManager.acquire, h.locks, h.created]
  · exact (sameAt_acquire hk).trans (h.trans (sameAt_acquire hk).symm)

lemma SameAt.release (h : m.SameAt n key) (k : Bytes) : (m.release k).SameAt (n.release k) key := by
  by_cases hk : key = k
  · subst hk
    have hm := h.locks
    refine ⟨?_, ?_, by rw [release_mutex, release_mutex, h.mutex]⟩
    · cases hn : n.locks key <;> simp [LockManager.release, hm, hn]
    · cases hn : n.locks key <;> simp [LockManager.release, hm, hn, h.created]
  · exact (sameAt_release hk).trans (h.trans (sameAt_release hk).symm)

lemma SameAt.setMutex (hk : m.SameAt n k) (h : m.SameAt n key) (e : ℕ)
    (f : SharedMutex → SharedMutex) :
    (m.setMutex k e (f (m.mutex k e))).SameAt (n.setMutex k e (f (n.mutex k e))) key := by
  rw [← hk.mutex]
  by_cases hkey : key = k
  · subst hkey
    exact ⟨h.locks, h.created, by simp [LockManager.setMutex, h.mutex]⟩
  · exact (sameAt_setMutex hkey e _).trans (h.trans (sameAt_setMutex hkey e _).symm)

end LockManager

namespace Index

variable {ix jx : Index} {key : Bytes}

lemma lookup_put (ix : Index) (dir : Bytes) (record : FileMetadata) (key : Bytes) :
    (ix.put dir record).dirs.lookup key =
      if key = dir then some ((ix.files dir).insert record.filename record)
        else ix.dirs.lookup key := by
  split
  · rename_i h
    subst h
    exact AList.lookup_insert _
  · rename_i h
    exact AList.lookup_insert_ne h

lemma files_congr (h : ix.dirs.lookup key = jx.dirs.lookup key) : ix.files key = jx.files key := by
  rw [files, files, h]

lemma entry_congr (h : ix.dirs.lookup key = jx.dirs.lookup key) (f : Bytes) :
    ix.entry key f = jx.entry key f := by
  rw [entry, entry, h]

lemma lookup_put_congr (h : ix.dirs.lookup key = jx.dirs.lookup key) (dir : Bytes)
    (record : FileMetadata) :
    (ix.put dir record).dirs.lookup key = (jx.put dir record).dirs.lookup key := by
  rw [lookup_put, lookup_put]
  split
  · rename_i hk
    subst hk
    rw [files_congr h]
  · exact h

lemma lookup_setFiles (ix : Index) (dir : Bytes) (m : FileMap)
    (hm : ∀ f record, m.lookup f = some record → record.filename = f) (key : Bytes) :
    (ix.setFiles dir m hm).dirs.lookup key =
      if key = dir then (if m.entries = [] then none else some m) else ix.dirs.lookup key := by
  by_cases hk : key = dir
  · subst hk
    by_cases he : m.entries = [] <;> simp [setFiles, he]
  · by_cases he : m.entries = []
    · simp [setFiles, he, hk, AList.lookup_erase_ne hk]
    · simp [setFiles, he, hk, AList.lookup_insert_ne hk]

lemma lookup_drop_ne {dir : Bytes} (h : key ≠ dir) (f : Bytes) :
    (ix.drop dir f).dirs.lookup key = ix.dirs.lookup key := by
  rw [drop]
  split
  · rw [lookup_setFiles, if_neg h]
  · rfl

lemma lookup_drop_congr (h : ix.dirs.lookup key = jx.dirs.lookup key) (dir f : Bytes) :
    (ix.drop dir f).dirs.lookup key = (jx.drop dir f).dirs.lookup key := by
  by_cases hk : key = dir
  · subst hk
    simp only [drop, ← h]
    split
    · rw [lookup_setFiles, lookup_setFiles, files_congr h, if_pos rfl, if_pos rfl]
    · exact h
  · rw [lookup_drop_ne hk, lookup_drop_ne hk, h]

end Index

/-- The call reaches nothing on disk and no lock but those in the directories `Q`, and nothing in
the index but what is under the keys `K`. -/
def Call.Inside (cwd : Cwd) (Q : Set Loc) (K : Set Bytes) : Call → Prop
  | .fsExists p => resolve cwd p ∈ Q ∨ Disk.EntryIn Q (resolve cwd p)
  | .createDirectories p => resolve cwd p ∈ Q
  | .isRegularFile p | .fileSize p | .fsRemove p | .openOut p | .write p _ | .closeOut p | .openIn p
  | .read p _ _ => Disk.EntryIn Q (resolve cwd p)
  | .fsRename p q => Disk.EntryIn Q (resolve cwd p) ∧ Disk.EntryIn Q (resolve cwd q)
  | .acquireLockRef key | .releaseLockRef key | .lock key | .unlock key | .lockShared key
  | .unlockShared key => Disk.EntryIn Q (resolve cwd key)
  | .lockBoth key₁ key₂ => Disk.EntryIn Q (resolve cwd key₁) ∧ Disk.EntryIn Q (resolve cwd key₂)
  | .addFile dir _ _ _ | .removeFile dir _ | .fileExists dir _ | .getFileSize dir _
  | .listDirectory dir => normalizePath dir ∈ K
  | .recv _ | .send _ _ | .closesocket | .running | .activeConnections _ | .pathAppend _ _ | .clock
  | .alloc _ | .log | .print _ => True

/-- The second store is as the first in the directories `Q` and under the keys `K`, and a server
that runs in the first runs in the second. -/
structure Store.SameIn (env : Env) (Q : Set Loc) (K : Set Bytes) (s t : Store) : Prop where
  disk : s.disk.SameIn Q t.disk
  index : ∀ key ∈ K, s.index.dirs.lookup key = t.index.dirs.lookup key
  locks : ∀ key, Disk.EntryIn Q (resolve env.cwd key) → s.locks.SameAt t.locks key
  up : s.running = true → t.running = true
  down : s.running = false → t.running = false ∨ env.faults.stop = true

namespace Store

variable {env : Env} {Q P : Set Loc} {K J : Set Bytes} {s s' t : Store} {l l' : Local} {o : Call}
variable {r : Answer o} {m m' n : Machine}

lemma SameIn.refl (env : Env) (Q : Set Loc) (K : Set Bytes) (s : Store) : s.SameIn env Q K s :=
  ⟨.refl s.disk, fun _ _ => rfl, fun _ _ => ⟨rfl, rfl, rfl⟩, id, Or.inl⟩

section Alike

lemma orThrow_answer_alike {α : Type} [DecidableEq α] {failing : Bool} {e : Exn} {x : α}
    {r : Except Exn α} (h : orThrow failing e m (fun b => answer b x m) r = some m') :
    m' = m ∧ orThrow failing e n (fun b => answer b x n) r = some n := by
  rcases orThrow_eq_some.mp h with ⟨a, rfl, ha⟩ | ⟨hf, rfl, rfl⟩
  · obtain ⟨rfl, rfl⟩ := answer_eq_some.mp ha
    exact ⟨rfl, orThrow_eq_some.mpr (Or.inl ⟨a, rfl, answer_eq_some.mpr ⟨rfl, rfl⟩⟩)⟩
  · exact ⟨rfl, orThrow_eq_some.mpr (Or.inr ⟨hf, rfl, rfl⟩)⟩

lemma orThrow_some_alike {failing : Bool} {e : Exn} {x : Machine} {r : Except Exn Unit}
    (h : orThrow failing e m (fun _ => some x) r = some m') :
    (m' = m ∧ ∀ y, orThrow failing e n (fun _ => some y) r = some n) ∨
      (m' = x ∧ ∀ y : Machine, orThrow failing e n (fun _ => some y) r = some y) := by
  rcases orThrow_eq_some.mp h with ⟨a, rfl, ⟨⟩⟩ | ⟨hf, rfl, rfl⟩
  · exact Or.inr ⟨rfl, fun _ => rfl⟩
  · exact Or.inl ⟨rfl, fun _ => orThrow_eq_some.mpr (Or.inr ⟨hf, rfl, rfl⟩)⟩

lemma orThrow_map_alike {δ : Type} {R : δ → δ → Prop} {flag : Bool} {e : Exn} {x y : Option δ}
    {f g : δ → Machine} {r : Except Exn Unit} (hxy : Option.Rel R x y)
    (h : orThrow (flag || x.isNone) e m (fun _ => x.map f) r = some m') :
    (m' = m ∧ orThrow (flag || y.isNone) e n (fun _ => y.map g) r = some n) ∨
      ∃ a b, R a b ∧ m' = f a ∧ orThrow (flag || y.isNone) e n (fun _ => y.map g)
        r = some (g b) := by
  rcases orThrow_eq_some.mp h with ⟨_, rfl, ha⟩ | ⟨hf, rfl, rfl⟩
  · obtain ⟨a, rfl, rfl⟩ := Option.map_eq_some_iff.mp ha
    cases hxy with
    | some hab => exact Or.inr ⟨_, _, hab, rfl, rfl⟩
  · refine Or.inl ⟨rfl, orThrow_eq_some.mpr (Or.inr ⟨?_, rfl, rfl⟩)⟩
    cases hxy with
    | some hab => exact hf
    | none => exact hf

lemma SameIn.withDisk (h : s.SameIn env Q K t) {d e : Disk} (hde : d.SameIn Q e) :
    { s with disk := d }.SameIn env Q K { t with disk := e } :=
  ⟨hde, h.index, h.locks, h.up, h.down⟩

lemma SameIn.withLocks (h : s.SameIn env Q K t) {a b : LockManager}
    (hab : ∀ key, Disk.EntryIn Q (resolve env.cwd key) → a.SameAt b key) :
    { s with locks := a }.SameIn env Q K { t with locks := b } :=
  ⟨h.disk, h.index, hab, h.up, h.down⟩

lemma SameIn.withIndex (h : s.SameIn env Q K t) {ix jx : Index}
    (hij : ∀ key ∈ K, ix.dirs.lookup key = jx.dirs.lookup key) :
    { s with index := ix }.SameIn env Q K { t with index := jx } :=
  ⟨h.disk, hij, h.locks, h.up, h.down⟩

/-- A call that stays in the directories and under the keys is answered alike, and leaves the stores
alike. -/
lemma SameIn.alike (h : s.SameIn env Q K t) (ho : o.Inside env.cwd Q K)
    (hnext : next env o (l, s) r = some (l', s')) :
    ∃ t', next env o (l, t) r = some (l', t') ∧ s'.SameIn env Q K t' := by
  cases o with
  | recv count =>
    obtain ⟨c, hc, ⟨⟩⟩ := Option.map_eq_some_iff.mp hnext
    exact ⟨t, Option.map_eq_some_iff.mpr ⟨c, hc, rfl⟩, h⟩
  | send data count =>
    obtain ⟨c, hc, ⟨⟩⟩ := Option.map_eq_some_iff.mp hnext
    exact ⟨t, Option.map_eq_some_iff.mpr ⟨c, hc, rfl⟩, h⟩
  | closesocket =>
    cases hnext
    exact ⟨t, rfl, h⟩
  | running =>
    cases r with
    | true =>
      simp only [next, if_true, Option.ite_none_right_eq_some, Option.some.injEq,
        Prod.mk.injEq] at hnext
      obtain ⟨hup, rfl, rfl⟩ := hnext
      exact ⟨t, by simp [next, h.up hup], h⟩
    | false =>
      simp only [next, Bool.false_eq_true, if_false, Option.ite_none_right_eq_some,
        Option.some.injEq,
        Prod.mk.injEq] at hnext
      obtain ⟨hdown, rfl, rfl⟩ := hnext
      have htdown : t.running = false ∨ env.faults.stop = true := hdown.elim h.down Or.inr
      exact ⟨{ t with running := false }, by simp [next, htdown],
        h.disk, h.index, h.locks, nofun, fun _ => Or.inl rfl⟩
  | activeConnections delta =>
    cases hnext
    exact ⟨_, rfl, h.disk, h.index, h.locks, h.up, h.down⟩
  | pathAppend p q =>
    obtain ⟨⟨⟩, hnext'⟩ := orThrow_answer_alike (n := (l, t)) hnext
    exact ⟨t, hnext', h⟩
  | fsExists p =>
    have hnode : s.disk.existsAt (resolve env.cwd p) = t.disk.existsAt (resolve env.cwd p) := by
      rw [Disk.existsAt, Disk.existsAt]
      rcases ho with ho | ho
      · rw [h.disk.below _ ho _ List.prefix_rfl]
      · rw [h.disk.node ho]
    rw [next, hnode] at hnext
    obtain ⟨⟨⟩, hnext'⟩ := orThrow_answer_alike (n := (l, t)) hnext
    exact ⟨t, hnext', h⟩
  | isRegularFile p =>
    rw [next, h.disk.isRegularFile ho] at hnext
    obtain ⟨⟨⟩, hnext'⟩ := orThrow_answer_alike (n := (l, t)) hnext
    exact ⟨t, hnext', h⟩
  | fileSize p =>
    simp only [next, h.disk.isRegularFile ho, h.disk.content ho] at hnext
    rcases orThrow_eq_some.mp hnext with ⟨n, rfl, hn⟩ | ⟨hf, rfl, ⟨⟩⟩
    · obtain ⟨hsize, ⟨⟩⟩ := Option.ite_none_right_eq_some.mp hn
      exact ⟨t, if_pos hsize, h⟩
    · exact ⟨t, if_pos ⟨hf, rfl⟩, h⟩
  | createDirectories p =>
    rcases orThrow_map_alike (n := (l, t)) (g := fun d => (l, { t with disk := d }))
      (h.disk.createDirectories ho) hnext with ⟨⟨⟩, hnext'⟩ | ⟨d, e, hde, ⟨⟩, hnext'⟩
    · exact ⟨t, hnext', h⟩
    · exact ⟨_, hnext', h.withDisk hde⟩
  | fsRename p q =>
    rcases orThrow_map_alike (n := (l, t)) (g := fun d => (l, { t with disk := d }))
      (h.disk.rename ho.1 ho.2) hnext with ⟨⟨⟩, hnext'⟩ | ⟨d, e, hde, ⟨⟩, hnext'⟩
    · exact ⟨t, hnext', h⟩
    · exact ⟨_, hnext', h.withDisk hde⟩
  | fsRemove p =>
    have hrel := h.disk.remove ho
    rcases orThrow_eq_some.mp hnext with ⟨b, rfl, hb⟩ | ⟨hf, rfl, ⟨⟩⟩
    · obtain ⟨⟨b', d⟩, hd, hb⟩ := Option.bind_eq_some_iff.mp hb
      obtain ⟨rfl, ⟨⟩⟩ := answer_eq_some.mp hb
      rw [hd] at hrel
      generalize he : t.disk.remove (resolve env.cwd p) = x at hrel
      cases hrel with
      | @some _ be hde =>
        obtain ⟨b', e⟩ := be
        obtain ⟨rfl, hde⟩ := hde
        exact ⟨{ t with disk := e },
          Option.bind_eq_some_iff.mpr ⟨_, he, answer_eq_some.mpr ⟨rfl, rfl⟩⟩, h.withDisk hde⟩
    · refine ⟨t, if_pos ⟨?_, rfl⟩, h⟩
      generalize s.disk.remove (resolve env.cwd p) = x at hrel hf
      generalize t.disk.remove (resolve env.cwd p) = y at hrel
      cases hrel with
      | some => exact hf
      | none => exact hf
  | openOut p =>
    have hrel := h.disk.openOut ho
    generalize hd : s.disk.openOut (resolve env.cwd p) = x at hrel
    generalize he : t.disk.openOut (resolve env.cwd p) = y at hrel
    cases r with
    | true =>
      simp only [next, if_true, hd] at hnext
      obtain ⟨d, rfl, ⟨⟩⟩ := Option.map_eq_some_iff.mp hnext
      cases hrel with
      | @some _ e hde => exact ⟨{ t with disk := e }, by simp [next, he], h.withDisk hde⟩
    | false =>
      simp only [next, Bool.false_eq_true, if_false, hd, Option.ite_none_right_eq_some,
        Option.some.injEq, Prod.mk.injEq] at hnext
      obtain ⟨hf, rfl, rfl⟩ := hnext
      refine ⟨t, ?_, h⟩
      cases hrel with
      | none => simp [next, he]
      | some => simpa [next, he] using hf
  | write p data =>
    rcases r with _ | n
    · cases hnext
      exact ⟨_, rfl, h.withDisk (h.disk.modify ho _)⟩
    · simp only [next, Option.ite_none_right_eq_some, Option.some.injEq, Prod.mk.injEq] at hnext
      obtain ⟨hfault, rfl, rfl⟩ := hnext
      exact ⟨_, if_pos hfault, h.withDisk (h.disk.modify ho _)⟩
  | closeOut p =>
    rcases r with _ | n
    · cases hnext
      exact ⟨_, rfl, h⟩
    · simp only [next, Option.ite_none_right_eq_some, Option.some.injEq, Prod.mk.injEq] at hnext
      obtain ⟨hfault, rfl, rfl⟩ := hnext
      exact ⟨_, if_pos hfault, h.withDisk (h.disk.modify ho _)⟩
  | openIn p =>
    cases r with
    | true =>
      obtain ⟨hread, ⟨⟩⟩ := Option.ite_none_right_eq_some.mp hnext
      rw [h.disk.canRead ho] at hread
      exact ⟨t, if_pos hread, h⟩
    | false =>
      obtain ⟨hfail, ⟨⟩⟩ := Option.ite_none_right_eq_some.mp hnext
      rw [h.disk.canRead ho] at hfail
      exact ⟨t, if_pos hfail, h⟩
  | read p offset count =>
    obtain ⟨bs, good⟩ := r
    simp only [next, h.disk.content ho] at hnext
    split at hnext
    · rename_i hwhole
      cases hnext
      exact ⟨t, if_pos hwhole, h⟩
    · rename_i hshort
      obtain ⟨hpart, ⟨⟩⟩ := Option.ite_none_right_eq_some.mp hnext
      exact ⟨t, (if_neg hshort).trans (if_pos hpart), h⟩
  | acquireLockRef key =>
    rcases orThrow_some_alike (n := (l, t)) hnext with ⟨⟨⟩, hnext'⟩ | ⟨heq, hnext'⟩
    · exact ⟨t, hnext' _, h⟩
    · cases heq
      refine ⟨_, ?_, h.withLocks fun k hk => (h.locks k hk).acquire key⟩
      rw [(h.locks key ho).entryOf]
      exact hnext' _
  | releaseLockRef key =>
    cases hnext
    exact ⟨_, rfl, h.withLocks fun k hk => (h.locks k hk).release key⟩
  | lock key =>
    obtain ⟨hfree, ⟨⟩⟩ := Option.ite_none_right_eq_some.mp hnext
    rw [LockManager.isFree, (h.locks key ho).mutex] at hfree
    exact ⟨_, if_pos hfree, h.withLocks fun k hk => (h.locks key ho).setMutex (h.locks k hk) _
      (fun x => ⟨some l.self, x.readers⟩)⟩
  | unlock key =>
    cases hnext
    exact ⟨_, rfl, h.withLocks fun k hk => (h.locks key ho).setMutex (h.locks k hk) _
      (fun x => ⟨none, x.readers⟩)⟩
  | lockShared key =>
    obtain ⟨hshare, ⟨⟩⟩ := Option.ite_none_right_eq_some.mp hnext
    rw [LockManager.canShare, (h.locks key ho).mutex] at hshare
    exact ⟨_, if_pos hshare, h.withLocks fun k hk => (h.locks key ho).setMutex (h.locks k hk) _
      (fun x => ⟨x.writer, l.self :: x.readers⟩)⟩
  | unlockShared key =>
    cases hnext
    exact ⟨_, rfl, h.withLocks fun k hk => (h.locks key ho).setMutex (h.locks k hk) _
      (fun x => ⟨x.writer, x.readers.erase l.self⟩)⟩
  | lockBoth key₁ key₂ =>
    obtain ⟨hfree, ⟨⟩⟩ := Option.ite_none_right_eq_some.mp hnext
    rw [LockManager.isFree, LockManager.isFree, (h.locks key₁ ho.1).mutex,
      (h.locks key₂ ho.2).mutex] at hfree
    have hfirst : ∀ k, Disk.EntryIn Q (resolve env.cwd k) →
        (s.locks.lock l.self key₁ (l.entry key₁)).SameAt
          (t.locks.lock l.self key₁ (l.entry key₁)) k :=
      fun k hk => (h.locks key₁ ho.1).setMutex (h.locks k hk) _ (fun x => ⟨some l.self, x.readers⟩)
    exact ⟨_, if_pos hfree, h.withLocks fun k hk => (hfirst key₂ ho.2).setMutex (hfirst k hk) _
      (fun x => ⟨some l.self, x.readers⟩)⟩
  | clock =>
    cases hnext
    exact ⟨t, rfl, h⟩
  | addFile dir f size time =>
    rcases orThrow_some_alike (n := (l, t)) hnext with ⟨⟨⟩, hnext'⟩ | ⟨heq, hnext'⟩
    · exact ⟨t, hnext' _, h⟩
    · cases heq
      exact ⟨_, hnext' _, h.withIndex fun k hk => Index.lookup_put_congr (h.index k hk) _ _⟩
  | removeFile dir f =>
    rcases orThrow_some_alike (n := (l, t)) hnext with ⟨⟨⟩, hnext'⟩ | ⟨heq, hnext'⟩
    · exact ⟨t, hnext' _, h⟩
    · cases heq
      exact ⟨_, hnext' _, h.withIndex fun k hk => Index.lookup_drop_congr (h.index k hk) _ _⟩
  | fileExists dir f =>
    obtain ⟨rfl, ⟨⟩⟩ := answer_eq_some.mp hnext
    refine ⟨t, answer_eq_some.mpr ⟨?_, rfl⟩, h⟩
    rw [Index.fileExists, Index.fileExists, Index.entry_congr (h.index _ ho)]
  | getFileSize dir f =>
    obtain ⟨rfl, ⟨⟩⟩ := answer_eq_some.mp hnext
    refine ⟨t, answer_eq_some.mpr ⟨?_, rfl⟩, h⟩
    rw [Index.getFileSize, Index.getFileSize, Index.entry_congr (h.index _ ho)]
  | listDirectory dir =>
    obtain ⟨hperm, ⟨⟩⟩ := Option.ite_none_right_eq_some.mp hnext
    rw [Index.listDirectory, Index.files_congr (h.index _ ho)] at hperm
    exact ⟨t, if_pos hperm, h⟩
  | alloc size =>
    rcases orThrow_some_alike (n := (l, t)) hnext with ⟨⟨⟩, hnext'⟩ | ⟨⟨⟩, hnext'⟩ <;>
      exact ⟨t, hnext' _, h⟩
  | log =>
    rcases orThrow_some_alike (n := (l, t)) hnext with ⟨⟨⟩, hnext'⟩ | ⟨⟨⟩, hnext'⟩ <;>
      exact ⟨t, hnext' _, h⟩
  | print text =>
    cases hnext
    exact ⟨t, rfl, h⟩

end Alike

section Aside

lemma SameIn.trans {t' : Store} (h : s.SameIn env Q K t) (h' : t.SameIn env Q K t') :
    s.SameIn env Q K t' where
  disk := h.disk.trans h'.disk
  index key hkey := (h.index key hkey).trans (h'.index key hkey)
  locks key hkey := (h.locks key hkey).trans (h'.locks key hkey)
  up := h'.up ∘ h.up
  down hs := (h.down hs).elim h'.down Or.inr

variable (ho : o.Inside env.cwd P J) (hnext : next env o (l, s) r = some (l', s'))

include ho hnext

lemma disk_aside (hP : Disk.Separate P Q) : s'.disk.SameIn Q s.disk := by
  by_cases hw : o.writesDisk = false
  · rw [next_disk hnext hw]
    exact .refl _
  cases o with
  | createDirectories p =>
    rcases orThrow_eq_some.mp hnext with ⟨_, rfl, hok⟩ | ⟨-, rfl, ⟨⟩⟩
    · obtain ⟨d, hd, ⟨⟩⟩ := Option.map_eq_some_iff.mp hok
      exact Disk.createDirectories_sameIn hd ho hP
    · exact .refl _
  | fsRemove p =>
    rcases orThrow_eq_some.mp hnext with ⟨b, rfl, hok⟩ | ⟨-, rfl, ⟨⟩⟩
    · obtain ⟨⟨b', d⟩, hd, hb⟩ := Option.bind_eq_some_iff.mp hok
      obtain ⟨rfl, ⟨⟩⟩ := answer_eq_some.mp hb
      cases b with
      | true => exact (Disk.remove_sets hd).sameIn ho hP
      | false =>
        rw [(Disk.remove_false hd).1]
        exact .refl _
    · exact .refl _
  | fsRename p q =>
    rcases orThrow_eq_some.mp hnext with ⟨_, rfl, hok⟩ | ⟨-, rfl, ⟨⟩⟩
    · obtain ⟨d, hd, ⟨⟩⟩ := Option.map_eq_some_iff.mp hok
      exact Disk.rename_sameIn hd ho.1 ho.2 hP
    · exact .refl _
  | openOut p =>
    cases r with
    | true =>
      obtain ⟨d, hd, ⟨⟩⟩ := Option.map_eq_some_iff.mp hnext
      exact (Disk.openOut_sets hd).sameIn ho hP
    | false =>
      obtain ⟨-, ⟨⟩⟩ := Option.ite_none_right_eq_some.mp hnext
      exact .refl _
  | write p data =>
    rcases r with _ | n
    · cases hnext
      exact Disk.modify_sameIn _ ho hP
    · obtain ⟨-, ⟨⟩⟩ := Option.ite_none_right_eq_some.mp hnext
      exact Disk.modify_sameIn _ ho hP
  | closeOut p =>
    rcases r with _ | n
    · cases hnext
      exact .refl _
    · obtain ⟨-, ⟨⟩⟩ := Option.ite_none_right_eq_some.mp hnext
      exact Disk.modify_sameIn _ ho hP
  | _ => exact (hw rfl).elim

lemma index_aside (hJ : ∀ key ∈ J, key ∉ K) {key : Bytes} (hkey : key ∈ K) :
    s'.index.dirs.lookup key = s.index.dirs.lookup key := by
  by_cases hw : o.writesIndex = false
  · rw [next_index hnext hw]
  cases o with
  | addFile dir f size time =>
    have hne : key ≠ normalizePath dir := fun h => hJ _ ho (h ▸ hkey)
    rcases orThrow_eq_some.mp hnext with ⟨_, rfl, ⟨⟩⟩ | ⟨-, rfl, ⟨⟩⟩
    · exact (Index.lookup_put ..).trans (if_neg hne)
    · rfl
  | removeFile dir f =>
    have hne : key ≠ normalizePath dir := fun h => hJ _ ho (h ▸ hkey)
    rcases orThrow_eq_some.mp hnext with ⟨_, rfl, ⟨⟩⟩ | ⟨-, rfl, ⟨⟩⟩
    · exact Index.lookup_drop_ne hne f
    · rfl
  | _ => exact (hw rfl).elim

lemma locks_aside (hP : Disk.Separate P Q) {key : Bytes}
    (hkey : Disk.EntryIn Q (resolve env.cwd key)) : s'.locks.SameAt s.locks key := by
  have hne : ∀ k, Disk.EntryIn P (resolve env.cwd k) → key ≠ k := by
    rintro k hk rfl
    exact hP.not_entryIn hk hkey
  by_cases hw : o.isLock = false
  · rw [(next_locks hnext hw).1]
    exact ⟨rfl, rfl, rfl⟩
  cases o with
  | acquireLockRef k =>
    rcases orThrow_eq_some.mp hnext with ⟨_, rfl, ⟨⟩⟩ | ⟨-, rfl, ⟨⟩⟩
    · exact LockManager.sameAt_acquire (hne k ho)
    · exact ⟨rfl, rfl, rfl⟩
  | releaseLockRef k =>
    cases hnext
    exact LockManager.sameAt_release (hne k ho)
  | lock k =>
    obtain ⟨-, ⟨⟩⟩ := Option.ite_none_right_eq_some.mp hnext
    exact LockManager.sameAt_setMutex (hne k ho) _ _
  | unlock k =>
    cases hnext
    exact LockManager.sameAt_setMutex (hne k ho) _ _
  | lockShared k =>
    obtain ⟨-, ⟨⟩⟩ := Option.ite_none_right_eq_some.mp hnext
    exact LockManager.sameAt_setMutex (hne k ho) _ _
  | unlockShared k =>
    cases hnext
    exact LockManager.sameAt_setMutex (hne k ho) _ _
  | lockBoth k₁ k₂ =>
    obtain ⟨-, ⟨⟩⟩ := Option.ite_none_right_eq_some.mp hnext
    exact (LockManager.sameAt_setMutex (hne k₂ ho.2) _ _).trans
      (LockManager.sameAt_setMutex (hne k₁ ho.1) _ _)
  | _ => exact (hw rfl).elim

/-- A call that stays in other directories and under other keys leaves a store alike. -/
lemma sameIn_aside (hP : Disk.Separate P Q) (hJ : ∀ key ∈ J, key ∉ K) : s'.SameIn env Q K s where
  disk := disk_aside ho hnext hP
  index _ hkey := index_aside ho hnext hJ hkey
  locks _ hkey := locks_aside ho hnext hP hkey
  up hs := by
    by_cases hrun : o = .running
    · subst hrun
      cases r with
      | true =>
        obtain ⟨hup, -⟩ := Option.ite_none_right_eq_some.mp hnext
        exact hup
      | false =>
        obtain ⟨-, ⟨⟩⟩ := Option.ite_none_right_eq_some.mp hnext
        cases hs
    · rwa [← next_running hnext hrun]
  down hs := by
    by_cases hrun : o = .running
    · subst hrun
      cases r with
      | true =>
        obtain ⟨-, ⟨⟩⟩ := Option.ite_none_right_eq_some.mp hnext
        exact Or.inl hs
      | false =>
        obtain ⟨hdown, -⟩ := Option.ite_none_right_eq_some.mp hnext
        exact hdown
    · exact Or.inl ((next_running hnext hrun).symm.trans hs)

end Aside

end Store

end Mtfss
