import Mtfss.Properties.FailedUpload
import Mtfss.Properties.LockExclusion
import Mtfss.Server.Waiting

/-! Requests never wait for locks in a circle: who is waited for does not wait for a lock. -/

namespace Mtfss.LockProgress

open Effects Server Relation LockBalance LockExclusion Paths FileManager

/-- The request sends to its client, which is one of those that do not read, so that `::send` does
not return. -/
def HeldUp (stalled : ℕ → Prop) (c : Requests) (i : ℕ) : Prop :=
  stalled i ∧ ∃ data count k l u, c.thread i = some (.op (.send data count) k, l, u) ∧ 0 < count ∧
    l.conn.eof = false

/-- The request makes its next call. -/
def Acts (env : Env) (stalled : ℕ → Prop) (c : Requests) (i : ℕ) : Prop :=
  ¬ HeldUp stalled c i ∧
    ∃ o k l u r m, c.thread i = some (.op o k, l, u) ∧ next env o (l, c.shared) r = some m

/-- The request sends to a client that does not read, or reads from its connection, on which nothing
has arrived. -/
def AwaitsClient (stalled : ℕ → Prop) (c : Requests) (i : ℕ) : Prop :=
  HeldUp stalled c i ∨
    ∃ n k l u, c.thread i = some (.op (.recv n) k, l, u) ∧ l.conn.input = [] ∧ l.conn.eof = false

/-- Request `j` has the mutex of the entry, for itself or with others. -/
def Holds (m : LockManager) (key : Bytes) (e j : ℕ) : Prop :=
  (m.mutex key e).writer = some j ∨ j ∈ (m.mutex key e).readers

/-- Request `i` waits for a mutex that request `j` has. -/
def AwaitsLock (c : Requests) (i j : ℕ) : Prop :=
  ∃ o k l u key, c.thread i = some (.op o k, l, u) ∧ o.isWaiting = true ∧ key ∈ o.keys ∧ j ≠ i ∧
    Holds c.shared.locks key (l.entry key) j

/-- The request has yet to wait, and so has no lock, or will not wait any more. -/
def Patient (p : Code (Reply × Bytes)) (u : Usage) : Prop :=
  (u.shared = [] ∧ u.exclusive = [] ∧ WaitsOnce p) ∨ Waitless p

structure Orderly (c : Requests) : Prop where
  sound : c.Sound
  held : ∀ key, KeyHeld c key
  patient : ∀ i p l u, c.thread i = some (p, l, u) → Patient p u

variable {env : Env} {stalled : ℕ → Prop} {c c' : Requests} {i j : ℕ}

lemma orderly_idle {s : Store} (hs : s.locks = .initial) : Orderly (.idle s) where
  sound := Requests.sound_idle s
  held := keyHeld_idle hs
  patient := nofun

lemma after_unlocked {u : Usage} {o : Call} (hs : u.shared = []) (he : u.exclusive = [])
    (ho : o.isWaiting = false) (r : Answer o) :
    (Usage.after o u r).shared = [] ∧ (Usage.after o u r).exclusive = [] := by
  by_cases hlock : o.isLock = false
  · obtain ⟨-, hshared, hexclusive⟩ := Usage.after_of_not_lock (u := u) hlock r
    exact ⟨hshared.trans hs, hexclusive.trans he⟩
  cases o with
  | acquireLockRef key => rcases r with e | _ <;> exact ⟨hs, he⟩
  | releaseLockRef key => exact ⟨hs, he⟩
  | unlock key => exact ⟨hs, by simp [Usage.after, he]⟩
  | unlockShared key => exact ⟨by simp [Usage.after, hs], he⟩
  | lock key => cases ho
  | lockShared key => cases ho
  | lockBoth k₁ k₂ => cases ho
  | _ => exact (hlock rfl).elim

lemma Patient.after {o : Call} {k : Answer o → Code (Reply × Bytes)} {u : Usage}
    (h : Patient (.op o k) u) (r : Answer o) : Patient (k r) (Usage.after o u r) := by
  rcases h with ⟨hs, he, honce⟩ | hnever
  · cases ho : o.isWaiting with
    | true => exact Or.inr (honce.1 ho r)
    | false =>
      obtain ⟨hs', he'⟩ := after_unlocked hs he ho r
      exact Or.inl ⟨hs', he', honce.2 r⟩
  · exact Or.inr (hnever.2 r trivial)

lemma Orderly.step (h : Orderly c) (hs : Threads.Step IsRequest (watched env) c c') :
    Orderly c' := by
  refine ⟨h.sound.step hs, fun key => (h.held key).step h.sound hs, ?_⟩
  cases hs with
  | @start j t hj ht =>
    obtain ⟨p, l, u⟩ := t
    obtain ⟨host, user, req, payload, rfl, -, rfl⟩ := ht
    intro i p' l' u' hi
    by_cases hij : i = j
    · subst hij
      cases (Threads.set_thread_self ..).symm.trans hi
      exact Or.inl ⟨rfl, rfl, waitsOnce_dispatch _ _ _⟩
    · exact h.patient i p' l' u' ((Threads.set_thread_ne hij ..).symm.trans hi)
  | @call j o k m m' s' r hj hr =>
    obtain ⟨l, u⟩ := m
    obtain ⟨l', u'⟩ := m'
    obtain ⟨-, rfl⟩ := Monitor.watch_eq_some.mp hr
    intro i p'' l'' u'' hi
    by_cases hij : i = j
    · subst hij
      cases (Threads.set_thread_self ..).symm.trans hi
      exact (h.patient i _ l u hj).after r
    · exact h.patient i p'' l'' u'' ((Threads.set_thread_ne hij ..).symm.trans hi)

lemma Orderly.run (h : Orderly c) (hrun : Threads.Run IsRequest (watched env) c c') :
    Orderly c' := by
  induction hrun with
  | refl => exact h
  | tail _ hs ih => exact ih.step hs

/-- What is not about a lock is done, or waits for the client. -/
lemma acts_of_not_waiting {o : Call} {k : Answer o → Code (Reply × Bytes)} {l : Local} {u : Usage}
    (hi : c.thread i = some (.op o k, l, u)) (ho : o.isWaiting = false) :
    Acts env stalled c i ∨ AwaitsClient stalled c i := by
  by_cases hheld : HeldUp stalled c i
  · exact Or.inr (Or.inl hheld)
  by_cases hrecv : ∃ n, o = .recv n
  · obtain ⟨n, rfl⟩ := hrecv
    by_cases harrived : l.conn.input ≠ [] ∨ l.conn.eof = true
    · obtain ⟨r, m, hr⟩ := recv_enabled env (n := n) (s := c.shared) harrived
      exact Or.inl ⟨hheld, _, k, l, u, r, m, hi, hr⟩
    · simp only [not_or, not_not, Bool.not_eq_true] at harrived
      exact Or.inr (Or.inr ⟨n, k, l, u, hi, harrived⟩)
  · obtain ⟨r, m, hr⟩ := next_enabled env o (l, c.shared) ho fun n hn => hrecv ⟨n, hn⟩
    exact Or.inl ⟨hheld, o, k, l, u, r, m, hi, hr⟩

lemma Orderly.has_key (h : Orderly c) {key : Bytes} {e : ℕ} (hj : Holds c.shared.locks key e j) :
    key ∈ (c.usage j).exclusive ∨ key ∈ (c.usage j).shared := by
  rcases hj with hw | hr
  · exact Or.inl (((h.held key).writer e j).mp hw).1
  · exact Or.inr (((h.held key).readers e j).mp hr).1

/-- A request with a lock is not at its end, and does not wait for another. -/
lemma Orderly.holder (h : Orderly c) {key : Bytes}
    (hkey : key ∈ (c.usage j).exclusive ∨ key ∈ (c.usage j).shared) :
    Acts env stalled c j ∨ AwaitsClient stalled c j := by
  cases hj : c.thread j with
  | none => simp [Requests.usage, hj, Usage.start] at hkey
  | some t =>
    obtain ⟨p, l, u⟩ := t
    rw [show c.usage j = u by simp [Requests.usage, hj]] at hkey
    have hover : ¬ u.Done := fun hdone => by simp [hdone.shared, hdone.exclusive] at hkey
    have hwaitless : Waitless p := by
      refine (h.patient j p l u hj).resolve_left ?_
      rintro ⟨hs, he, -⟩
      simp [hs, he] at hkey
    cases p with
    | pure a => exact (hover (h.sound.finishes j _ l u hj)).elim
    | throw e => exact (hover (h.sound.finishes j _ l u hj)).elim
    | op o k => exact acts_of_not_waiting hj (Bool.not_eq_true _ ▸ hwaitless.1)

lemma exists_holder {m : LockManager} {key : Bytes} {e : ℕ} (h : m.isFree key e = false) :
    ∃ j, Holds m key e j := by
  rw [LockManager.isFree, SharedMutex.isFree] at h
  cases hw : (m.mutex key e).writer with
  | some j => exact ⟨j, Or.inl hw⟩
  | none =>
    cases hr : (m.mutex key e).readers with
    | nil => simp [hw, hr] at h
    | cons j rest => exact ⟨j, Or.inr (hr ▸ List.mem_cons_self)⟩

lemma isFree_of_not_canShare {m : LockManager} {key : Bytes} {e : ℕ}
    (h : m.canShare key e = false) : m.isFree key e = false := by
  rw [LockManager.canShare, SharedMutex.canShare] at h
  rw [LockManager.isFree, SharedMutex.isFree, h, Bool.false_and]

lemma not_heldUp {o : Call} {k : Answer o → Code (Reply × Bytes)} {l : Local} {u : Usage}
    (hi : c.thread i = some (.op o k, l, u)) (ho : o.isWaiting = true) : ¬ HeldUp stalled c i := by
  rintro ⟨-, data, count, k', l', u', hi', -⟩
  cases hi.symm.trans hi'
  cases ho

/-- A request waits only while one of the mutexes it asks for is held. -/
lemma acts_of_free {o : Call} {k : Answer o → Code (Reply × Bytes)} {l : Local} {u : Usage}
    (hi : c.thread i = some (.op o k, l, u)) (ho : o.isWaiting = true) :
    Acts env stalled c i ∨ ∃ key ∈ o.keys, c.shared.locks.isFree key (l.entry key) = false := by
  have hheld : ¬ HeldUp stalled c i := not_heldUp hi ho
  cases o with
  | lock key =>
    cases hfree : c.shared.locks.isFree key (l.entry key) with
    | true => exact Or.inl ⟨hheld, _, k, l, u, (), _, hi, if_pos hfree⟩
    | false => exact Or.inr ⟨key, List.mem_cons_self, hfree⟩
  | lockShared key =>
    cases hfree : c.shared.locks.canShare key (l.entry key) with
    | true => exact Or.inl ⟨hheld, _, k, l, u, (), _, hi, if_pos hfree⟩
    | false => exact Or.inr ⟨key, List.mem_cons_self, isFree_of_not_canShare hfree⟩
  | lockBoth k₁ k₂ =>
    cases hfree₁ : c.shared.locks.isFree k₁ (l.entry k₁) with
    | false => exact Or.inr ⟨k₁, List.mem_cons_self, hfree₁⟩
    | true =>
      cases hfree₂ : c.shared.locks.isFree k₂ (l.entry k₂) with
      | false => exact Or.inr ⟨k₂, List.mem_cons_of_mem _ List.mem_cons_self, hfree₂⟩
      | true => exact Or.inl ⟨hheld, _, k, l, u, (), _, hi, if_pos ⟨hfree₁, hfree₂⟩⟩
  | _ => cases ho

lemma Orderly.progress (env : Env) (stalled : ℕ → Prop) (h : Orderly c) {o : Call}
    {k : Answer o → Code (Reply × Bytes)} {l : Local}
    {u : Usage} (hi : c.thread i = some (.op o k, l, u)) :
    Acts env stalled c i ∨ AwaitsClient stalled c i ∨
      ∃ j, AwaitsLock c i j ∧ (Acts env stalled c j ∨ AwaitsClient stalled c j) := by
  cases ho : o.isWaiting with
  | false => exact (acts_of_not_waiting hi ho).imp_right Or.inl
  | true =>
    refine (acts_of_free hi ho).imp_right ?_
    rintro ⟨key, hmem, hfree⟩
    obtain ⟨j, hj⟩ := exists_holder hfree
    have hkey := h.has_key hj
    have hne : j ≠ i := by
      rintro rfl
      rw [show c.usage j = u by simp [Requests.usage, hi]] at hkey
      rcases h.patient j _ l u hi with ⟨hs, he, -⟩ | hnever
      · simp [hs, he] at hkey
      · exact hnever.1 ho
    exact Or.inr ⟨j, ⟨o, k, l, u, key, hi, ho, hmem, hne, hj⟩, h.holder hkey⟩

/-- In every run, whatever becomes of the reference counts and whichever clients do not read, a
request that is not over makes a call, or waits for its client, or waits for a lock of another that
makes a call or waits for its client. -/
theorem no_deadlock (env : Env) (s : Store) (hs : s.locks = .initial) (c : Requests)
    (hrun : Threads.Run IsRequest (watched env) (.idle s) c) (stalled : ℕ → Prop) (i : ℕ)
    (p : Code (Reply × Bytes)) (l : Local) (u : Usage) (hi : c.thread i = some (p, l, u)) :
    (∃ r, p = .ofExcept r) ∨ Acts env stalled c i ∨ AwaitsClient stalled c i ∨
      ∃ j, AwaitsLock c i j ∧ (Acts env stalled c j ∨ AwaitsClient stalled c j) := by
  have horderly := (orderly_idle hs).run hrun
  cases p with
  | pure a => exact Or.inl ⟨.ok a, rfl⟩
  | throw e => exact Or.inl ⟨.error e, rfl⟩
  | op o k => exact Or.inr (horderly.progress env stalled hi)

/-- The file `x` of bob, with its entry. -/
def withX : Store := { Store.fresh FailedUpload.oldVersion with
  index := Index.empty.addFile (indexDir (bytes "bob")) (bytes "x") 3 [] }

def isSending {α : Type} (p : Code α) (c : Conn) : Bool :=
  match p with
  | .op (.send _ count) _ => decide (0 < count) && !c.eof
  | _ => false

lemma exists_of_isSending {α : Type} {p : Code α} {c : Conn} (h : isSending p c = true) :
    ∃ data count k, p = .op (.send data count) k ∧ 0 < count ∧ c.eof = false := by
  rcases p with a | e | ⟨o, k⟩
  · cases h
  · cases h
  · cases o <;> first | cases h | skip
    rename_i data count
    obtain ⟨hcount, heof⟩ := Bool.and_eq_true_iff.mp h
    exact ⟨data, count, k, rfl, of_decide_eq_true hcount, by simpa using heof⟩

/-- A download of `x` comes to send what it has read, with the lock of the file. -/
lemma downloads_bobX : ∃ data count k l u s, Steps (watched .atRoot)
    (ofBob .download 0 (bytes "x"),
      (((.fresh 0 [] false, .start), withX) : (Local × Usage) × Store))
    (.op (.send data count) k, ((l, u), s)) ∧ 0 < count ∧ l.conn.eof = false ∧
      (s.locks.acquire bobX).isFree bobX (s.locks.entryOf bobX) = false := by
  have hsending : (follow (fun o m => oblige .atRoot o (m.1.1, m.2)) (watched .atRoot) 10
      (ofBob .download 0 (bytes "x")) ((.fresh 0 [] false, .start), withX)).any
        (fun c => isSending c.1 c.2.1.1.conn &&
          !(c.2.2.locks.acquire bobX).isFree bobX (c.2.2.locks.entryOf bobX)) = true := by
    decide +kernel
  obtain ⟨⟨q, ⟨l, u⟩, s⟩, hfollow, hcheck⟩ := (Option.any_eq_true _ _).mp hsending
  obtain ⟨hsend, hlocked⟩ := Bool.and_eq_true_iff.mp hcheck
  obtain ⟨data, count, k, rfl, hcount, heof⟩ := exists_of_isSending hsend
  exact ⟨data, count, k, l, u, s, steps_of_follow hfollow, hcount, heof, by simpa using hlocked⟩

/-- A request that deletes a file waits for one that sends it to a client that does not read. -/
theorem no_deadlock_unread : ∃ c : Requests,
    Threads.Run IsRequest (watched .atRoot) (.idle withX) c ∧ HeldUp (fun i => i = 0) c 0 ∧
      ∃ j, AwaitsLock c 1 j ∧
        (Acts .atRoot (fun i => i = 0) c j ∨ AwaitsClient (fun i => i = 0) c j) := by
  obtain ⟨data, count, k, l, u, s, hsteps, hcount, heof, hheld⟩ := downloads_bobX
  have hstart : IsRequest 0 (ofBob .download 0 (bytes "x"), .fresh 0 [] false, .start) :=
    ⟨.little, bytes "bob", ⟨makeRequest .download 0 1 0, [], bytes "x"⟩, [], rfl, rfl, rfl⟩
  have hrun := Threads.run_thread (c := .idle withX) (i := 0) rfl hstart hsteps
  obtain ⟨k₁, l₁, u₁, hsteps₁, hentry₁⟩ := comes_to_lock s 1
  have hrun₁ := hrun.trans (Threads.run_thread (i := 1) rfl (isRequest_ofBob ..) hsteps₁)
  refine ⟨_, hrun₁, ⟨rfl, data, count, k, l, u, rfl, hcount, heof⟩, ?_⟩
  rcases no_deadlock .atRoot withX rfl _ hrun₁ (fun i => i = 0) 1 _ l₁ u₁
    (Threads.set_thread_self ..) with
    ⟨r, hr⟩ | ⟨-, o, k', l', u', r, m, hi, hr⟩ | (⟨hone, -⟩ | ⟨n, k', l', u', hi, -⟩) | hlock
  · cases r <;> cases hr
  · cases (Threads.set_thread_self ..).symm.trans hi
    rw [next, Threads.set_shared, hentry₁, if_neg (by simpa using hheld)] at hr
    cases hr
  · cases hone
  · cases (Threads.set_thread_self ..).symm.trans hi
  · exact hlock

end Mtfss.LockProgress
