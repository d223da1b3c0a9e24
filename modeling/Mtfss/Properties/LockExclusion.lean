import Mtfss.Properties.LockBalance

/-! All who use a path key at one time use one entry, and so exclude each other, as long as no
reference count wraps around. -/

namespace Mtfss.LockExclusion

open Effects Paths Server Relation LockBalance Rules FileManager

/-- The mutexes of one key are held by those that say so: `writes` and `reads` are the requests with
an exclusive and with a shared lock, `entry` the entries that they have fetched. -/
structure Held (mutex : ℕ → SharedMutex) (writes reads : ℕ → Prop) (entry : ℕ → ℕ) : Prop where
  writer : ∀ e i, (mutex e).writer = some i ↔ writes i ∧ entry i = e
  readers : ∀ e i, i ∈ (mutex e).readers ↔ reads i ∧ entry i = e
  nodup : ∀ e, (mutex e).readers.Nodup
  alone : ∀ e i, (mutex e).writer = some i → (mutex e).readers = []

namespace Held

variable {mutex : ℕ → SharedMutex} {writes reads writes' reads' : ℕ → Prop} {entry entry' : ℕ → ℕ}
variable {j : ℕ}

lemma initial (entry : ℕ → ℕ) :
    Held (fun _ => .unlocked) (fun _ => False) (fun _ => False) entry := by
  constructor <;> simp [SharedMutex.unlocked]

lemma congr (h : Held mutex writes reads entry) (hw : ∀ i, writes' i ↔ writes i)
    (hr : ∀ i, reads' i ↔ reads i) (he : ∀ i, writes i ∨ reads i → entry' i = entry i) :
    Held mutex writes' reads' entry' where
  writer e i := by
    rw [h.writer, hw]
    exact and_congr_right (fun hi => by rw [he i (Or.inl hi)])
  readers e i := by
    rw [h.readers, hr]
    exact and_congr_right (fun hi => by rw [he i (Or.inr hi)])
  nodup := h.nodup
  alone := h.alone

lemma change (h : Held mutex writes reads entry) {x : SharedMutex}
    (hw : ∀ i, i ≠ j → (writes' i ↔ writes i)) (hr : ∀ i, i ≠ j → (reads' i ↔ reads i))
    (hwriter : ∀ i, x.writer = some i ↔ writes' i ∧ entry i = entry j)
    (hreaders : ∀ i, i ∈ x.readers ↔ reads' i ∧ entry i = entry j) (hnodup : x.readers.Nodup)
    (halone : ∀ i, x.writer = some i → x.readers = []) :
    Held (Function.update mutex (entry j) x) writes' reads' entry := by
  have hother : ∀ {e}, e ≠ entry j → ∀ {i}, entry i = e → i ≠ j := by
    rintro _ he i rfl rfl
    exact he rfl
  refine ⟨fun e i => ?_, fun e i => ?_, fun e => ?_, fun e i hi => ?_⟩ <;> by_cases he : e = entry j
  · rw [he, Function.update_self, hwriter]
  · rw [Function.update_of_ne he, h.writer]
    exact and_congr_left (fun hi => (hw i (hother he hi)).symm)
  · rw [he, Function.update_self, hreaders]
  · rw [Function.update_of_ne he, h.readers]
    exact and_congr_left (fun hi => (hr i (hother he hi)).symm)
  · rwa [he, Function.update_self]
  · rw [Function.update_of_ne he]
    exact h.nodup e
  · rw [he, Function.update_self] at hi ⊢
    exact halone i hi
  · rw [Function.update_of_ne he] at hi ⊢
    exact h.alone e i hi

lemma lock (h : Held mutex writes reads entry) (hfree : (mutex (entry j)).isFree = true)
    (hw : ∀ i, writes' i ↔ i = j ∨ writes i) :
    Held (Function.update mutex (entry j) ⟨some j, (mutex (entry j)).readers⟩) writes' reads
      entry := by
  have hnone : (mutex (entry j)).writer = none ∧ (mutex (entry j)).readers = [] := by
    simpa [SharedMutex.isFree] using hfree
  have hold : ∀ i, writes i → entry i ≠ entry j := by
    intro i hi hentry
    have := (h.writer _ i).mpr ⟨hi, hentry⟩
    rw [hnone.1] at this
    cases this
  refine h.change (fun i hne => by simp [hw, hne]) (fun _ _ => Iff.rfl) (fun i => ?_)
    (h.readers _) (h.nodup _) (fun _ _ => hnone.2)
  rw [hw, Option.some.injEq]
  constructor
  · rintro rfl
    exact ⟨Or.inl rfl, rfl⟩
  · rintro ⟨rfl | hi, hentry⟩
    · rfl
    · exact (hold i hi hentry).elim

lemma unlock (h : Held mutex writes reads entry) (hj : writes j)
    (hw : ∀ i, writes' i ↔ i ≠ j ∧ writes i) :
    Held (Function.update mutex (entry j) ⟨none, (mutex (entry j)).readers⟩)
      writes' reads entry := by
  have hwriter : (mutex (entry j)).writer = some j := (h.writer _ j).mpr ⟨hj, rfl⟩
  refine h.change (fun i hne => by simp [hw, hne]) (fun _ _ => Iff.rfl) (fun i => ?_)
    (h.readers _) (h.nodup _) nofun
  rw [hw]
  simp only [reduceCtorEq, false_iff]
  rintro ⟨⟨hne, hi⟩, hentry⟩
  have hsame := (h.writer _ i).mpr ⟨hi, hentry⟩
  rw [hwriter] at hsame
  exact hne (Option.some.inj hsame).symm

lemma lockShared (h : Held mutex writes reads entry) (hfree : (mutex (entry j)).canShare = true)
    (hj : ¬ reads j) (hr : ∀ i, reads' i ↔ i = j ∨ reads i) :
    Held (Function.update mutex (entry j)
      ⟨(mutex (entry j)).writer, j :: (mutex (entry j)).readers⟩)
      writes reads' entry := by
  have hnone : (mutex (entry j)).writer = none := by simpa [SharedMutex.canShare] using hfree
  refine h.change (fun _ _ => Iff.rfl) (fun i hne => by simp [hr, hne]) (h.writer _) (fun i => ?_)
    ?_ (fun i hi => ?_)
  · rw [hr, List.mem_cons, h.readers]
    constructor
    · rintro (rfl | ⟨hi, hentry⟩)
      · exact ⟨Or.inl rfl, rfl⟩
      · exact ⟨Or.inr hi, hentry⟩
    · rintro ⟨rfl | hi, hentry⟩
      · exact Or.inl rfl
      · exact Or.inr ⟨hi, hentry⟩
  · exact List.nodup_cons.mpr ⟨fun hm => hj ((h.readers _ j).mp hm).1, h.nodup _⟩
  · rw [hnone] at hi
    cases hi

lemma unlockShared (h : Held mutex writes reads entry) (hr : ∀ i, reads' i ↔ i ≠ j ∧ reads i) :
    Held (Function.update mutex (entry j)
      ⟨(mutex (entry j)).writer, (mutex (entry j)).readers.erase j⟩) writes reads' entry := by
  refine h.change (fun _ _ => Iff.rfl) (fun i hne => by simp [hr, hne]) (h.writer _) (fun i => ?_)
    ((h.nodup _).erase j) (fun i hi => ?_)
  · rw [hr, (h.nodup _).mem_erase_iff, h.readers, and_assoc]
  · rw [h.alone _ i hi]
    rfl

lemma excludes (h : Held mutex writes reads entry) {i k : ℕ} (hentry : entry i = entry k)
    (hi : writes i) (hne : i ≠ k) : ¬ writes k ∧ ¬ reads k := by
  have hwriter : (mutex (entry k)).writer = some i := (h.writer _ i).mpr ⟨hi, hentry⟩
  constructor
  · intro hk
    have := hwriter.symm.trans ((h.writer _ k).mpr ⟨hk, rfl⟩)
    exact hne (Option.some.inj this)
  · intro hk
    have hmem := (h.readers _ k).mpr ⟨hk, rfl⟩
    rw [h.alone _ i hwriter] at hmem
    cases hmem

end Held

variable {env : Env} {c c' : Requests}

def KeyHeld (c : Requests) (key : Bytes) : Prop :=
  Held (c.shared.locks.mutex key) (fun i => key ∈ (c.usage i).exclusive)
    (fun i => key ∈ (c.usage i).shared) (fun i => c.entry i key)

lemma keyHeld_idle {s : Store} (hs : s.locks = .initial) (key : Bytes) : KeyHeld (.idle s) key := by
  have hmutex : s.locks.mutex key = fun _ => .unlocked := by rw [hs]; rfl
  rw [KeyHeld, Threads.idle, hmutex]
  refine (Held.initial _).congr (fun i => ?_) (fun i => ?_) (fun _ _ => rfl) <;>
    simp [Requests.usage, Usage.start]

section Calls

variable {j : ℕ} {key : Bytes} {l l' : Local} {u : Usage} {s' : Store} {o : Call} {r : Answer o}
variable {k p : Code (Reply × Bytes)}

lemma keyHeld_frame (h : KeyHeld c key) (hj : c.thread j = some (k, l, u))
    (hmutex : s'.locks.mutex key = c.shared.locks.mutex key)
    (hexclusive : key ∈ (Usage.after o u r).exclusive ↔ key ∈ u.exclusive)
    (hshared : key ∈ (Usage.after o u r).shared ↔ key ∈ u.shared)
    (hentry : key ∈ u.exclusive ∨ key ∈ u.shared → l'.entry key = l.entry key) :
    KeyHeld (c.set j (p, l', Usage.after o u r) s') key := by
  have hu : c.usage j = u := by simp [Requests.usage, hj]
  have he : c.entry j key = l.entry key := by simp [Requests.entry, hj]
  rw [KeyHeld, Threads.set_shared, hmutex]
  refine h.congr (fun i => ?_) (fun i => ?_) (fun i hi => ?_)
  · rw [Requests.usage_set]
    split
    · rename_i hij
      rw [hij, hu, hexclusive]
    · rfl
  · rw [Requests.usage_set]
    split
    · rename_i hij
      rw [hij, hu, hshared]
    · rfl
  · rw [Requests.entry_set]
    split
    · rename_i hij
      subst hij
      rw [he, hentry (by rwa [hu] at hi)]
    · rfl

lemma entry_same (hj : c.thread j = some (k, l, u)) (i : ℕ) :
    Requests.entry (c.set j (p, l, Usage.after o u r) s') i key = c.entry i key := by
  rw [Requests.entry_set]
  split
  · rename_i hij
    rw [hij]
    simp [Requests.entry, hj]
  · rfl

lemma shared_same (hj : c.thread j = some (k, l, u)) (h : (Usage.after o u r).shared = u.shared)
    (i : ℕ) : (Requests.usage (c.set j (p, l', Usage.after o u r) s') i).shared =
      (c.usage i).shared := by
  rw [Requests.usage_set]
  split
  · rename_i hij
    rw [hij, h]
    simp [Requests.usage, hj]
  · rfl

lemma exclusive_same (hj : c.thread j = some (k, l, u))
    (h : (Usage.after o u r).exclusive = u.exclusive) (i : ℕ) :
    (Requests.usage (c.set j (p, l', Usage.after o u r) s') i).exclusive =
      (c.usage i).exclusive := by
  rw [Requests.usage_set]
  split
  · rename_i hij
    rw [hij, h]
    simp [Requests.usage, hj]
  · rfl

lemma keyHeld_lock (h : KeyHeld c key) (hj : c.thread j = some (k, l, u))
    (hfree : c.shared.locks.isFree key (l.entry key) = true)
    (hmutex : s'.locks.mutex key = Function.update (c.shared.locks.mutex key) (l.entry key)
      ⟨some j, (c.shared.locks.mutex key (l.entry key)).readers⟩)
    (hexclusive : key ∈ (Usage.after o u r).exclusive)
    (hshared : (Usage.after o u r).shared = u.shared) :
    KeyHeld (c.set j (p, l, Usage.after o u r) s') key := by
  have he : c.entry j key = l.entry key := by simp [Requests.entry, hj]
  rw [← he] at hfree hmutex
  simp only [KeyHeld, Threads.set_shared, hmutex, entry_same hj, shared_same hj hshared]
  refine h.lock hfree (fun i => ?_)
  rw [Requests.usage_set]
  split
  · rename_i hij
    simp [hij, hexclusive]
  · rename_i hij
    simp [hij]

lemma keyHeld_unlock (h : KeyHeld c key) (hj : c.thread j = some (k, l, u))
    (hheld : key ∈ u.exclusive)
    (hmutex : s'.locks.mutex key = Function.update (c.shared.locks.mutex key) (l.entry key)
      ⟨none, (c.shared.locks.mutex key (l.entry key)).readers⟩)
    (hexclusive : key ∉ (Usage.after o u r).exclusive)
    (hshared : (Usage.after o u r).shared = u.shared) :
    KeyHeld (c.set j (p, l, Usage.after o u r) s') key := by
  have he : c.entry j key = l.entry key := by simp [Requests.entry, hj]
  have hu : c.usage j = u := by simp [Requests.usage, hj]
  rw [← he] at hmutex
  simp only [KeyHeld, Threads.set_shared, hmutex, entry_same hj, shared_same hj hshared]
  refine h.unlock (hu ▸ hheld) (fun i => ?_)
  rw [Requests.usage_set]
  split
  · rename_i hij
    simp [hij, hexclusive]
  · rename_i hij
    simp [hij]

lemma keyHeld_lockShared (h : KeyHeld c key) (hj : c.thread j = some (k, l, u))
    (hfree : c.shared.locks.canShare key (l.entry key) = true) (hnone : key ∉ u.shared)
    (hmutex : s'.locks.mutex key = Function.update (c.shared.locks.mutex key) (l.entry key)
      ⟨(c.shared.locks.mutex key (l.entry key)).writer,
        j :: (c.shared.locks.mutex key (l.entry key)).readers⟩)
    (hexclusive : (Usage.after o u r).exclusive = u.exclusive)
    (hshared : key ∈ (Usage.after o u r).shared) :
    KeyHeld (c.set j (p, l, Usage.after o u r) s') key := by
  have he : c.entry j key = l.entry key := by simp [Requests.entry, hj]
  have hu : c.usage j = u := by simp [Requests.usage, hj]
  rw [← he] at hfree hmutex
  simp only [KeyHeld, Threads.set_shared, hmutex, entry_same hj, exclusive_same hj hexclusive]
  refine h.lockShared hfree (hu ▸ hnone) (fun i => ?_)
  rw [Requests.usage_set]
  split
  · rename_i hij
    simp [hij, hshared]
  · rename_i hij
    simp [hij]

lemma keyHeld_unlockShared (h : KeyHeld c key) (hj : c.thread j = some (k, l, u))
    (hmutex : s'.locks.mutex key = Function.update (c.shared.locks.mutex key) (l.entry key)
      ⟨(c.shared.locks.mutex key (l.entry key)).writer,
        (c.shared.locks.mutex key (l.entry key)).readers.erase j⟩)
    (hexclusive : (Usage.after o u r).exclusive = u.exclusive)
    (hshared : key ∉ (Usage.after o u r).shared) :
    KeyHeld (c.set j (p, l, Usage.after o u r) s') key := by
  have he : c.entry j key = l.entry key := by simp [Requests.entry, hj]
  rw [← he] at hmutex
  simp only [KeyHeld, Threads.set_shared, hmutex, entry_same hj, exclusive_same hj hexclusive]
  refine h.unlockShared (fun i => ?_)
  rw [Requests.usage_set]
  split
  · rename_i hij
    simp [hij, hshared]
  · rename_i hij
    simp [hij]

end Calls

lemma mutex_setMutex (m : LockManager) (k key : Bytes) (e : ℕ) (x : SharedMutex) :
    (m.setMutex k e x).mutex key =
      if key = k then Function.update (m.mutex key) e x else m.mutex key := by
  by_cases h : key = k
  · subst h
    simp [LockManager.setMutex]
  · simp [LockManager.setMutex, h]

lemma KeyHeld.step {key : Bytes} (h : KeyHeld c key) (hsound : c.Sound)
    (hs : Threads.Step IsRequest (watched env) c c') : KeyHeld c' key := by
  cases hs with
  | @start j t hj ht =>
    obtain ⟨p, l, u⟩ := t
    obtain ⟨-, -, -, -, -, -, rfl⟩ := ht
    have hu : c.usage j = .start := by simp [Requests.usage, hj]
    have husage : ∀ i, Requests.usage (c.set j (p, l, .start) c.shared) i = c.usage i := by
      intro i
      rw [Requests.usage_set]
      split
      · rename_i hij
        rw [hij, hu]
      · rfl
    refine h.congr (fun i => by rw [husage]) (fun i => by rw [husage]) (fun i hi => ?_)
    rw [Requests.entry_set]
    split
    · rename_i hij
      subst hij
      simp [hu, Usage.start] at hi
    · rfl
  | @call j o k m m' s' r hj hr =>
    obtain ⟨l, u⟩ := m
    obtain ⟨l', u'⟩ := m'
    obtain ⟨hnext, rfl⟩ := Monitor.watch_eq_some.mp hr
    obtain ⟨hallow, -⟩ := hsound.finishes j _ l u hj
    have hu : c.usage j = u := by simp [Requests.usage, hj]
    have hwf : u.WellFormed := hu ▸ hsound.wellFormed j
    have hself : l.self = j := hsound.self j _ l u hj
    by_cases ho : o.isLock = false
    · obtain ⟨hlocks, hentry⟩ := next_locks hnext ho
      obtain ⟨-, hshared, hexclusive⟩ := Usage.after_of_not_lock (u := u) ho r
      exact keyHeld_frame h hj (by rw [hlocks]) (by rw [hexclusive]) (by rw [hshared])
        (fun _ => by rw [hentry])
    cases o with
    | acquireLockRef k₀ =>
      have hfresh : k₀ ∉ u.refs := hallow
      rcases r with e | _
      · simp only [next, orThrow] at hnext
        split at hnext
        · cases hnext
          exact keyHeld_frame h hj rfl Iff.rfl Iff.rfl (fun _ => rfl)
        · cases hnext
      · cases hnext
        refine keyHeld_frame (o := .acquireLockRef k₀) (r := .ok ()) h hj rfl Iff.rfl Iff.rfl ?_
        rintro hi
        have hkey : key ∈ u.refs := hi.elim (hwf.exclusive_refs key) (hwf.shared_refs key)
        have hne : key ≠ k₀ := fun hk => hfresh (hk ▸ hkey)
        exact Function.update_of_ne hne _ _
    | releaseLockRef k₀ =>
      cases hnext
      refine keyHeld_frame (o := .releaseLockRef k₀) (r := ()) h hj ?_ Iff.rfl Iff.rfl
        (fun _ => rfl)
      rw [LockManager.release_mutex]
    | lock k₀ =>
      simp only [next, Option.ite_none_right_eq_some, Option.some.injEq, Prod.mk.injEq] at hnext
      obtain ⟨hfree, rfl, rfl⟩ := hnext
      by_cases hkey : key = k₀
      · subst hkey
        refine keyHeld_lock (o := .lock key) (r := ()) h hj hfree ?_ (by simp [Usage.after]) rfl
        rw [LockManager.lock, mutex_setMutex, if_pos rfl, hself]
      · refine keyHeld_frame (o := .lock k₀) (r := ()) h hj ?_ (by simp [Usage.after, hkey]) Iff.rfl
          (fun _ => rfl)
        rw [LockManager.lock, mutex_setMutex, if_neg hkey]
    | unlock k₀ =>
      cases hnext
      by_cases hkey : key = k₀
      · subst hkey
        refine keyHeld_unlock (o := .unlock key) (r := ()) h hj hallow ?_ ?_ rfl
        · rw [LockManager.unlock, mutex_setMutex, if_pos rfl]
        · simp [Usage.after, hwf.exclusive_nodup.mem_erase_iff]
      · refine keyHeld_frame (o := .unlock k₀) (r := ()) h hj ?_ ?_ Iff.rfl (fun _ => rfl)
        · rw [LockManager.unlock, mutex_setMutex, if_neg hkey]
        · exact List.mem_erase_of_ne hkey
    | lockShared k₀ =>
      simp only [next, Option.ite_none_right_eq_some, Option.some.injEq, Prod.mk.injEq] at hnext
      obtain ⟨hfree, rfl, rfl⟩ := hnext
      by_cases hkey : key = k₀
      · subst hkey
        refine keyHeld_lockShared (o := .lockShared key) (r := ()) h hj hfree hallow.2.1 ?_ rfl
          (by simp [Usage.after])
        rw [LockManager.lockShared, mutex_setMutex, if_pos rfl, hself]
      · refine keyHeld_frame (o := .lockShared k₀) (r := ()) h hj ?_ Iff.rfl
          (by simp [Usage.after, hkey]) (fun _ => rfl)
        rw [LockManager.lockShared, mutex_setMutex, if_neg hkey]
    | unlockShared k₀ =>
      cases hnext
      by_cases hkey : key = k₀
      · subst hkey
        refine keyHeld_unlockShared (o := .unlockShared key) (r := ()) h hj ?_ rfl ?_
        · rw [LockManager.unlockShared, mutex_setMutex, if_pos rfl, hself]
        · simp [Usage.after, hwf.shared_nodup.mem_erase_iff]
      · refine keyHeld_frame (o := .unlockShared k₀) (r := ()) h hj ?_ Iff.rfl ?_ (fun _ => rfl)
        · rw [LockManager.unlockShared, mutex_setMutex, if_neg hkey]
        · exact List.mem_erase_of_ne hkey
    | lockBoth k₁ k₂ =>
      simp only [next, Option.ite_none_right_eq_some, Option.some.injEq, Prod.mk.injEq] at hnext
      obtain ⟨⟨hfree₁, hfree₂⟩, rfl, rfl⟩ := hnext
      have hne : k₁ ≠ k₂ := hallow.1
      by_cases hkey₁ : key = k₁
      · subst hkey₁
        refine keyHeld_lock (o := .lockBoth key k₂) (r := ()) h hj hfree₁ ?_
          (by simp [Usage.after]) rfl
        rw [LockManager.lock, mutex_setMutex, if_neg hne, LockManager.lock,
          mutex_setMutex, if_pos rfl,
          hself]
      by_cases hkey₂ : key = k₂
      · subst hkey₂
        refine keyHeld_lock (o := .lockBoth k₁ key) (r := ()) h hj hfree₂ ?_
          (by simp [Usage.after]) rfl
        rw [LockManager.lock, mutex_setMutex, if_pos rfl, LockManager.lock, mutex_setMutex,
          if_neg hkey₁, hself]
      · refine keyHeld_frame (o := .lockBoth k₁ k₂) (r := ()) h hj ?_
          (by simp [Usage.after, hkey₁, hkey₂]) Iff.rfl (fun _ => rfl)
        rw [LockManager.lock, mutex_setMutex, if_neg hkey₂, LockManager.lock, mutex_setMutex,
          if_neg hkey₁]
    | _ => exact (ho rfl).elim

/-- The reference count of a key is the number of requests with a reference to it, and all of these
have the entry that is in the map. -/
def OneEntry (c : Requests) (key : Bytes) : Prop :=
  ∃ L : List ℕ, L.Nodup ∧ (∀ i, i ∈ L ↔ key ∈ (c.usage i).refs) ∧
    L.length = (c.shared.locks.refCount key).toNat ∧
    ∀ e n, c.shared.locks.locks key = some (e, n) → n ≠ 0 ∧ ∀ i ∈ L, c.entry i key = e

/-- A step takes the reference count of some key from its greatest value to zero. -/
def Wraps (c c' : Requests) : Prop :=
  ∃ key, c.shared.locks.refCount key = -1 ∧ c'.shared.locks.refCount key = 0

lemma oneEntry_idle {s : Store} (hs : s.locks = .initial) (key : Bytes) :
    OneEntry (.idle s) key := by
  refine ⟨[], List.nodup_nil, fun i => by simp [Requests.usage, Threads.idle, Usage.start], ?_, ?_⟩
  · simp [Threads.idle, hs, LockManager.initial, LockManager.refCount]
  · intro e n h
    simp [Threads.idle, hs, LockManager.initial] at h

lemma toNat_succ {n : UInt32} (h : n ≠ -1) : (n + 1).toNat = n.toNat + 1 := by
  have hlt := n.toNat_lt
  have hne : n.toNat ≠ 2 ^ 32 - 1 := fun he => h (UInt32.toNat.inj he)
  rw [UInt32.toNat_add]
  simp
  omega

lemma toNat_pred {n : UInt32} (h : n ≠ 0) : (n - 1).toNat = n.toNat - 1 := by
  have hpos : 1 ≤ n.toNat := by
    by_contra hlt
    exact h (UInt32.toNat.inj (by simp; omega))
  exact UInt32.toNat_sub_of_le _ _ (UInt32.le_iff_toNat_le.mpr hpos)

lemma OneEntry.touch {key : Bytes} (h : OneEntry c key) (ht : Requests.Touch c c' key)
    (hwrap : ¬ Wraps c c') : OneEntry c' key := by
  obtain ⟨L, hnodup, hL, hlen, hentry⟩ := h
  cases ht with
  | kept hlocks hrefs hsame =>
    refine ⟨L, hnodup, fun i => (hL i).trans (hrefs i).symm, ?_, fun e n he => ?_⟩
    · rw [hlen, LockManager.refCount, LockManager.refCount, hlocks]
    · obtain ⟨hn, hall⟩ := hentry e n (hlocks ▸ he)
      exact ⟨hn, fun i hi => (hsame i ((hL i).mp hi)).trans (hall i hi)⟩
  | acquired j hfresh hlocks hrefs hj hothers =>
    have hcount : c'.shared.locks.refCount key = c.shared.locks.refCount key + 1 := by
      rw [LockManager.refCount, hlocks]
      rfl
    have hmax : c.shared.locks.refCount key ≠ -1 := by
      intro hmax
      exact hwrap ⟨key, hmax, by rw [hcount, hmax]; rfl⟩
    refine ⟨j :: L, List.nodup_cons.mpr ⟨mt (hL j).mp hfresh, hnodup⟩, fun i => ?_, ?_, ?_⟩
    · rw [List.mem_cons, hL, hrefs]
    · rw [hcount, toNat_succ hmax, List.length_cons, hlen]
    · intro e n he
      rw [hlocks] at he
      cases he
      refine ⟨?_, fun i hi => ?_⟩
      · intro hzero
        have := toNat_succ hmax
        rw [hzero] at this
        simp at this
      · rcases List.mem_cons.mp hi with rfl | hi
        · exact hj
        · have hne : i ≠ j := fun hij => hfresh (hij ▸ (hL i).mp hi)
          rw [hothers i hne]
          cases hold : c.shared.locks.locks key with
          | none =>
            have hzero : L.length = 0 := by simp [hlen, LockManager.refCount, hold]
            rw [List.eq_nil_of_length_eq_zero hzero] at hi
            cases hi
          | some x =>
            rw [(hentry x.1 x.2 hold).2 i hi]
            simp [LockManager.entryOf, hold]
  | released j hheld hlocks hrefs hsame =>
    have hj : j ∈ L := (hL j).mpr hheld
    obtain ⟨e, n, hold⟩ : ∃ e n, c.shared.locks.locks key = some (e, n) := by
      cases hold : c.shared.locks.locks key with
      | none =>
        have hzero : L.length = 0 := by simp [hlen, LockManager.refCount, hold]
        rw [List.eq_nil_of_length_eq_zero hzero] at hj
        cases hj
      | some x => exact ⟨x.1, x.2, rfl⟩
    obtain ⟨hn, hsome⟩ := hentry e n hold
    have hlocks' : c'.shared.locks.locks key = if n - 1 = 0 then none else some (e, n - 1) := by
      rw [hlocks, LockManager.release, hold]
      exact Function.update_self _ _ _
    have hlen' : L.length = n.toNat := by
      rw [hlen, LockManager.refCount, hold]
      rfl
    refine ⟨L.erase j, hnodup.erase j, fun i => ?_, ?_, ?_⟩
    · rw [hnodup.mem_erase_iff, hL, hrefs]
    · rw [List.length_erase_of_mem hj, hlen', ← toNat_pred hn, LockManager.refCount, hlocks']
      split
      · rename_i hzero
        rw [hzero]
        rfl
      · rfl
    · intro e' n' he
      rw [hlocks', Option.ite_none_left_eq_some, Option.some.injEq, Prod.mk.injEq] at he
      obtain ⟨hne, rfl, rfl⟩ := he
      exact ⟨hne, fun i hi => (hsame i).trans (hsome i (List.mem_of_mem_erase hi))⟩

/-- Requests with references to a key have fetched one entry, and an exclusive lock on the key
excludes all others. -/
structure Exclusive (c : Requests) : Prop where
  entry : ∀ key i j, key ∈ (c.usage i).refs → key ∈ (c.usage j).refs → c.entry i key = c.entry j key
  alone : ∀ key i j, i ≠ j → key ∈ (c.usage i).exclusive →
    key ∉ (c.usage j).exclusive ∧ key ∉ (c.usage j).shared

lemma exclusive_of_keys (hsound : c.Sound) (hall : ∀ key, OneEntry c key ∧ KeyHeld c key) :
    Exclusive c := by
  have hentry : ∀ key i j, key ∈ (c.usage i).refs → key ∈ (c.usage j).refs →
      c.entry i key = c.entry j key := by
    intro key i j hi hj
    obtain ⟨L, -, hL, hlen, hsame⟩ := (hall key).1
    have hiL := (hL i).mpr hi
    cases hlocks : c.shared.locks.locks key with
    | none =>
      have hzero : L.length = 0 := by simp [hlen, LockManager.refCount, hlocks]
      rw [List.eq_nil_of_length_eq_zero hzero] at hiL
      cases hiL
    | some x =>
      obtain ⟨-, hx⟩ := hsame x.1 x.2 hlocks
      rw [hx i hiL, hx j ((hL j).mpr hj)]
  refine ⟨hentry, fun key i j hne hi => ?_⟩
  have hirefs := (hsound.wellFormed i).exclusive_refs key hi
  constructor
  · intro hj
    have hjrefs := (hsound.wellFormed j).exclusive_refs key hj
    exact ((hall key).2.excludes (hentry key i j hirefs hjrefs) hi hne).1 hj
  · intro hj
    have hjrefs := (hsound.wellFormed j).shared_refs key hj
    exact ((hall key).2.excludes (hentry key i j hirefs hjrefs) hi hne).2 hj

lemma not_wraps_of_few {m : ℕ} (hm : m < 2 ^ 32 - 1) (hreach : Reachable env c)
    (hfew : ∀ i, m ≤ i → c.thread i = none) : ¬ Wraps c c' := by
  rintro ⟨key, hmax, -⟩
  obtain ⟨L, hnodup, hL, hcount⟩ := (reachable_counted hreach).2 key
  have hlen : L.length ≤ m := by
    have hsub : L ⊆ List.range m := by
      intro i hi
      rw [List.mem_range]
      by_contra hge
      have hkey := (hL i).mp hi
      simp [Requests.usage, hfew i (not_lt.mp hge), Usage.start] at hkey
    simpa using (List.subperm_of_subset hnodup hsub).length_le
  cases hlocks : c.shared.locks.locks key with
  | none =>
    rw [LockManager.refCount, hlocks] at hmax
    cases hmax
  | some x =>
    obtain ⟨d, -, hd, hn⟩ := hcount x.1 x.2 hlocks
    have hmax' : UInt32.ofNat d = -1 := by
      rw [← hn, ← hmax, LockManager.refCount, hlocks]
      rfl
    have hd' := congrArg UInt32.toNat hmax'
    rw [UInt32.toNat_ofNat_of_lt' (by simp [UInt32.size]; omega)] at hd'
    have : (-1 : UInt32).toNat = 2 ^ 32 - 1 := by decide
    omega

/-- A request that begins among few others and makes some calls. -/
lemma run_few {m i : ℕ} (hm : m < 2 ^ 32 - 1) {c : Requests} (hreach : Reachable env c)
    (hfew : ∀ j, m ≤ j → c.thread j = none) (hi : i < m) (hnone : c.thread i = none)
    {p q : Code (Reply × Bytes)} {l l' : Local} {u : Usage} {s' : Store}
    (hstart : IsRequest i (p, l, .start))
    (h : Steps (watched env) (p, ((l, .start), c.shared)) (q, ((l', u), s'))) :
    ReflTransGen (fun c c' => Threads.Step IsRequest (watched env) c c' ∧ ¬ Wraps c c') c
      (c.set i (q, l', u) s') := by
  generalize hb : (q, ((l', u), s')) = b at h
  induction h generalizing q l' u s' with
  | refl =>
    cases hb
    exact .single ⟨.start hnone hstart, not_wraps_of_few hm hreach hfew⟩
  | @tail d _ hsteps hlast ih =>
    obtain ⟨q₁, ⟨l₁, u₁⟩, s₁⟩ := d
    cases hb
    have hreach₁ : Reachable env (c.set i (q₁, l₁, u₁) s₁) :=
      hreach.run (Threads.run_thread hnone hstart hsteps)
    refine (ih rfl).tail ⟨Threads.step_of_step hlast, ?_⟩
    refine not_wraps_of_few hm hreach₁ fun j hj => ?_
    rw [Threads.set_thread_ne (by omega), hfew j hj]

/-- In a run in which no reference count wraps around, exclusive locks exclude. -/
theorem locks_exclude (env : Env) (s : Store) (hs : s.locks = .initial) (c : Requests)
    (h : ReflTransGen (fun c c' => Threads.Step IsRequest (watched env) c c' ∧ ¬ Wraps c c')
      (.idle s) c) : Exclusive c := by
  have hinv : c.Sound ∧ ∀ key, OneEntry c key ∧ KeyHeld c key := by
    induction h with
    | refl => exact ⟨Requests.sound_idle s, fun key => ⟨oneEntry_idle hs key, keyHeld_idle hs key⟩⟩
    | tail _ hstep ih =>
      obtain ⟨hsound, hall⟩ := ih
      refine ⟨hsound.step hstep.1, fun key => ⟨?_, ?_⟩⟩
      · exact (hall key).1.touch (hsound.touch hstep.1 key) hstep.2
      · exact (hall key).2.step hsound hstep.1
  exact exclusive_of_keys hinv.1 hinv.2

def bobX : Bytes := append (append storage (bytes "bob")) (bytes "x")

lemma comes_to_lock (s : Store) (i : ℕ) : ∃ k l u, Steps (watched .atRoot)
    (ofBob .deleteF 0 (bytes "x"), (((.fresh i [] true, .start), s) : (Local × Usage) × Store))
    (.op (.lock bobX) k, ((l, u), { s with locks := s.locks.acquire bobX })) ∧
      l.entry bobX = s.locks.entryOf bobX := by
  have hfollow : follow (fun o m => oblige .atRoot o (m.1.1, m.2)) (watched .atRoot) 3
      (ofBob .deleteF 0 (bytes "x")) ((.fresh i [] true, .start), s) = some
        (.op (.lock bobX) _, ((_, _), { s with locks := s.locks.acquire bobX })) := rfl
  exact ⟨_, _, _, steps_of_follow hfollow,
    Function.update_self bobX (s.locks.entryOf bobX) (fun _ => 0)⟩

/-- Of two requests that delete a file the first has the lock, and the second waits for it. -/
theorem locks_exclude_delete : ∃ c : Requests,
    ReflTransGen (fun c c' => Threads.Step IsRequest (watched .atRoot) c c' ∧ ¬ Wraps c c')
      (.idle bare) c ∧ (c.usage 0).exclusive ≠ [] ∧
      (∃ k l u, c.thread 1 = some (.op (.lock bobX) k, l, u)) ∧ Exclusive c := by
  have hlocked : (follow (fun o m => oblige .atRoot o (m.1.1, m.2)) (watched .atRoot) 4
      (ofBob .deleteF 0 (bytes "x")) ((.fresh 0 [] true, .start), bare)).any
        (fun c => !c.2.1.2.exclusive.isEmpty) = true := by decide +kernel
  obtain ⟨⟨q, ⟨l, u⟩, s⟩, hfollow, hheld⟩ := (Option.any_eq_true _ _).mp hlocked
  have hrun₀ := run_few (m := 2) (by decide) ⟨bare, rfl, .refl⟩ (fun _ _ => rfl) (by decide) rfl
    (isRequest_ofBob 0 ..) (steps_of_follow hfollow)
  have hreach : Reachable .atRoot ((Threads.idle bare).set 0 (q, l, u) s) :=
    ⟨bare, rfl, ReflTransGen.mono (fun _ _ h => h.1) _ _ hrun₀⟩
  obtain ⟨k, l₁, u₁, hsteps₁, -⟩ := comes_to_lock s 1
  have hrun := hrun₀.trans (run_few (m := 2) (by decide) hreach
    (fun j hj => Threads.set_thread_ne (by omega) ..) (by decide) rfl
      (isRequest_ofBob 1 ..) hsteps₁)
  refine ⟨_, hrun, ?_, ⟨k, l₁, u₁, Threads.set_thread_self ..⟩,
    locks_exclude .atRoot bare rfl _ hrun⟩
  rw [Requests.usage_set, if_neg (by decide), Requests.usage_set, if_pos rfl]
  simpa using hheld

/-- A disk on which bob's `x` is a directory that is not empty. -/
def nested : Store :=
  .fresh (.ofDir [driveRoot 0x43, storage, bytes "bob", bytes "x", bytes "y"])

/-- `n` requests on `bobX` have kept their references. -/
structure Kept (n : ℕ) (m : LockManager) : Prop where
  count : m.refCount bobX = .ofNat n
  entry : m.entryOf bobX = 0
  created : (m.acquire bobX).created bobX = 1
  free : m.mutex bobX 0 = .unlocked

lemma kept_initial : Kept 0 .initial := ⟨rfl, rfl, rfl, rfl⟩

lemma Kept.acquire {n : ℕ} {m : LockManager} (h : Kept n m) : Kept (n + 1) (m.acquire bobX) where
  count := by
    have hcount : (m.acquire bobX).refCount bobX = m.refCount bobX + 1 := by
      simp [LockManager.refCount, LockManager.acquire]
    rw [hcount, h.count, UInt32.ofNat_add]
    rfl
  entry := by
    have hentry : (m.acquire bobX).entryOf bobX = m.entryOf bobX := by
      simp [LockManager.entryOf, LockManager.acquire]
    rw [hentry, h.entry]
  created := by
    have hcreated : ((m.acquire bobX).acquire bobX).created bobX =
        (m.acquire bobX).created bobX := by
      simp [LockManager.acquire]
    rw [hcreated, h.created]
  free := h.free

lemma Kept.lock_unlock {n : ℕ} {m : LockManager} (h : Kept n m) (self : ℕ) :
    Kept n ((m.lock self bobX 0).unlock bobX 0) := by
  refine ⟨h.count, h.entry, h.created, ?_⟩
  rw [LockManager.unlock, LockManager.setMutex_mutex, if_pos ⟨rfl, rfl⟩, LockManager.lock,
    LockManager.setMutex_mutex, if_pos ⟨rfl, rfl⟩, h.free]
  rfl

lemma Kept.last {n : ℕ} {m : LockManager} (h : Kept n m) (hn : UInt32.ofNat n = 1) :
    (m.release bobX).entryOf bobX = 1 := by
  obtain ⟨e, hlocks⟩ : ∃ e, m.locks bobX = some (e, 1) := by
    have hcount := h.count.trans hn
    rw [LockManager.refCount] at hcount
    cases hlocks : m.locks bobX with
    | none =>
      rw [hlocks] at hcount
      cases hcount
    | some x =>
      rw [hlocks] at hcount
      exact ⟨x.1, congrArg some (Prod.ext rfl hcount)⟩
  have hcreated : (m.acquire bobX).created bobX = m.created bobX := by
    simp [LockManager.acquire, hlocks]
  rw [LockManager.release, hlocks, LockManager.entryOf, ← h.created, hcreated]
  simp

lemma remove_nested : nested.disk.remove (resolve Env.atRoot.cwd bobX) = none := by
  decide +kernel

lemma wp_delete_nested {n : ℕ} {s : Store} (h : Kept n s.locks)
    (hdisk : s.disk = nested.disk) (i : ℕ) : wp (next .atRoot) (ofBob .deleteF 0 (bytes "x"))
      (fun _ m => Kept (n + 1) m.2.locks ∧ m.2.disk = nested.disk) (.fresh i [] true, s) := by
  have hdispatch : ofBob .deleteF 0 (bytes "x") = (delete (bytes "bob") (bytes "x") 5).bind
    (fun reply => .pure (reply, bytes "bob")) := rfl
  have hvalid : isValidFilename (bytes "x") = true := by decide
  have hpath : append (append storage (bytes "bob")) (bytes "x") = bobX := rfl
  rw [hdispatch, wp_bind, Server.delete, if_neg (by decide), Prog.bind_eq, wp_bind, deleteFile,
    wp_tryCatch, tryDeleteFile, hvalid]
  simp only [Bool.not_true, Bool.false_eq_true, if_false, Prog.bind_eq, wp_bind, wp_pathAppend,
    afterBind_ok, wp_acquireLockRef, wp_lock, hpath, Function.update_self, h.entry]
  refine ⟨⟨⟨⟨?_, ?_⟩, by rintro ⟨⟩⟩, by rintro ⟨⟩⟩, by rintro ⟨⟩⟩
  · rw [LockManager.isFree, h.acquire.free]
    rfl
  rw [Prog.onThrow, wp_tryCatch, deleteLocked, Prog.bind_eq, wp_bind, wp_fsRemove, hdisk,
    remove_nested]
  refine ⟨by rintro _ _ ⟨⟩, fun _ => ?_⟩
  simp only [afterBind_error, afterTry_error, wp_bind, wp_unlock, afterBind_ok, wp_throw,
    Function.update_self, Prog.pure_eq, wp_pure]
  exact ⟨h.acquire.lock_unlock _, rfl⟩

lemma wp_upload_nested {s : Store} (h : Kept (2 ^ 32) s.locks)
    (hdisk : s.disk = nested.disk) (i : ℕ) : wp (next .atRoot) (ofBob .upload 0 (bytes "x"))
      (fun _ m => m.2.locks.entryOf bobX = 1) (.fresh i [] true, s) := by
  have hdispatch : ofBob .upload 0 (bytes "x") = (upload (bytes "bob") (bytes "x") 2 0).bind
    (fun reply => .pure (reply, bytes "bob")) := rfl
  have hvalid : isValidFilename (bytes "x") = true := by decide
  have hpath : append (append storage (bytes "bob")) (bytes "x") = bobX := rfl
  have hdir : nested.disk.existsAt
      (resolve Env.atRoot.cwd (append storage (bytes "bob"))) = true := by
    decide +kernel
  have hopen : nested.disk.openOut (resolve Env.atRoot.cwd bobX) = none := by
    decide +kernel
  have hfaults : Env.atRoot.faults = .none := rfl
  rw [hdispatch, wp_bind, Server.upload, if_neg (by decide), Prog.bind_eq, wp_bind, saveFile,
    wp_tryCatch, trySaveFile]
  simp only [saveInto, ensureDir, hvalid, hdisk, hdir, hpath, hfaults, Faults.none, Bool.not_true,
    Bool.false_eq_true, if_false, false_imp_iff, and_true, Prog.bind_eq, Prog.pure_eq, wp_bind,
    wp_pure, wp_pathAppend, wp_fsExists, afterBind_ok, wp_acquireLockRef, wp_lock,
    Function.update_self, h.entry]
  refine ⟨?_, ?_⟩
  · rw [LockManager.isFree, h.acquire.free]
    rfl
  have hnothing : discardLoop (UInt64.toNat 0) (UInt64.toNat 0) = .pure true := rfl
  rw [Prog.onThrow, wp_tryCatch, saveLocked]
  simp only [discardData, hopen, hfaults, Faults.none, Bool.not_false, Bool.false_eq_true, if_true,
    false_imp_iff, false_or, and_true, Prog.bind_eq, Prog.pure_eq, wp_bind,
      afterBind_ok, wp_openOut,
    wp_log, wp_alloc]
  refine ⟨nofun, fun _ => ?_⟩
  simp only [hnothing, wp_pure, wp_bind, wp_unlock, wp_releaseLockRef, afterBind_ok, afterTry_ok,
    Bool.false_eq_true, if_false, Function.update_self]
  exact (h.acquire.lock_unlock _).last (by decide)

/-- The first `n` requests delete the directory one after the other. -/
lemma kept_reachable (n : ℕ) : ∃ c : Requests,
    Threads.Run IsRequest (watched .atRoot) (.idle nested) c ∧ Kept n c.shared.locks ∧
      c.shared.disk = nested.disk ∧ ∀ i, n ≤ i → c.thread i = none := by
  induction n with
  | zero => exact ⟨.idle nested, .refl, kept_initial, rfl, fun _ _ => rfl⟩
  | succ n ih =>
    obtain ⟨c, hrun, hkept, hdisk, hfresh⟩ := ih
    obtain ⟨r, m, hsteps, hkept', hdisk'⟩ := wp_completes (wp_delete_nested hkept hdisk n)
    obtain ⟨⟨⟨l, u⟩, s⟩, hwatched, rfl⟩ :=
      (Monitor.simulates_watch Usage.after (next .atRoot)).steps
        (t := ((.fresh n [] true, .start), c.shared)) rfl hsteps
    refine ⟨c.set n (Prog.ofExcept r, l, u) s, hrun.trans ?_, hkept', hdisk', fun i hi => ?_⟩
    · exact Threads.run_thread (hfresh n le_rfl) (isRequest_ofBob ..) hwatched
    · rw [Threads.set_thread_ne (by omega)]
      exact hfresh i (by omega)

lemma acquires (s : Store) (i : ℕ) : ∃ q l u, Steps (watched .atRoot)
    (ofBob .deleteF 0 (bytes "x"), (((.fresh i [] true, .start), s) : (Local × Usage) × Store))
    (q, ((l, u), { s with locks := s.locks.acquire bobX })) ∧ bobX ∈ u.refs ∧
      l.entry bobX = s.locks.entryOf bobX := by
  have hfollow : follow (fun o m => oblige .atRoot o (m.1.1, m.2)) (watched .atRoot) 3
      (ofBob .deleteF 0 (bytes "x")) ((.fresh i [] true, .start), s) = some
        (_, ((_, _), { s with locks := s.locks.acquire bobX })) := rfl
  refine ⟨_, _, _, steps_of_follow hfollow, ?_, ?_⟩
  · exact List.mem_cons_self
  · exact Function.update_self bobX (s.locks.entryOf bobX) (fun _ => 0)

/-- After enough requests that keep their references, a request finds another entry than the one
that is still referred to. -/
theorem locks_do_not_exclude : ¬ ∀ (env : Env) (s : Store), s.locks = .initial → ∀ c : Requests,
    Threads.Run IsRequest (watched env) (.idle s) c → Exclusive c := by
  intro hall
  obtain ⟨N, hN⟩ : ∃ N, N + 1 = 2 ^ 32 := ⟨2 ^ 32 - 1, by norm_num⟩
  obtain ⟨c, hrun, hkept, hdisk, hfresh⟩ := kept_reachable N
  obtain ⟨q₁, l₁, u₁, hsteps₁, hrefs₁, hentry₁⟩ := acquires c.shared N
  have hrun₁ := hrun.trans (Threads.run_thread (hfresh N le_rfl) (isRequest_ofBob ..) hsteps₁)
  have hkept₁ : Kept (2 ^ 32) (c.shared.locks.acquire bobX) := hN ▸ hkept.acquire
  obtain ⟨r₂, m₂, hsteps₂, hlast⟩ := wp_completes
    (wp_upload_nested (s := { c.shared with locks := c.shared.locks.acquire bobX }) hkept₁
      hdisk (N + 1))
  obtain ⟨⟨⟨l₂, u₂⟩, s₂⟩, hwatched₂, rfl⟩ :=
    (Monitor.simulates_watch Usage.after (next .atRoot)).steps
      (t := ((.fresh (N + 1) [] true, .start), _)) rfl hsteps₂
  have hrun₂ := hrun₁.trans (Threads.run_thread (i := N + 1)
    ((Threads.set_thread_ne (by omega) ..).trans (hfresh _ (by omega)))
      (isRequest_ofBob ..) hwatched₂)
  obtain ⟨q₃, l₃, u₃, hsteps₃, hrefs₃, hentry₃⟩ := acquires s₂ (N + 2)
  have hrun₃ := hrun₂.trans (Threads.run_thread (i := N + 2) (by
    rw [Threads.set_thread_ne (by omega), Threads.set_thread_ne (by omega)]
    exact hfresh _ (by omega)) (isRequest_ofBob ..) hsteps₃)
  have hsame := (hall _ nested rfl _ hrun₃).entry bobX N (N + 2)
  simp only [Requests.usage_set, Requests.entry_set] at hsame
  simp [hrefs₁, hrefs₃, hentry₁, hentry₃, hkept.entry, hlast] at hsame

end Mtfss.LockExclusion
