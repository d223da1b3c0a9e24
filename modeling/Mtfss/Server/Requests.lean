import Mtfss.Server.LockUse

/-! Any number of requests handled at once, and what one call of one of them does to the references
to a key. -/

namespace Mtfss

open Effects

namespace Usage

/-- Locks are held on keys that are referred to, and no list has an entry twice. -/
structure WellFormed (u : Usage) : Prop where
  refs_nodup : u.refs.Nodup
  shared_nodup : u.shared.Nodup
  exclusive_nodup : u.exclusive.Nodup
  shared_refs : ∀ key ∈ u.shared, key ∈ u.refs
  exclusive_refs : ∀ key ∈ u.exclusive, key ∈ u.refs
  apart : ∀ key ∈ u.shared, key ∉ u.exclusive

lemma wellFormed_start : start.WellFormed := by
  constructor <;> simp [start]

lemma WellFormed.after {u : Usage} (h : u.WellFormed) {o : Call} (ha : Allows o u) (r : Answer o) :
    (after o u r).WellFormed := by
  have hthrown : u.thrown.WellFormed := ⟨h.1, h.2, h.3, h.4, h.5, h.6⟩
  have hlose : u.lose.WellFormed := ⟨h.1, h.2, h.3, h.4, h.5, h.6⟩
  have hnoting : ∀ {α : Type} (x : Except Exn α), (u.noting x).WellFormed := by
    rintro α (e | a)
    · exact hthrown
    · exact h
  cases o with
  | recv _ =>
    simp only [Usage.after]
    split
    · exact hlose
    · exact h
  | send _ _ =>
    simp only [Usage.after]
    split
    · exact hlose
    · exact h
  | openOut _ => exact ⟨h.1, h.2, h.3, h.4, h.5, h.6⟩
  | openIn _ => exact ⟨h.1, h.2, h.3, h.4, h.5, h.6⟩
  | acquireLockRef key =>
    have ha : key ∉ u.refs := ha
    rcases r with e | _
    · exact hthrown
    · exact ⟨List.nodup_cons.mpr ⟨ha, h.1⟩, h.2, h.3, fun k hk => List.mem_cons_of_mem _ (h.4 k hk),
        fun k hk => List.mem_cons_of_mem _ (h.5 k hk), h.6⟩
  | releaseLockRef key =>
    obtain ⟨-, hs, he⟩ := ha
    refine ⟨h.1.erase key, h.2, h.3, fun k hk => ?_, fun k hk => ?_, h.6⟩
    · have hne : k ≠ key := fun hkey => hs (hkey ▸ hk)
      exact (List.mem_erase_of_ne hne).mpr (h.4 k hk)
    · have hne : k ≠ key := fun hkey => he (hkey ▸ hk)
      exact (List.mem_erase_of_ne hne).mpr (h.5 k hk)
  | lock key =>
    obtain ⟨hr, hs, he⟩ := ha
    refine ⟨h.1, h.2, List.nodup_cons.mpr ⟨he, h.3⟩, h.4, ?_, fun k hk => ?_⟩
    · simpa [Usage.after] using ⟨hr, h.5⟩
    · have := h.6 k hk
      have hne : k ≠ key := fun hkey => hs (hkey ▸ hk)
      simp [Usage.after, this, hne]
  | unlock key =>
    exact ⟨h.1, h.2, h.3.erase key, h.4, fun k hk => h.5 k (List.mem_of_mem_erase hk),
      fun k hk hke => h.6 k hk (List.mem_of_mem_erase hke)⟩
  | lockShared key =>
    obtain ⟨hr, hs, he⟩ := ha
    refine ⟨h.1, List.nodup_cons.mpr ⟨hs, h.2⟩, h.3, ?_, h.5, ?_⟩
    · simpa [Usage.after] using ⟨hr, h.4⟩
    · simpa [Usage.after] using ⟨he, h.6⟩
  | unlockShared key =>
    exact ⟨h.1, h.2.erase key, h.3, fun k hk => h.4 k (List.mem_of_mem_erase hk), h.5,
      fun k hk => h.6 k (List.mem_of_mem_erase hk)⟩
  | lockBoth key₁ key₂ =>
    obtain ⟨hne, ⟨hr₁, hs₁, he₁⟩, ⟨hr₂, hs₂, he₂⟩⟩ := ha
    refine ⟨h.1, h.2, ?_, h.4, ?_, fun k hk => ?_⟩
    · exact List.nodup_cons.mpr ⟨by simp [hne, he₁], List.nodup_cons.mpr ⟨he₂, h.3⟩⟩
    · simpa [Usage.after] using ⟨hr₁, hr₂, h.5⟩
    · have hne₁ : k ≠ key₁ := fun hkey => hs₁ (hkey ▸ hk)
      have hne₂ : k ≠ key₂ := fun hkey => hs₂ (hkey ▸ hk)
      simp [Usage.after, hne₁, hne₂, h.6 k hk]
  | pathAppend _ _ => exact hnoting r
  | fsExists _ => exact hnoting r
  | isRegularFile _ => exact hnoting r
  | fsRemove _ => exact hnoting r
  | fileSize _ => exact hnoting r
  | createDirectories _ => exact hnoting r
  | fsRename _ _ => exact hnoting r
  | addFile _ _ _ _ => exact hnoting r
  | removeFile _ _ => exact hnoting r
  | alloc _ => exact hnoting r
  | log => exact hnoting r
  | _ => exact h

lemma after_of_not_lock {u : Usage} {o : Call} (ho : o.isLock = false) (r : Answer o) :
    (after o u r).refs = u.refs ∧ (after o u r).shared = u.shared ∧
      (after o u r).exclusive = u.exclusive := by
  have hnoting : ∀ {α : Type} (x : Except Exn α), (u.noting x).refs = u.refs ∧
      (u.noting x).shared = u.shared ∧ (u.noting x).exclusive = u.exclusive := by
    rintro α (e | a) <;> exact ⟨rfl, rfl, rfl⟩
  cases o <;> simp only [Call.isLock, Bool.true_eq_false] at ho <;>
    first
      | exact ⟨rfl, rfl, rfl⟩
      | exact hnoting r
      | (simp only [Usage.after]; split <;> exact ⟨rfl, rfl, rfl⟩)

end Usage

namespace Server

/-- Requests by number. Each has its connection and is watched for its use of locks. -/
abbrev Requests := Threads ℕ Call Answer Exn (Reply × Bytes) (Local × Usage) Store

def IsRequest (i : ℕ) (t : Code (Reply × Bytes) × (Local × Usage)) : Prop :=
  ∃ host user req payload, t.1 = dispatch host user req payload ∧ t.2.1.self = i ∧ t.2.2 = .start

abbrev watched (env : Env) : Next Call Answer ((Local × Usage) × Store) :=
  Usage.after.watch (next env)

namespace Requests

def usage (c : Requests) (i : ℕ) : Usage :=
  match c.thread i with
  | none => .start
  | some (_, _, u) => u

/-- The number of the entry that the request has fetched for a key. -/
def entry (c : Requests) (i : ℕ) (key : Bytes) : ℕ :=
  match c.thread i with
  | none => 0
  | some (_, l, _) => l.entry key

variable {env : Env} {c c' : Requests} {i j : ℕ} {key : Bytes}

lemma usage_set (p : Code (Reply × Bytes)) (l : Local) (u : Usage) (s : Store) :
    usage (c.set j (p, l, u) s) i = if i = j then u else c.usage i := by
  by_cases h : i = j
  · subst h
    simp [usage]
  · simp [usage, Threads.set_thread_ne h, h]

lemma entry_set (p : Code (Reply × Bytes)) (l : Local) (u : Usage) (s : Store) :
    entry (c.set j (p, l, u) s) i = if i = j then l.entry else c.entry i := by
  funext key
  by_cases h : i = j
  · subst h
    simp [entry]
  · simp [entry, Threads.set_thread_ne h, h]

structure Sound (c : Requests) : Prop where
  finishes : ∀ i p l u, c.thread i = some (p, l, u) → Usage.Finishes p u
  wellFormed : ∀ i, (c.usage i).WellFormed
  self : ∀ i p l u, c.thread i = some (p, l, u) → l.self = i

lemma sound_idle (s : Store) : Sound (.idle s) where
  finishes := nofun
  wellFormed _ := Usage.wellFormed_start
  self := nofun

lemma Sound.step (h : c.Sound) (hs : Threads.Step IsRequest (watched env) c c') : c'.Sound := by
  cases hs with
  | @start i t hi ht =>
    obtain ⟨p, l, u⟩ := t
    obtain ⟨host, user, req, payload, rfl, rfl, rfl⟩ := ht
    have hthread : ∀ j p' l' u', (c.set l.self (dispatch host user req payload, l, .start)
        c.shared).thread j = some (p', l', u') → (j = l.self ∧ p' = dispatch host user req payload ∧
          l' = l ∧ u' = .start) ∨ c.thread j = some (p', l', u') := by
      intro j p' l' u' hj
      by_cases hij : j = l.self
      · subst hij
        cases (Threads.set_thread_self ..).symm.trans hj
        exact Or.inl ⟨rfl, rfl, rfl, rfl⟩
      · exact Or.inr ((Threads.set_thread_ne hij ..).symm.trans hj)
    refine ⟨fun j p' l' u' hj => ?_, fun j => ?_, fun j p' l' u' hj => ?_⟩
    · rcases hthread j p' l' u' hj with ⟨-, rfl, rfl, rfl⟩ | hj
      · exact Usage.finishes_dispatch _ _ _ _
      · exact h.finishes j p' l' u' hj
    · rw [usage_set]
      split
      · exact Usage.wellFormed_start
      · exact h.wellFormed j
    · rcases hthread j p' l' u' hj with ⟨rfl, -, rfl, -⟩ | hj
      · rfl
      · exact h.self j p' l' u' hj
  | @call i o k m m' s' r hi hr =>
    obtain ⟨l, u⟩ := m
    obtain ⟨l', u'⟩ := m'
    obtain ⟨hnext, rfl⟩ := Monitor.watch_eq_some.mp hr
    obtain ⟨hallow, hrest⟩ := h.finishes i _ l u hi
    have hu : c.usage i = u := by simp [usage, hi]
    refine ⟨fun j p'' l'' u'' hj => ?_, fun j => ?_, fun j p'' l'' u'' hj => ?_⟩
    · by_cases hij : j = i
      · subst hij
        cases (Threads.set_thread_self ..).symm.trans hj
        exact hrest r _ rfl
      · exact h.finishes j p'' l'' u'' ((Threads.set_thread_ne hij ..).symm.trans hj)
    · rw [usage_set]
      split
      · exact (hu ▸ h.wellFormed i).after hallow r
      · exact h.wellFormed j
    · by_cases hij : j = i
      · subst hij
        cases (Threads.set_thread_self ..).symm.trans hj
        exact (next_self hnext).trans (h.self j _ l u hi)
      · exact h.self j p'' l'' u'' ((Threads.set_thread_ne hij ..).symm.trans hj)

/-- What a step may do to the references to a key. -/
inductive Touch (c c' : Requests) (key : Bytes) : Prop
  | kept (locks : c'.shared.locks.locks key = c.shared.locks.locks key)
      (refs : ∀ i, key ∈ (c'.usage i).refs ↔ key ∈ (c.usage i).refs)
      (entry : ∀ i, key ∈ (c.usage i).refs → c'.entry i key = c.entry i key)
  | acquired (j : ℕ) (fresh : key ∉ (c.usage j).refs)
      (locks : c'.shared.locks.locks key =
        some (c.shared.locks.entryOf key, c.shared.locks.refCount key + 1))
      (refs : ∀ i, key ∈ (c'.usage i).refs ↔ i = j ∨ key ∈ (c.usage i).refs)
      (entry : c'.entry j key = c.shared.locks.entryOf key)
      (others : ∀ i, i ≠ j → c'.entry i key = c.entry i key)
  | released (j : ℕ) (held : key ∈ (c.usage j).refs)
      (locks : c'.shared.locks.locks key = (c.shared.locks.release key).locks key)
      (refs : ∀ i, key ∈ (c'.usage i).refs ↔ i ≠ j ∧ key ∈ (c.usage i).refs)
      (entry : ∀ i, c'.entry i key = c.entry i key)

/-- A call of request `j` that changes neither its references nor the entries. -/
lemma touch_kept {o : Call} {l l' : Local} {u : Usage} {s' : Store} {r : Answer o}
    {k p : Code (Reply × Bytes)} (hj : c.thread j = some (k, l, u))
    (hlocks : s'.locks.locks key = c.shared.locks.locks key)
    (hrefs : key ∈ (Usage.after o u r).refs ↔ key ∈ u.refs)
    (hentry : key ∈ u.refs → l'.entry key = l.entry key) :
    Touch c (c.set j (p, l', Usage.after o u r) s') key := by
  refine .kept hlocks (fun i => ?_) (fun i hi => ?_)
  · rw [usage_set]
    split
    · rename_i h
      subst h
      simpa [usage, hj] using hrefs
    · rfl
  · rw [entry_set]
    split
    · rename_i h
      subst h
      have hu : c.usage i = u := by simp [usage, hj]
      simpa [entry, hj] using hentry (hu ▸ hi)
    · rfl

lemma locks_acquire (m : LockManager) (k key : Bytes) : (m.acquire k).locks key =
    if key = k then some (m.entryOf k, m.refCount k + 1) else m.locks key := by
  simp [LockManager.acquire, Function.update_apply]

lemma locks_release_ne (m : LockManager) {k key : Bytes} (h : key ≠ k) :
    (m.release k).locks key = m.locks key := by
  rw [LockManager.release]
  split
  · rfl
  · simp [h]

lemma Sound.touch (h : c.Sound) (hs : Threads.Step IsRequest (watched env) c c') (key : Bytes) :
    Touch c c' key := by
  cases hs with
  | @start j t hj ht =>
    obtain ⟨p, l, u⟩ := t
    obtain ⟨-, -, -, -, -, -, rfl⟩ := ht
    have hu : c.usage j = .start := by simp [usage, hj]
    refine .kept rfl (fun i => ?_) (fun i hi => ?_)
    · rw [usage_set]
      split
      · rename_i h
        rw [h, hu]
      · rfl
    · rw [entry_set]
      split
      · rename_i h
        subst h
        simp [hu, Usage.start] at hi
      · rfl
  | @call j o k m m' s' r hj hr =>
    obtain ⟨l, u⟩ := m
    obtain ⟨l', u'⟩ := m'
    obtain ⟨hnext, rfl⟩ := Monitor.watch_eq_some.mp hr
    obtain ⟨hallow, -⟩ := h.finishes j _ l u hj
    have hu : c.usage j = u := by simp [usage, hj]
    have hnodup : u.refs.Nodup := hu ▸ (h.wellFormed j).refs_nodup
    by_cases ho : o.isLock = false
    · obtain ⟨hlocks, hentry⟩ := next_locks hnext ho
      exact touch_kept hj (by rw [hlocks]) (by rw [(Usage.after_of_not_lock ho r).1])
        (fun _ => by rw [hentry])
    cases o with
    | acquireLockRef k₀ =>
      rcases r with e | _
      · simp only [next, orThrow] at hnext
        split at hnext
        · cases hnext
          exact touch_kept hj rfl Iff.rfl (fun _ => rfl)
        · cases hnext
      · cases hnext
        by_cases hkey : key = k₀
        · subst hkey
          refine .acquired j (hu ▸ hallow) ?_ (fun i => ?_) ?_ (fun i hi => ?_)
          · rw [Threads.set_shared, locks_acquire, if_pos rfl]
          · rw [usage_set]
            split
            · rename_i h
              simp [Usage.after, h]
            · rename_i h
              simp [h]
          · simp [entry_set]
          · rw [entry_set, if_neg hi]
        · refine touch_kept (o := .acquireLockRef k₀) (r := .ok ()) hj ?_ ?_ (fun _ => ?_)
          · rw [locks_acquire, if_neg hkey]
          · simp [Usage.after, hkey]
          · exact Function.update_of_ne hkey _ _
    | releaseLockRef k₀ =>
      cases hnext
      by_cases hkey : key = k₀
      · subst hkey
        refine .released j (hu ▸ hallow.1) rfl (fun i => ?_) (fun i => ?_)
        · rw [usage_set]
          split
          · rename_i h
            simp [Usage.after, h, hnodup.mem_erase_iff]
          · rename_i h
            simp [h]
        · rw [entry_set]
          split
          · rename_i h
            subst h
            simp [entry, hj]
          · rfl
      · refine touch_kept (o := .releaseLockRef k₀) (r := ()) hj ?_ ?_ (fun _ => rfl)
        · exact locks_release_ne _ hkey
        · exact List.mem_erase_of_ne hkey
    | lock k₀ =>
      simp only [next, Option.ite_none_right_eq_some, Option.some.injEq, Prod.mk.injEq] at hnext
      obtain ⟨-, rfl, rfl⟩ := hnext
      exact touch_kept (o := .lock k₀) (r := ()) hj rfl Iff.rfl (fun _ => rfl)
    | unlock k₀ =>
      cases hnext
      exact touch_kept (o := .unlock k₀) (r := ()) hj rfl Iff.rfl (fun _ => rfl)
    | lockShared k₀ =>
      simp only [next, Option.ite_none_right_eq_some, Option.some.injEq, Prod.mk.injEq] at hnext
      obtain ⟨-, rfl, rfl⟩ := hnext
      exact touch_kept (o := .lockShared k₀) (r := ()) hj rfl Iff.rfl (fun _ => rfl)
    | unlockShared k₀ =>
      cases hnext
      exact touch_kept (o := .unlockShared k₀) (r := ()) hj rfl Iff.rfl (fun _ => rfl)
    | lockBoth k₁ k₂ =>
      simp only [next, Option.ite_none_right_eq_some, Option.some.injEq, Prod.mk.injEq] at hnext
      obtain ⟨-, rfl, rfl⟩ := hnext
      exact touch_kept (o := .lockBoth k₁ k₂) (r := ()) hj rfl Iff.rfl (fun _ => rfl)
    | _ => exact (ho rfl).elim

end Requests

end Server

end Mtfss
