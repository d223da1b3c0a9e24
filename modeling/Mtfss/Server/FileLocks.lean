import Mtfss.Common.Bytes
import Mathlib.Logic.Function.Basic

/-! `FileLockManager`: one shared mutex per path key, created on demand and counted. -/

namespace Mtfss

/-- `std::shared_mutex` with the threads that hold it. -/
structure SharedMutex where
  writer : Option ℕ
  readers : List ℕ
  deriving DecidableEq

namespace SharedMutex

def unlocked : SharedMutex := ⟨none, []⟩

def isFree (m : SharedMutex) : Bool := m.writer.isNone && m.readers.isEmpty

def canShare (m : SharedMutex) : Bool := m.writer.isNone

end SharedMutex

/-- `locks_` maps a path key to its entry and the entry's `ref_count`. The entries made for a key
are numbered, since threads keep an entry they hold after it has left the map. -/
structure LockManager where
  locks : Bytes → Option (ℕ × UInt32)
  created : Bytes → ℕ
  mutex : Bytes → ℕ → SharedMutex

namespace LockManager

def initial : LockManager := ⟨fun _ => none, fun _ => 0, fun _ _ => .unlocked⟩

/-- The entry that `acquire_lock_ref` hands out. -/
def entryOf (m : LockManager) (key : Bytes) : ℕ := ((m.locks key).map Prod.fst).getD (m.created key)

def refCount (m : LockManager) (key : Bytes) : UInt32 := ((m.locks key).map Prod.snd).getD 0

/-- `FileLockManager::acquire_lock_ref` -/
def acquire (m : LockManager) (key : Bytes) : LockManager :=
  { m with
    locks := Function.update m.locks key (some (m.entryOf key, m.refCount key + 1))
    created := Function.update m.created key
      (if (m.locks key).isSome then m.created key else m.created key + 1) }

/-- `FileLockManager::release_lock_ref` -/
def release (m : LockManager) (key : Bytes) : LockManager :=
  match m.locks key with
  | none => m
  | some (e, n) =>
    { m with locks := Function.update m.locks key (if n - 1 = 0 then none else some (e, n - 1)) }

def setMutex (m : LockManager) (key : Bytes) (e : ℕ) (x : SharedMutex) : LockManager :=
  { m with mutex := Function.update m.mutex key (Function.update (m.mutex key) e x) }

/-- The mutex of entry `e` is not held exclusively by anyone. -/
def isFree (m : LockManager) (key : Bytes) (e : ℕ) : Bool := (m.mutex key e).isFree

def canShare (m : LockManager) (key : Bytes) (e : ℕ) : Bool := (m.mutex key e).canShare

def lock (m : LockManager) (self : ℕ) (key : Bytes) (e : ℕ) : LockManager :=
  m.setMutex key e ⟨some self, (m.mutex key e).readers⟩

def unlock (m : LockManager) (key : Bytes) (e : ℕ) : LockManager :=
  m.setMutex key e ⟨none, (m.mutex key e).readers⟩

def lockShared (m : LockManager) (self : ℕ) (key : Bytes) (e : ℕ) : LockManager :=
  m.setMutex key e ⟨(m.mutex key e).writer, self :: (m.mutex key e).readers⟩

def unlockShared (m : LockManager) (self : ℕ) (key : Bytes) (e : ℕ) : LockManager :=
  m.setMutex key e ⟨(m.mutex key e).writer, (m.mutex key e).readers.erase self⟩

lemma setMutex_mutex (m : LockManager) (key : Bytes) (e : ℕ) (x : SharedMutex) (k : Bytes)
    (i : ℕ) : (m.setMutex key e x).mutex k i = if k = key ∧ i = e then x else m.mutex k i := by
  by_cases hk : k = key
  · subst hk
    by_cases hi : i = e
    · subst hi
      simp [setMutex]
    · simp [setMutex, hi]
  · simp [setMutex, hk]

@[simp] lemma acquire_mutex (m : LockManager) (key : Bytes) : (m.acquire key).mutex = m.mutex := rfl

@[simp] lemma release_mutex (m : LockManager) (key : Bytes) : (m.release key).mutex = m.mutex := by
  unfold release
  split <;> rfl

end LockManager

end Mtfss
