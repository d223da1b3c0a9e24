import Mtfss.Server.Requests
import Mtfss.System.Oblige

/-! References to locks are given back, except on the ways out that keep them. -/

namespace Mtfss.LockBalance

open Effects Paths Server Relation

variable {env : Env} {c c' : Requests}

/-- Every request that has ended has given back each reference that it was given, and none is ever
given back without one; when no request is at work the map is empty. -/
structure Balanced (c : Requests) : Prop where
  matched : ∀ i r l u, c.thread i = some (Prog.ofExcept r, l, u) → u.refs = []
  once : ∀ i key k l u, c.thread i = some (.op (.releaseLockRef key) k, l, u) → u.refs.count key = 1
  empty : c.Quiescent → ∀ key, c.shared.locks.locks key = none

/-- The reference count of a key is that of some of the requests that have a reference to it, and an
entry in the map has at least one. -/
def Counted (c : Requests) (key : Bytes) : Prop :=
  ∃ L : List ℕ, L.Nodup ∧ (∀ i, i ∈ L ↔ key ∈ (c.usage i).refs) ∧
    ∀ e n, c.shared.locks.locks key = some (e, n) →
      ∃ d, 1 ≤ d ∧ d ≤ L.length ∧ n = UInt32.ofNat d

lemma counted_idle {s : Store} (hs : s.locks = .initial) (key : Bytes) :
    Counted (.idle s) key := by
  refine ⟨[], List.nodup_nil, fun i => by simp [Requests.usage, Threads.idle, Usage.start], ?_⟩
  intro e n h
  simp [Threads.idle, hs, LockManager.initial] at h

lemma Counted.touch {key : Bytes} (h : Counted c key) (ht : Requests.Touch c c' key) :
    Counted c' key := by
  obtain ⟨L, hnodup, hL, hcount⟩ := h
  cases ht with
  | kept hlocks hrefs _ =>
    exact ⟨L, hnodup, fun i => (hL i).trans (hrefs i).symm, fun e n he => hcount e n (hlocks ▸ he)⟩
  | acquired j hfresh hlocks hrefs _ _ =>
    refine ⟨j :: L, List.nodup_cons.mpr ⟨mt (hL j).mp hfresh, hnodup⟩, fun i => ?_, ?_⟩
    · rw [List.mem_cons, hL, hrefs]
    · intro e n he
      rw [hlocks] at he
      cases he
      cases hold : c.shared.locks.locks key with
      | none => exact ⟨1, le_rfl, by simp, by simp [LockManager.refCount, hold]⟩
      | some x =>
        obtain ⟨e, n⟩ := x
        obtain ⟨d, hd, hle, rfl⟩ := hcount e n hold
        refine ⟨d + 1, by omega, by simpa using hle, ?_⟩
        simp [LockManager.refCount, hold]
  | released j hheld hlocks hrefs _ =>
    have hj : j ∈ L := (hL j).mpr hheld
    refine ⟨L.erase j, hnodup.erase j, fun i => ?_, ?_⟩
    · rw [hnodup.mem_erase_iff, hL, hrefs]
    · intro e n he
      rw [hlocks, LockManager.release] at he
      rw [List.length_erase_of_mem hj]
      cases hold : c.shared.locks.locks key with
      | none => simp [hold] at he
      | some x =>
        obtain ⟨e₀, n₀⟩ := x
        obtain ⟨d, hd, hle, rfl⟩ := hcount e₀ n₀ hold
        simp only [hold, Function.update_self, Option.ite_none_left_eq_some, Option.some.injEq,
          Prod.mk.injEq] at he
        obtain ⟨hne, -, rfl⟩ := he
        have hlast : UInt32.ofNat d - 1 = UInt32.ofNat (d - 1) := by
          obtain ⟨d, rfl⟩ : ∃ d', d = d' + 1 := ⟨d - 1, by omega⟩
          rw [UInt32.ofNat_add, Nat.add_sub_cancel]
          exact UInt32.add_sub_cancel _ _
        refine ⟨d - 1, ?_, by omega, hlast⟩
        by_contra hzero
        obtain rfl : d = 1 := by omega
        exact hne (by simp)

/-- Requests handled from an empty lock manager on. -/
def Reachable (env : Env) (c : Requests) : Prop :=
  ∃ s : Store, s.locks = .initial ∧ Threads.Run IsRequest (watched env) (.idle s) c

lemma Reachable.run (h : Reachable env c) (hrun : Threads.Run IsRequest (watched env) c c') :
    Reachable env c' := by
  obtain ⟨s, hs, hcalls⟩ := h
  exact ⟨s, hs, hcalls.trans hrun⟩

lemma reachable_counted (h : Reachable env c) : c.Sound ∧ ∀ key, Counted c key := by
  obtain ⟨s, hs, hrun⟩ := h
  induction hrun with
  | refl => exact ⟨Requests.sound_idle s, counted_idle hs⟩
  | tail _ hstep ih =>
    obtain ⟨hsound, hcounted⟩ := ih
    exact ⟨hsound.step hstep, fun key => (hcounted key).touch (hsound.touch hstep key)⟩

lemma refs_of_finished (h : c.Sound) {i : ℕ} {r : Except Exn (Reply × Bytes)}
    {l : Local} {u : Usage}
    (hi : c.thread i = some (Prog.ofExcept r, l, u)) : u.refs = [] ↔ u.careless = false :=
  ((safe_ofExcept r).mp (h.finishes i _ l u hi)).refs

lemma empty_of_quiescent (hsound : c.Sound) (hcounted : ∀ key, Counted c key)
    (hcareful : ∀ i, (c.usage i).careless = false) (hquiet : c.Quiescent) (key : Bytes) :
    c.shared.locks.locks key = none := by
  obtain ⟨L, -, hL, hcount⟩ := hcounted key
  have hnone : L = [] := by
    rw [List.eq_nil_iff_forall_not_mem]
    intro i hi
    have hkey := (hL i).mp hi
    have hcare := hcareful i
    cases hthread : c.thread i with
    | none => simp [Requests.usage, hthread, Usage.start] at hkey
    | some t =>
      obtain ⟨p, l, u⟩ := t
      obtain ⟨r, rfl⟩ := hquiet i p (l, u) hthread
      have hu : c.usage i = u := by simp [Requests.usage, hthread]
      rw [hu] at hkey hcare
      rw [(refs_of_finished hsound hthread).mpr hcare] at hkey
      cases hkey
  cases hentry : c.shared.locks.locks key with
  | none => rfl
  | some x =>
    obtain ⟨d, hd, hle, -⟩ := hcount x.1 x.2 hentry
    rw [hnone, List.length_nil] at hle
    omega

/-- A request gives back all its references exactly if it is not careless, and in a run without
careless requests nothing is left in the map. -/
theorem references_balanced (env : Env) (c : Requests) (h : Reachable env c) :
    (∀ i r l u, c.thread i = some (Prog.ofExcept r, l, u) → (u.refs = [] ↔ u.careless = false)) ∧
    ((∀ i, (c.usage i).careless = false) → Balanced c) := by
  obtain ⟨hsound, hcounted⟩ := reachable_counted h
  refine ⟨fun i r l u hi => refs_of_finished hsound hi, fun hcareful => ?_⟩
  refine ⟨fun i r l u hi => ?_, fun i key k l u hi => ?_, ?_⟩
  · have hcare : u.careless = false := by simpa [Requests.usage, hi] using hcareful i
    exact (refs_of_finished hsound hi).mpr hcare
  · have hu : c.usage i = u := by simp [Requests.usage, hi]
    have hready : u.Ready key := (hsound.finishes i _ l u hi).1
    exact List.count_eq_one_of_mem (hu ▸ (hsound.wellFormed i).refs_nodup) hready.1
  · exact empty_of_quiescent hsound hcounted hcareful

def ofBob (cmd : CommandType) (size : ℕ) (filename : Bytes) : Code (Reply × Bytes) :=
  dispatch .little (bytes "bob") ⟨makeRequest cmd size filename.length 0, [], filename⟩ []

lemma isRequest_ofBob (i : ℕ) (cmd : CommandType) (size : ℕ) (filename : Bytes) :
    IsRequest i (ofBob cmd size filename, .fresh i [] true, .start) :=
  ⟨.little, bytes "bob", ⟨makeRequest cmd size filename.length 0, [], filename⟩, [], rfl, rfl, rfl⟩

/-- A disk with nothing but the root of drive C. -/
def bare : Store := .fresh (.ofDir [driveRoot 0x43])

def alone (p : Code (Reply × Bytes)) (s : Store) :
    Option (Prog.Running Call Answer Exn (Reply × Bytes) ((Local × Usage) × Store)) :=
  follow (fun o m => oblige .atRoot o (m.1.1, m.2)) (watched .atRoot) 100 p
    ((.fresh 0 [] true, .start), s)

lemma reachable_alone {cmd : CommandType} {size : ℕ} {filename : Bytes} {s : Store}
    (hs : s.locks = .initial) {q : Code (Reply × Bytes)} {m : (Local × Usage) × Store}
    (h : alone (ofBob cmd size filename) s = some (q, m)) :
    Reachable .atRoot ((Threads.idle s).set 0 (q, m.1) m.2) := by
  exact ⟨s, hs, Threads.run_thread rfl (isRequest_ofBob ..) (steps_of_follow h)⟩

theorem references_balanced_delete : ∃ c, Reachable .atRoot c ∧ c.thread 0 ≠ none ∧ Balanced c := by
  have hend : (alone (ofBob .deleteF 0 (bytes "x")) bare).any
      (fun c => !c.2.1.2.careless) = true := by
    decide +kernel
  obtain ⟨⟨q, m⟩, hrun, hcare⟩ := (Option.any_eq_true _ _).mp hend
  have hreach := reachable_alone rfl hrun
  refine ⟨_, hreach, by simp, (references_balanced .atRoot _ hreach).2 (fun i => ?_)⟩
  rw [Requests.usage_set]
  split
  · simpa using hcare
  · rfl

/-- An upload that loses its connection keeps its reference. -/
theorem references_kept : ¬ ∀ (env : Env) (c : Requests), Reachable env c → Balanced c := by
  intro hall
  have hend : (alone (ofBob .upload 1 (bytes "x")) bare).any
      (fun c => c.1.isOver && !c.2.1.2.refs.isEmpty) = true := by decide +kernel
  obtain ⟨⟨q, m⟩, hrun, hkept⟩ := (Option.any_eq_true _ _).mp hend
  obtain ⟨hover, hrefs⟩ := Bool.and_eq_true_iff.mp hkept
  obtain ⟨r, rfl⟩ := Prog.exists_of_isOver hover
  have hnone := (hall _ _ (reachable_alone rfl hrun)).matched 0 r m.1.1 m.1.2 (by simp)
  simp [hnone] at hrefs

end Mtfss.LockBalance
