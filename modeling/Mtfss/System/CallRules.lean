import Mtfss.System.Calls

/-! What each call needs and does, as rules for weakest preconditions. -/

namespace Mtfss

open Effects Paths

namespace Rules

section Settles

variable {α ρ σ : Type}

/-- A call with the answers `nx` is answered at all, and always as `Q` asks. -/
def Settles (nx : ρ → Option σ) (Q : ρ → σ → Prop) : Prop :=
  (∃ r t, nx r = some t) ∧ ∀ r t, nx r = some t → Q r t

lemma settles_unique {nx : ρ → Option σ} {Q : ρ → σ → Prop} (r₀ : ρ) (t₀ : σ)
    (h : ∀ r t, nx r = some t ↔ r = r₀ ∧ t = t₀) : Settles nx Q ↔ Q r₀ t₀ := by
  simp only [Settles, h]
  constructor
  · rintro ⟨_, hall⟩
    exact hall r₀ t₀ ⟨rfl, rfl⟩
  · intro hq
    refine ⟨⟨r₀, t₀, rfl, rfl⟩, ?_⟩
    rintro r t ⟨rfl, rfl⟩
    exact hq

lemma answer_eq_some [DecidableEq α] {r x : α} {m t : σ} :
    answer r x m = some t ↔ r = x ∧ t = m := by
  unfold answer
  split <;> simp_all [eq_comm]

lemma orThrow_eq_some {failing : Bool} {e : Exn} {m t : σ} {ok : α → Option σ}
    {r : Except Exn α} : orThrow failing e m ok r = some t ↔
      (∃ a, r = .ok a ∧ ok a = some t) ∨ (failing = true ∧ r = .error e ∧ t = m) := by
  cases r with
  | ok a => simp [orThrow]
  | error e' =>
    simp only [orThrow, reduceCtorEq, false_and, exists_false, false_or, Except.error.injEq]
    split <;> simp_all [eq_comm]

lemma settles_orThrow {failing : Bool} {e : Exn} {m : σ} {ok : α → Option σ}
    {Q : Except Exn α → σ → Prop} : Settles (orThrow failing e m ok) Q ↔
      ((∃ a t, ok a = some t) ∨ failing = true) ∧ (∀ a t, ok a = some t → Q (.ok a) t) ∧
        (failing = true → Q (.error e) m) := by
  simp only [Settles, orThrow_eq_some]
  constructor
  · rintro ⟨⟨r, t, h⟩, hall⟩
    refine ⟨?_, fun a t ha => hall _ _ (Or.inl ⟨a, rfl, ha⟩), fun hf =>
      hall _ _ (Or.inr ⟨hf, rfl, rfl⟩)⟩
    rcases h with ⟨a, _, ha⟩ | ⟨hf, _⟩
    · exact Or.inl ⟨a, t, ha⟩
    · exact Or.inr hf
  · rintro ⟨hex, hok, herr⟩
    constructor
    · rcases hex with ⟨a, t, ha⟩ | hf
      · exact ⟨_, t, Or.inl ⟨a, rfl, ha⟩⟩
      · exact ⟨_, m, Or.inr ⟨hf, rfl, rfl⟩⟩
    · rintro r t (⟨a, rfl, ha⟩ | ⟨hf, rfl, rfl⟩)
      · exact hok a t ha
      · exact herr hf

end Settles

variable {env : Env} {m : Machine} {l : Local} {s : Store}

lemma wp_plain {c : Call} {Q : Except Exn (Answer c) → Machine → Prop} :
    wp (next env) (.op c .pure) Q m ↔ Settles (next env c m) (fun r t => Q (.ok r) t) := Iff.rfl

lemma settles_some {f : Machine} {nx : Unit → Option Machine} {Q : Except Exn Unit → Machine → Prop}
    (h : ∀ r, nx r = some f) : Settles nx (fun r t => Q (.ok r) t) ↔ Q (.ok ()) f :=
  settles_unique () f (fun r t => by simp [h, eq_comm])

/-- A call that waits until `g` holds. -/
lemma settles_guard {g : Prop} [Decidable g] {t : Machine} {nx : Unit → Option Machine}
    {Q : Except Exn Unit → Machine → Prop} (h : ∀ r, nx r = if g then some t else none) :
    Settles nx (fun r t => Q (.ok r) t) ↔ g ∧ Q (.ok ()) t := by
  by_cases hg : g
  · rw [settles_some (f := t) (fun r => by rw [h, if_pos hg])]
    simp [hg]
  · simp [Settles, h, hg]

/-- A stream operation, which always can succeed, and fails only where `g` holds. -/
lemma settles_stream {g : Prop} [Decidable g] {t : Machine} {u : ℕ → Machine}
    {nx : Option ℕ → Option Machine} {Q : Except Exn (Option ℕ) → Machine → Prop}
    (hnone : nx none = some t) (hsome : ∀ n, nx (some n) = if g then some (u n) else none) :
    Settles nx (fun r t => Q (.ok r) t) ↔ Q (.ok none) t ∧ (g → ∀ n, Q (.ok (some n)) (u n)) := by
  constructor
  · rintro ⟨-, h⟩
    exact ⟨h none t hnone, fun hg n => h (some n) (u n) (by rw [hsome, if_pos hg])⟩
  · rintro ⟨h, hf⟩
    refine ⟨⟨none, t, hnone⟩, ?_⟩
    rintro (_ | n) t' ht
    · rw [hnone] at ht
      cases ht
      exact h
    · rw [hsome] at ht
      split at ht
      · cases ht
        exact hf ‹_› n
      · cases ht

lemma settles_orThrow_some {failing : Bool} {e : Exn} {t : Machine}
    {Q : Except Exn Unit → Machine → Prop} :
    Settles (orThrow failing e m (fun _ => some t)) Q ↔
      Q (.ok ()) t ∧ (failing = true → Q (.error e) m) := by
  simp only [settles_orThrow, Option.some.injEq]
  constructor
  · rintro ⟨_, hok, herr⟩
    exact ⟨hok () t rfl, herr⟩
  · rintro ⟨hok, herr⟩
    refine ⟨Or.inl ⟨(), t, rfl⟩, ?_, herr⟩
    rintro a u rfl
    exact hok

lemma settles_orThrow_answer {α : Type} [DecidableEq α] {failing : Bool} {e : Exn} {x : α}
    {t : Machine} {Q : Except Exn α → Machine → Prop} :
    Settles (orThrow failing e m (fun a => answer a x t)) Q ↔
      Q (.ok x) t ∧ (failing = true → Q (.error e) m) := by
  simp only [settles_orThrow, answer_eq_some]
  constructor
  · rintro ⟨_, hok, herr⟩
    exact ⟨hok x t ⟨rfl, rfl⟩, herr⟩
  · rintro ⟨hok, herr⟩
    refine ⟨Or.inl ⟨x, t, rfl, rfl⟩, ?_, herr⟩
    rintro a u ⟨rfl, rfl⟩
    exact hok

/-- A throwing call without a value, of an operation that can fail by itself. -/
lemma settles_orThrow_map {δ : Type} {flag : Bool} {o : Option δ} {e : Exn} {f : δ → Machine}
    {Q : Except Exn Unit → Machine → Prop} :
    Settles (orThrow (flag || o.isNone) e m (fun _ => o.map f)) Q ↔
      (∀ d, o = some d → Q (.ok ()) (f d)) ∧ ((flag = true ∨ o = none) → Q (.error e) m) := by
  simp only [settles_orThrow, Bool.or_eq_true, Option.isNone_iff_eq_none]
  constructor
  · rintro ⟨_, hok, herr⟩
    exact ⟨fun d hd => hok () _ (by simp [hd]), herr⟩
  · rintro ⟨hok, herr⟩
    refine ⟨?_, ?_, herr⟩
    · cases o with
      | none => exact Or.inr (Or.inr rfl)
      | some d => exact Or.inl ⟨(), f d, rfl⟩
    · intro _ t ht
      obtain ⟨d, hd, rfl⟩ := Option.map_eq_some_iff.mp ht
      exact hok d hd

@[simp] lemma wp_pathAppend {Q : Except Exn Bytes → Machine → Prop} (p q : Bytes) :
    wp (next env) (Sys.pathAppend p q) Q m ↔ Q (.ok (append p q)) m ∧
      (env.faults.path = true → Q (.error .filesystemError) m) := by
  refine Iff.trans ?_ settles_orThrow_answer
  simp only [Sys.pathAppend, wp_op, wp_ofExcept]
  rfl

@[simp] lemma wp_fsExists {Q : Except Exn Bool → Machine → Prop} (p : Bytes) :
    wp (next env) (Sys.fsExists p) Q (l, s) ↔
      Q (.ok (s.disk.existsAt (resolve env.cwd p))) (l, s) ∧
        (env.faults.fs = true → Q (.error .filesystemError) (l, s)) := by
  refine Iff.trans ?_ settles_orThrow_answer
  simp only [Sys.fsExists, wp_op, wp_ofExcept]
  rfl

@[simp] lemma wp_createDirectories {Q : Except Exn Unit → Machine → Prop} (p : Bytes) :
    wp (next env) (Sys.createDirectories p) Q (l, s) ↔
      (∀ d, s.disk.createDirectories (resolve env.cwd p) = some d →
        Q (.ok ()) (l, { s with disk := d })) ∧
      ((env.faults.fs = true ∨ s.disk.createDirectories (resolve env.cwd p) = none) →
        Q (.error .filesystemError) (l, s)) := by
  refine Iff.trans ?_ (settles_orThrow_map (f := fun d => (l, { s with disk := d })))
  simp only [Sys.createDirectories, wp_op, wp_ofExcept]
  rfl

@[simp] lemma wp_fsRemove {Q : Except Exn Bool → Machine → Prop} (p : Bytes) :
    wp (next env) (Sys.fsRemove p) Q (l, s) ↔
      (∀ b d, s.disk.remove (resolve env.cwd p) = some (b, d) →
        Q (.ok b) (l, { s with disk := d })) ∧
      ((env.faults.fs = true ∨ s.disk.remove (resolve env.cwd p) = none) →
        Q (.error .filesystemError) (l, s)) := by
  have hset : wp (next env) (Sys.fsRemove p) Q (l, s) ↔
      Settles (next env (.fsRemove p) (l, s)) Q := by
    simp only [Sys.fsRemove, wp_op, wp_ofExcept]
    rfl
  rw [hset]
  refine settles_orThrow.trans ?_
  simp only [Bool.or_eq_true, Option.isNone_iff_eq_none]
  cases hr : s.disk.remove (resolve env.cwd p) with
  | none => simp
  | some bd =>
    obtain ⟨b, d⟩ := bd
    simp only [Option.bind_some, answer_eq_some]
    grind

@[simp] lemma wp_openOut {Q : Except Exn Bool → Machine → Prop} (p : Bytes) :
    wp (next env) (Sys.openOut p) Q (l, s) ↔
      (∀ d, s.disk.openOut (resolve env.cwd p) = some d → Q (.ok true) (l, { s with disk := d })) ∧
      ((env.faults.fs = true ∨ s.disk.openOut (resolve env.cwd p) = none) →
        Q (.ok false) (l, s)) := by
  refine Iff.trans wp_plain ?_
  simp only [Settles, Bool.exists_bool, Bool.forall_bool, next]
  cases hr : s.disk.openOut (resolve env.cwd p) <;> simp [and_comm]

@[simp] lemma wp_write {Q : Except Exn (Option ℕ) → Machine → Prop} (p data : Bytes) :
    wp (next env) (Sys.write p data) Q (l, s) ↔
      Q (.ok none) (l, { s with disk := s.disk.modify (resolve env.cwd p) (· ++ data) }) ∧
      (env.faults.write = true → ∀ n, Q (.ok (some n))
        (l, { s with disk := s.disk.modify (resolve env.cwd p) (· ++ data.take n) })) :=
  wp_plain.trans (settles_stream rfl (fun _ => rfl))

@[simp] lemma wp_closeOut {Q : Except Exn (Option ℕ) → Machine → Prop} (p : Bytes) :
    wp (next env) (Sys.closeOut p) Q (l, s) ↔ Q (.ok none) (l, s) ∧
      (env.faults.write = true → ∀ n, Q (.ok (some n))
        (l, { s with disk := s.disk.modify (resolve env.cwd p) (·.take n) })) :=
  wp_plain.trans (settles_stream rfl (fun _ => rfl))

@[simp] lemma wp_acquireLockRef {Q : Except Exn Unit → Machine → Prop} (key : Bytes) :
    wp (next env) (Sys.acquireLockRef key) Q (l, s) ↔
      Q (.ok ()) ({ l with entry := Function.update l.entry key (s.locks.entryOf key) },
        { s with locks := s.locks.acquire key }) ∧
      (env.faults.alloc = true → Q (.error .badAlloc) (l, s)) := by
  refine Iff.trans ?_ (settles_orThrow_some)
  simp only [Sys.acquireLockRef, wp_op, wp_ofExcept]
  rfl

@[simp] lemma wp_releaseLockRef {Q : Except Exn Unit → Machine → Prop} (key : Bytes) :
    wp (next env) (Sys.releaseLockRef key) Q (l, s) ↔
      Q (.ok ()) (l, { s with locks := s.locks.release key }) :=
  wp_plain.trans (settles_some (fun _ => rfl))

@[simp] lemma wp_lock {Q : Except Exn Unit → Machine → Prop} (key : Bytes) :
    wp (next env) (Sys.lock key) Q (l, s) ↔ s.locks.isFree key (l.entry key) = true ∧
      Q (.ok ()) (l, { s with locks := s.locks.lock l.self key (l.entry key) }) :=
  wp_plain.trans (settles_guard (fun _ => rfl))

@[simp] lemma wp_unlock {Q : Except Exn Unit → Machine → Prop} (key : Bytes) :
    wp (next env) (Sys.unlock key) Q (l, s) ↔
      Q (.ok ()) (l, { s with locks := s.locks.unlock key (l.entry key) }) :=
  wp_plain.trans (settles_some (fun _ => rfl))

@[simp] lemma wp_addFile {Q : Except Exn Unit → Machine → Prop} (dir filename : Bytes)
    (size : UInt64) :
    wp (next env) (Sys.addFile dir filename size) Q (l, s) ↔
      (∀ time, Q (.ok ()) (l, { s with index := s.index.addFile dir filename size time })) ∧
      (env.faults.alloc = true → Q (.error .badAlloc) (l, s)) := by
  have hclock : wp (next env) (Sys.addFile dir filename size) Q (l, s) ↔ ∀ time,
      Settles (orThrow env.faults.alloc .badAlloc (l, s) (fun _ => some (l, { s with
        index := s.index.addFile dir filename size time }))) Q := by
    simp only [Sys.addFile, wp_op, wp_ofExcept]
    constructor
    · rintro ⟨-, h⟩ time
      exact h time _ rfl
    · intro h
      refine ⟨⟨[], _, rfl⟩, ?_⟩
      rintro time _ ⟨⟩
      exact h time
  simp only [hclock, settles_orThrow_some]
  exact ⟨fun h => ⟨fun time => (h time).1, (h []).2⟩, fun h time => ⟨h.1 time, h.2⟩⟩

@[simp] lemma wp_listDirectory {Q : Except Exn (List FileMetadata) → Machine → Prop}
    (dir : Bytes) :
    wp (next env) (Sys.listDirectory dir) Q (l, s) ↔
      ∀ files, files.Perm (s.index.listDirectory dir) → Q (.ok files) (l, s) := by
  refine Iff.trans wp_plain ?_
  simp only [Settles, next]
  constructor
  · rintro ⟨-, h⟩ files hf
    exact h files _ (if_pos hf)
  · intro h
    refine ⟨⟨_, _, if_pos (List.Perm.refl _)⟩, ?_⟩
    intro files t ht
    split at ht
    · cases ht
      exact h files ‹_›
    · cases ht

@[simp] lemma wp_alloc {Q : Except Exn Unit → Machine → Prop} (size : ℕ) :
    wp (next env) (Sys.alloc size) Q m ↔ Q (.ok ()) m ∧
      (env.faults.alloc = true → Q (.error .badAlloc) m) := by
  refine Iff.trans ?_ (settles_orThrow_some)
  simp only [Sys.alloc, wp_op, wp_ofExcept]
  rfl

@[simp] lemma wp_log {Q : Except Exn Unit → Machine → Prop} :
    wp (next env) Sys.log Q m ↔ Q (.ok ()) m ∧
      (env.faults.alloc = true → Q (.error .badAlloc) m) := by
  refine Iff.trans ?_ (settles_orThrow_some)
  simp only [Sys.log, wp_op, wp_ofExcept]
  rfl

@[simp] lemma wp_closesocket {Q : Except Exn Unit → Machine → Prop} :
    wp (next env) Sys.closesocket Q (l, s) ↔ Q (.ok ()) ({ l with conn := l.conn.close }, s) :=
  wp_plain.trans (settles_some (fun _ => rfl))

@[simp] lemma wp_activeConnections {Q : Except Exn Unit → Machine → Prop} (delta : ℤ) :
    wp (next env) (Sys.activeConnections delta) Q (l, s) ↔
      Q (.ok ()) (l, { s with active := s.active + delta }) :=
  wp_plain.trans (settles_some (fun _ => rfl))

@[simp] lemma wp_running {Q : Except Exn Bool → Machine → Prop} :
    wp (next env) Sys.running Q (l, s) ↔ (s.running = true → Q (.ok true) (l, s)) ∧
      ((s.running = false ∨ env.faults.stop = true) →
        Q (.ok false) (l, { s with running := false })) := by
  refine Iff.trans wp_plain ?_
  simp only [Settles, Bool.exists_bool, Bool.forall_bool, next]
  cases hr : s.running <;> simp [and_comm]

end Rules

end Mtfss
