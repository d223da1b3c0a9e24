import Mtfss.Effects.Threads
import Mtfss.Properties.FailedUpload
import Mtfss.System.Oblige

/-! How much of the connection an upload reads, whatever is thrown in it. -/

namespace Mtfss.UploadConsumption

open Effects FileManager Paths

/-- An upload before its record in the index and after it, or after an exception from the record or
from the line that is logged next. -/
inductive Phase
  | early
  | recorded
  | late
  deriving DecidableEq

def phase : Monitor Call Answer Phase
  | .addFile _ _ _ _, _, r => if r.isOk then .recorded else .late
  | .log, .recorded, r => if r.isOk then .recorded else .late
  | _, t, _ => t

abbrev phased (env : Env) : Next Call Answer ((Local × Phase) × Store) := phase.watch (next env)

def wired (env : Env) : Wired (phased env) :=
  .ofMonitor env phase (fun _ _ _ => rfl) (fun _ _ _ _ => rfl)

/-- The connection is `c`, and the upload is at `t`. -/
structure At (c : Conn) (t : Phase) (m : (Local × Phase) × Store) : Prop where
  conn : m.1.1.conn = c
  stage : m.1.2 = t

section Rules

variable {env : Env} {α : Type} {Q : Except Exn α → (Local × Phase) × Store → Prop}
variable {c : Conn} {t : Phase} {m : (Local × Phase) × Store} {n : ℕ}

lemma At.call {o : Call} {k : Answer o → Code α} (h : At c t m) (ho : o.isConn = false)
    (hk : ∀ r m', At c (phase o t r) m' → Safe (phased env) (fun _ _ => True) (k r) Q m') :
    Safe (phased env) (fun _ _ => True) (.op o k) Q m := by
  refine ⟨trivial, fun r m' hr => hk r m' ?_⟩
  obtain ⟨⟨l, _⟩, s⟩ := m
  obtain ⟨⟨l', _⟩, s'⟩ := m'
  obtain ⟨hconn, rfl⟩ := h
  obtain ⟨hnext, rfl⟩ := Monitor.watch_eq_some.mp hr
  exact ⟨(next_conn hnext ho).trans hconn, rfl⟩

lemma At.recvAll (h : At c t m) (hn : n < 2 ^ 31) :
    Safe (phased env) (fun _ _ => True) (recvAll n) (fun r m' => At (c.skip n) t m' ∧
      (n ≤ c.input.length → r = .ok (some (c.input.take n)))) m := by
  refine safe_mono (safe_recvAll_skip (wired env) hn) ?_
  have hconn : (wired env).conn m = c := h.conn
  rw [hconn]
  rintro r _ ⟨rfl, hr⟩
  refine ⟨⟨rfl, h.stage⟩, fun hlen => ?_⟩
  obtain ⟨rfl, -⟩ | ⟨-, hshort, -⟩ := hr
  · rfl
  · omega

lemma At.discardData {size : UInt64} (h : At c t m) :
    Safe (phased env) (fun _ _ => True) (discardData size) (fun r m' =>
      r = .ok () ∧ At (c.skip size.toNat) t m' ∨ (∃ e, r = .error e) ∧ At c t m') m := by
  refine h.call rfl fun r m₁ h₁ => ?_
  rcases r with e | _
  · exact Or.inr ⟨⟨e, rfl⟩, h₁⟩
  have hloop : Safe (phased env) (fun _ _ => True) (discardLoop size.toNat size.toNat) _ m₁ :=
    safe_discardLoop (wired env) le_rfl
  refine safe_bind_of (f := fun _ => Prog.pure ()) hloop ?_
  have hconn : (wired env).conn m₁ = c := h₁.conn
  rw [hconn]
  rintro _ _ ⟨rfl, ⟨rfl, -⟩ | ⟨rfl, -⟩⟩
  · exact Or.inl ⟨rfl, rfl, h₁.stage⟩
  · exact Or.inl ⟨rfl, rfl, h₁.stage⟩

lemma At.receiveLoop {p : Bytes} {fuel : ℕ} {good : Bool} (h : At c t m) (hfuel : n ≤ fuel)
    (hlen : n ≤ c.input.length) :
    Safe (phased env) (fun _ _ => True) (receiveLoop p fuel n good) (fun r m' =>
      r = .ok true ∧ At (c.skip n) t m') m := by
  induction fuel generalizing n c good m with
  | zero =>
    obtain rfl : n = 0 := Nat.le_zero.mp hfuel
    exact ⟨rfl, by rwa [Conn.skip_zero]⟩
  | succ fuel ih =>
    rcases Nat.eq_zero_or_pos n with rfl | hpos
    · exact ⟨rfl, by rwa [Conn.skip_zero]⟩
    have hle : min TRANSFER_BUFFER_SIZE n ≤ n := Nat.min_le_right _ _
    have hc := chunk_pos hpos
    rw [FileManager.receiveLoop, if_pos hpos]
    refine safe_bind_of (h.recvAll (chunk_small n)) ?_
    rintro r m₁ ⟨h₁, hr⟩
    rw [hr (hle.trans hlen)]
    have hnext : ∀ good m', At (c.skip (min TRANSFER_BUFFER_SIZE n)) t m' →
        Safe (phased env) (fun _ _ => True)
          (FileManager.receiveLoop p fuel (n - min TRANSFER_BUFFER_SIZE n) good)
          (fun r m' => r = .ok true ∧ At (c.skip n) t m') m' := by
      intro good m' h'
      have hrest : n - min TRANSFER_BUFFER_SIZE n ≤
          (c.skip (min TRANSFER_BUFFER_SIZE n)).input.length := by
        rw [Conn.skip_input, List.length_drop]
        omega
      refine safe_mono (ih h' (by omega) hrest) ?_
      rintro r m'' ⟨hr, h''⟩
      rw [Conn.skip_skip, Nat.add_sub_cancel' hle] at h''
      exact ⟨hr, h''⟩
    cases good with
    | false => exact hnext _ _ h₁
    | true =>
      exact h₁.call (o := .write p (c.input.take (min TRANSFER_BUFFER_SIZE n))) rfl
        fun failed m₂ h₂ => hnext _ _ h₂

end Rules

section Upload

variable {env : Env} {c : Conn} {m : (Local × Phase) × Store} {size : UInt64}

/-- How the `try` block ends: with the payload read, or with an exception before its first byte or
after its last. -/
def Tried (c : Conn) (n : ℕ) : Except Exn Bool → (Local × Phase) × Store → Prop
  | .ok _, m => ∃ t, t ≠ .late ∧ At (c.skip n) t m
  | .error _, m => At c .early m ∨ At (c.skip n) .late m

lemma safe_saveLocked {user f p : Bytes} (h : At c .early m)
    (hlen : size.toNat ≤ c.input.length) :
    Safe (phased env) (fun _ _ => True) (saveLocked user f p size) (Tried c size.toNat) m := by
  refine h.call rfl fun opened m₁ h₁ => ?_
  cases opened with
  | false =>
    refine h₁.call rfl fun r m₂ h₂ => ?_
    rcases r with e | _
    · exact Or.inl h₂
    refine safe_bind_of (p := discardData size) h₂.discardData ?_
    rintro _ m₃ (⟨rfl, h₃⟩ | ⟨⟨e, rfl⟩, h₃⟩)
    · refine h₃.call rfl fun _ _ h₄ => h₄.call rfl fun _ _ h₅ => ?_
      exact ⟨.early, nofun, h₅⟩
    · exact Or.inl h₃
  | true =>
    refine h₁.call rfl fun r m₂ h₂ => ?_
    rcases r with e | _
    · exact Or.inl h₂
    refine safe_bind_of (p := receiveLoop p size.toNat size.toNat true)
      (h₂.receiveLoop le_rfl hlen) ?_
    rintro _ m₃ ⟨rfl, h₃⟩
    refine h₃.call rfl fun _ _ h₄ => h₄.call rfl fun time _ h₅ => ?_
    refine h₅.call rfl fun r m₆ h₆ => ?_
    rcases r with e | _
    · exact Or.inr h₆
    refine h₆.call rfl fun r m₇ h₇ => ?_
    rcases r with e | _
    · exact Or.inr h₇
    refine h₇.call rfl fun _ _ h₈ => h₈.call rfl fun _ _ h₉ => ?_
    exact ⟨.recorded, nofun, h₉⟩

lemma safe_ensureDir {dir : Bytes} (h : At c .early m) :
    Safe (phased env) (fun _ _ => True) (ensureDir dir) (fun _ => At c .early) m := by
  refine h.call rfl fun r m₁ h₁ => ?_
  rcases r with e | _ | _
  · exact h₁
  · exact h₁.call rfl fun r m₂ h₂ => (safe_ofExcept r).mpr h₂
  · exact h₁

lemma safe_trySaveFile {user f : Bytes} (h : At c .early m) (hlen : size.toNat ≤ c.input.length) :
    Safe (phased env) (fun _ _ => True) (trySaveFile user f size) (Tried c size.toNat) m := by
  refine h.call rfl fun r m₁ h₁ => ?_
  rcases r with e | dir
  · exact Or.inl h₁
  refine safe_bind_of (p := ensureDir dir) (safe_ensureDir h₁) ?_
  rintro (e | _) m₂ h₂
  · exact Or.inl h₂
  rw [safeBind_ok, saveInto]
  split
  · refine h₂.call rfl fun r m₃ h₃ => ?_
    rcases r with e | _
    · exact Or.inl h₃
    refine safe_bind_of (p := discardData size) h₃.discardData ?_
    rintro _ m₄ (⟨rfl, h₄⟩ | ⟨⟨e, rfl⟩, h₄⟩)
    · exact ⟨.early, (by rintro ⟨⟩), h₄⟩
    · exact Or.inl h₄
  refine h₂.call rfl fun r m₃ h₃ => ?_
  rcases r with e | path
  · exact Or.inl h₃
  refine h₃.call rfl fun r m₄ h₄ => ?_
  rcases r with e | _
  · exact Or.inl h₄
  refine h₄.call rfl fun _ m₅ h₅ => ?_
  refine safe_tryCatch.mpr (safe_mono (safe_saveLocked h₅ hlen) ?_)
  rintro (e | b) m₆ h₆
  · rcases h₆ with h₆ | h₆
    · exact h₆.call rfl fun _ _ h₇ => Or.inl h₇
    · exact h₆.call rfl fun _ _ h₇ => Or.inr h₇
  · exact h₆

lemma safe_catch {t : Phase} (h : At c t m) (ht : ∀ r, phase .log t r = t) :
    Safe (phased env) (fun _ _ => True) (do
      Sys.log
      discardData size
      pure false) (fun r m' => ∀ b : Bool, r = .ok b → At (c.skip size.toNat) t m') m := by
  refine h.call rfl fun r m₁ h₁ => ?_
  rw [ht] at h₁
  rcases r with e | _
  · nofun
  refine safe_bind_of (p := discardData size) h₁.discardData ?_
  rintro _ m₂ (⟨rfl, h₂⟩ | ⟨⟨e, rfl⟩, h₂⟩)
  · exact fun _ _ => h₂
  · nofun

lemma safe_saveFile {user f : Bytes} (h : At c .early m) (hlen : size.toNat ≤ c.input.length) :
    Safe (phased env) (fun _ _ => True) (saveFile user f size) (fun r m' => ∀ b, r = .ok b →
      m'.1.2 ≠ .late ∧ m'.1.1.conn = c.skip size.toNat ∨
        m'.1.2 = .late ∧ m'.1.1.conn = (c.skip size.toNat).skip size.toNat) m := by
  refine safe_tryCatch.mpr (safe_mono (safe_trySaveFile h hlen) ?_)
  rintro (e | b) m₁ h₁
  · rcases h₁ with h₁ | h₁
    · refine safe_mono (safe_catch h₁ fun _ => rfl) fun r m' h' b hr => ?_
      have hat := h' b hr
      exact Or.inl ⟨by rw [hat.stage]; nofun, hat.conn⟩
    · refine safe_mono (safe_catch h₁ fun _ => rfl) fun r m' h' b hr => ?_
      have hat := h' b hr
      exact Or.inr ⟨hat.stage, hat.conn⟩
  · rintro _ ⟨⟩
    obtain ⟨t, ht, hat⟩ := h₁
    exact Or.inl ⟨by rw [hat.stage]; exact ht, hat.conn⟩

lemma skip_twice_iff {n : ℕ} (hlen : n ≤ c.input.length) :
    (c.skip n).skip n = c.skip n ↔ n = 0 ∨ c.input.length = n := by
  constructor
  · intro h
    have hinput := congrArg (fun c => c.input.length) h
    simp only [Conn.skip_input, List.length_drop] at hinput
    omega
  · rintro (rfl | hall)
    · rw [Conn.skip_zero]
    · rw [Conn.skip_skip, Conn.skip_of_short (by omega), Conn.skip_of_short hall.le]

end Upload

/-- On a connection that delivers the payload, an upload that returns has read exactly the payload,
unless an exception comes after the payload while there is more to read. -/
theorem save_consumes_iff (env : Env) (user f : Bytes) (size : UInt64) (l : Local) (s : Store)
    (hlen : size.toNat ≤ l.conn.input.length) (b : Bool) (l' : Local) (t : Phase) (s' : Store)
    (hrun : Steps (phased env) (saveFile user f size, ((l, .early), s))
      (Prog.ofExcept (.ok b), ((l', t), s'))) :
    l'.conn = l.conn.skip size.toNat ↔
      (t = .late → size.toNat = 0 ∨ l.conn.input.length = size.toNat) := by
  obtain ⟨ht, hconn⟩ | ⟨rfl, hconn⟩ :=
    safe_result (safe_saveFile ⟨rfl, rfl⟩ hlen) hrun b rfl
  · exact iff_of_true hconn fun hlate => (ht hlate).elim
  · have htwice : l'.conn = (l.conn.skip size.toNat).skip size.toNat := hconn
    rw [htwice, skip_twice_iff hlen]
    exact ⟨fun h _ => h, fun h => h rfl⟩

/-- The upload of one byte by bob to the file `x`, with the given answers, on a connection with
another byte behind it. -/
def saved (env : Env) (pick : (o : Call) → (Local × Phase) × Store → Answer o) :
    Option (Prog.Running Call Answer Exn Bool ((Local × Phase) × Store)) :=
  follow pick (phased env) 100 (saveFile (bytes "bob") (bytes "x") 1)
    ((.fresh 0 (bytes "ab") false, .early), .fresh (.ofDir [driveRoot 0x43]))

def hasReturned : Code Bool → Bool
  | .pure _ => true
  | _ => false

lemma exists_of_hasReturned {p : Code Bool} (h : hasReturned p = true) :
    ∃ b, p = Prog.ofExcept (.ok b) := by
  cases p with
  | pure b => exact ⟨b, rfl⟩
  | throw e => cases h
  | op o k => cases h

theorem save_consumes_one : ∃ b m,
    saved .atRoot (fun o m => oblige .atRoot o (m.1.1, m.2)) = some (Prog.ofExcept (.ok b), m) ∧
      m.1.1.conn = (Local.fresh 0 (bytes "ab") false).conn.skip 1 := by
  have hend : (saved .atRoot (fun o m => oblige .atRoot o (m.1.1, m.2))).any
      (fun c => hasReturned c.1 && decide (c.2.1.2 ≠ .late)) = true := by decide +kernel
  obtain ⟨⟨p, ⟨l, t⟩, s⟩, hrun, hcheck⟩ := (Option.any_eq_true _ _).mp hend
  obtain ⟨hreturned, ht⟩ := Bool.and_eq_true_iff.mp hcheck
  obtain ⟨b, rfl⟩ := exists_of_hasReturned hreturned
  refine ⟨b, _, hrun, ?_⟩
  exact (save_consumes_iff .atRoot (bytes "bob") (bytes "x") 1 _ _ (by decide) b l t s
    (steps_of_follow hrun)).mpr fun hlate => absurd hlate (of_decide_eq_true ht)

def lowMemory : Env := ⟨Env.atRoot.cwd, { Faults.none with alloc := true }⟩

/-- When the index cannot record the upload, the next request is read away. -/
theorem save_consumes_more :
    ¬ ∀ (env : Env) (user f : Bytes) (size : UInt64) (l : Local) (s : Store),
    size.toNat ≤ l.conn.input.length → ∀ (b : Bool) (l' : Local) (t : Phase) (s' : Store),
    Steps (phased env) (saveFile user f size, ((l, .early), s))
      (Prog.ofExcept (.ok b), ((l', t), s')) → l'.conn = l.conn.skip size.toNat := by
  intro hall
  have hend : (saved lowMemory (fun o m => match o with
      | .addFile _ _ _ _ => .error .badAlloc
      | o => oblige lowMemory o (m.1.1, m.2))).any
      (fun c => hasReturned c.1 && (c.2.1.1.conn.input == [])) = true := by decide +kernel
  obtain ⟨⟨p, ⟨l, t⟩, s⟩, hrun, hcheck⟩ := (Option.any_eq_true _ _).mp hend
  obtain ⟨hreturned, hinput⟩ := Bool.and_eq_true_iff.mp hcheck
  obtain ⟨b, rfl⟩ := exists_of_hasReturned hreturned
  have hconn := hall lowMemory (bytes "bob") (bytes "x") 1 _ _ (by decide) b l t s
    (steps_of_follow hrun)
  have hempty : l.conn.input = [] := eq_of_beq hinput
  rw [hconn] at hempty
  exact absurd hempty (by decide)

end Mtfss.UploadConsumption
