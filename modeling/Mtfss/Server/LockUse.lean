import Mtfss.Effects.Threads
import Mtfss.Server.Footprint

/-! How the operations use the lock manager: which references and locks they have at each moment,
and which of their ways out keep a reference. -/

namespace Mtfss

open Effects

/-- What an operation has of the lock manager, and how its transfer goes. -/
structure Usage where
  /-- the keys it has references to -/
  refs : List Bytes
  shared : List Bytes
  exclusive : List Bytes
  /-- its upload has a file open -/
  writing : Bool
  /-- its download has a file open -/
  reading : Bool
  /-- a `send` or `recv` has failed -/
  lost : Bool
  /-- it has left a locked section by an exception, by a lost upload, or by a download that was not
  lost -/
  careless : Bool

namespace Usage

def start : Usage := ⟨[], [], [], false, false, false, false⟩

def thrown (u : Usage) : Usage := { u with careless := u.careless || !u.refs.isEmpty }

def lose (u : Usage) : Usage := { u with lost := true }

def noting {α : Type} (u : Usage) : Except Exn α → Usage
  | .ok _ => u
  | .error _ => u.thrown

def after : Monitor Call Answer Usage
  | .recv _, u, r => if r = none ∨ r = some [] then u.lose else u
  | .send _ _, u, r => if r = none ∨ r = some 0 then u.lose else u
  | .openOut _, u, r => { u with writing := u.writing || r }
  | .openIn _, u, r => { u with reading := u.reading || r }
  | .acquireLockRef key, u, r =>
    match r with
    | .ok _ => { u with refs := key :: u.refs }
    | .error _ => u.thrown
  | .releaseLockRef key, u, _ => { u with refs := u.refs.erase key }
  | .lock key, u, _ => { u with exclusive := key :: u.exclusive }
  | .unlock key, u, _ =>
    { u with exclusive := u.exclusive.erase key, careless := u.careless || (u.writing && u.lost) }
  | .lockShared key, u, _ => { u with shared := key :: u.shared }
  | .unlockShared key, u, _ =>
    { u with shared := u.shared.erase key, careless := u.careless || (u.reading && !u.lost) }
  | .lockBoth key₁ key₂, u, _ => { u with exclusive := key₁ :: key₂ :: u.exclusive }
  | .pathAppend _ _, u, r => u.noting r
  | .fsExists _, u, r | .isRegularFile _, u, r | .fsRemove _, u, r => u.noting r
  | .fileSize _, u, r => u.noting r
  | .createDirectories _, u, r | .fsRename _ _, u, r | .addFile _ _ _ _, u, r
  | .removeFile _ _, u, r | .alloc _, u, r | .log, u, r => u.noting r
  | _, u, _ => u

/-- The key has a reference and no lock. -/
def Ready (u : Usage) (key : Bytes) : Prop := key ∈ u.refs ∧ key ∉ u.shared ∧ key ∉ u.exclusive

/-- The order in which an operation may go about a key. -/
def Allows : Call → Usage → Prop
  | .acquireLockRef key, u => key ∉ u.refs
  | .releaseLockRef key, u => u.Ready key
  | .lock key, u | .lockShared key, u => u.Ready key
  | .lockBoth key₁ key₂, u => key₁ ≠ key₂ ∧ u.Ready key₁ ∧ u.Ready key₂
  | .unlock key, u => key ∈ u.exclusive
  | .unlockShared key, u => key ∈ u.shared
  | _, _ => True

/-- The operation has ended, without a lock, and with a reference exactly if it was careless. -/
structure Done (u : Usage) : Prop where
  shared : u.shared = []
  exclusive : u.exclusive = []
  refs : u.refs = [] ↔ u.careless = false

abbrev Uses {α : Type} (p : Code α) (Q : Except Exn α → Usage → Prop) (u : Usage) : Prop :=
  Safe after.next Allows p Q u

lemma done_start : start.Done := ⟨rfl, rfl, by simp [start]⟩

lemma Done.thrown {u : Usage} (h : u.Done) : u.thrown.Done := by
  refine ⟨h.shared, h.exclusive, ?_⟩
  have := h.refs
  cases hr : u.refs <;> cases hc : u.careless <;> simp_all [Usage.thrown]

lemma Done.lose {u : Usage} (h : u.Done) : u.lose.Done := ⟨h.shared, h.exclusive, h.refs⟩

section Calls

variable {α : Type} {u : Usage}

lemma uses_plain {o : Call} {Q : Except Exn (Answer o) → Usage → Prop} (h : Allows o u) :
    Uses (.op o .pure) Q u ↔ ∀ r, Q (.ok r) (after o u r) := by
  rw [Uses, Monitor.safe_op]
  exact and_iff_right h

lemma uses_noting {o : Call} {Q : Except Exn α → Usage → Prop} (get : Answer o → Except Exn α)
    (hget : ∀ x, ∃ r, get r = x) (h : Allows o u) (hafter : ∀ r, after o u r = u.noting (get r)) :
    Uses (.op o (fun r => .ofExcept (get r))) Q u ↔
      (∀ a, Q (.ok a) u) ∧ ∀ e, Q (.error e) u.thrown := by
  rw [Uses, Monitor.safe_op, and_iff_right h]
  simp only [safe_ofExcept, hafter]
  constructor
  · intro h
    constructor
    · intro a
      obtain ⟨r, hr⟩ := hget (.ok a)
      simpa [hr, noting] using h r
    · intro e
      obtain ⟨r, hr⟩ := hget (.error e)
      simpa [hr, noting] using h r
  · rintro ⟨hok, herror⟩ r
    cases hr : get r with
    | ok a => exact hok a
    | error e => exact herror e

/-- A call that may throw and is of no other interest. -/
abbrev Notes (p : Code α) : Prop :=
  ∀ (Q : Except Exn α → Usage → Prop) (u : Usage),
    Uses p Q u ↔ (∀ a, Q (.ok a) u) ∧ ∀ e, Q (.error e) u.thrown

lemma notes_pathAppend (p q : Bytes) : Notes (Sys.pathAppend p q) := fun _ _ =>
  uses_noting (o := .pathAppend p q) id (fun x => ⟨x, rfl⟩) trivial (fun _ => rfl)

lemma notes_fsExists (p : Bytes) : Notes (Sys.fsExists p) := fun _ _ =>
  uses_noting (o := .fsExists p) id (fun x => ⟨x, rfl⟩) trivial (fun _ => rfl)

lemma notes_createDirectories (p : Bytes) : Notes (Sys.createDirectories p) := fun _ _ =>
  uses_noting (o := .createDirectories p) id (fun x => ⟨x, rfl⟩) trivial (fun _ => rfl)

lemma notes_fsRemove (p : Bytes) : Notes (Sys.fsRemove p) := fun _ _ =>
  uses_noting (o := .fsRemove p) id (fun x => ⟨x, rfl⟩) trivial (fun _ => rfl)

lemma notes_fsRename (p q : Bytes) : Notes (Sys.fsRename p q) := fun _ _ =>
  uses_noting (o := .fsRename p q) id (fun x => ⟨x, rfl⟩) trivial (fun _ => rfl)

lemma notes_removeFile (dir f : Bytes) : Notes (Sys.removeFile dir f) := fun _ _ =>
  uses_noting (o := .removeFile dir f) id (fun x => ⟨x, rfl⟩) trivial (fun _ => rfl)

lemma notes_alloc (n : ℕ) : Notes (Sys.alloc n) := fun _ _ =>
  uses_noting (o := .alloc n) id (fun x => ⟨x, rfl⟩) trivial (fun _ => rfl)

lemma notes_log : Notes Sys.log := fun _ _ =>
  uses_noting (o := .log) id (fun x => ⟨x, rfl⟩) trivial (fun _ => rfl)

lemma notes_addFile (dir f : Bytes) (size : UInt64) : Notes (Sys.addFile dir f size) := by
  intro Q u
  have hclock : Allows .clock u := trivial
  rw [Sys.addFile, Uses, Monitor.safe_op, and_iff_right hclock]
  have hadd : ∀ time, Uses (.op (.addFile dir f size time) .ofExcept) Q u ↔
      (∀ a, Q (.ok a) u) ∧ ∀ e, Q (.error e) u.thrown := fun time =>
    uses_noting (o := .addFile dir f size time) id (fun x => ⟨x, rfl⟩) trivial (fun _ => rfl)
  exact ⟨fun h => (hadd []).mp (h []), fun h time => (hadd time).mpr h⟩

lemma uses_openOut {p : Bytes} {Q : Except Exn Bool → Usage → Prop} :
    Uses (Sys.openOut p) Q u ↔ ∀ b : Bool, Q (.ok b) { u with writing := u.writing || b } :=
  uses_plain (o := .openOut p) trivial

lemma uses_openIn {p : Bytes} {Q : Except Exn Bool → Usage → Prop} :
    Uses (Sys.openIn p) Q u ↔ ∀ b : Bool, Q (.ok b) { u with reading := u.reading || b } :=
  uses_plain (o := .openIn p) trivial

abbrev Ignores (p : Code α) : Prop :=
  ∀ (Q : Except Exn α → Usage → Prop) (u : Usage), Uses p Q u ↔ ∀ a, Q (.ok a) u

lemma ignores_write (p data : Bytes) : Ignores (Sys.write p data) := fun _ _ =>
  uses_plain (o := .write p data) trivial

lemma ignores_closeOut (p : Bytes) : Ignores (Sys.closeOut p) := fun _ _ =>
  uses_plain (o := .closeOut p) trivial

lemma ignores_read (p : Bytes) (offset count : ℕ) : Ignores (Sys.read p offset count) := fun _ _ =>
  uses_plain (o := .read p offset count) trivial

lemma ignores_fileExists (dir f : Bytes) : Ignores (Sys.fileExists dir f) := fun _ _ =>
  uses_plain (o := .fileExists dir f) trivial

lemma ignores_getFileSize (dir f : Bytes) : Ignores (Sys.getFileSize dir f) := fun _ _ =>
  uses_plain (o := .getFileSize dir f) trivial

lemma ignores_listDirectory (dir : Bytes) : Ignores (Sys.listDirectory dir) := fun _ _ =>
  uses_plain (o := .listDirectory dir) trivial

lemma uses_acquireLockRef {key : Bytes} {Q : Except Exn Unit → Usage → Prop} (h : key ∉ u.refs) :
    Uses (Sys.acquireLockRef key) Q u ↔
      Q (.ok ()) { u with refs := key :: u.refs } ∧ ∀ e, Q (.error e) u.thrown := by
  have hfirst : Allows (.acquireLockRef key) u := h
  rw [Sys.acquireLockRef, Uses, Monitor.safe_op, and_iff_right hfirst]
  constructor
  · exact fun h => ⟨h (.ok ()), fun e => h (.error e)⟩
  · rintro ⟨hok, herror⟩ (e | _)
    · exact herror e
    · exact hok

lemma uses_unit {o : Call} {k : Answer o → Code Unit}
    {Q : Except Exn Unit → Usage → Prop} {v : Usage}
    (h : Allows o u) (hv : ∀ r, after o u r = v) (hk : ∀ r, k r = .pure ()) (r : Answer o) :
    Uses (.op o k) Q u ↔ Q (.ok ()) v := by
  rw [Uses, Monitor.safe_op, and_iff_right h]
  simp only [hk, hv, safe_pure]
  exact ⟨fun h => h r, fun h _ => h⟩

lemma uses_releaseLockRef {key : Bytes} {Q : Except Exn Unit → Usage → Prop} (h : u.Ready key) :
    Uses (Sys.releaseLockRef key) Q u ↔ Q (.ok ()) { u with refs := u.refs.erase key } :=
  uses_unit (o := .releaseLockRef key) h (fun _ => rfl) (fun _ => rfl) ()

lemma uses_lock {key : Bytes} {Q : Except Exn Unit → Usage → Prop} (h : u.Ready key) :
    Uses (Sys.lock key) Q u ↔ Q (.ok ()) { u with exclusive := key :: u.exclusive } :=
  uses_unit (o := .lock key) h (fun _ => rfl) (fun _ => rfl) ()

lemma uses_lockShared {key : Bytes} {Q : Except Exn Unit → Usage → Prop} (h : u.Ready key) :
    Uses (Sys.lockShared key) Q u ↔ Q (.ok ()) { u with shared := key :: u.shared } :=
  uses_unit (o := .lockShared key) h (fun _ => rfl) (fun _ => rfl) ()

lemma uses_lockBoth {k₁ k₂ : Bytes} {Q : Except Exn Unit → Usage → Prop} (hne : k₁ ≠ k₂)
    (h₁ : u.Ready k₁) (h₂ : u.Ready k₂) :
    Uses (Sys.lockBoth k₁ k₂) Q u ↔ Q (.ok ()) { u with exclusive := k₁ :: k₂ :: u.exclusive } :=
  uses_unit (o := .lockBoth k₁ k₂) ⟨hne, h₁, h₂⟩ (fun _ => rfl) (fun _ => rfl) ()

lemma uses_unlock {key : Bytes} {Q : Except Exn Unit → Usage → Prop} (h : key ∈ u.exclusive) :
    Uses (Sys.unlock key) Q u ↔ Q (.ok ()) { u with
      exclusive := u.exclusive.erase key
      careless := u.careless || (u.writing && u.lost) } :=
  uses_unit (o := .unlock key) h (fun _ => rfl) (fun _ => rfl) ()

lemma uses_unlockShared {key : Bytes} {Q : Except Exn Unit → Usage → Prop} (h : key ∈ u.shared) :
    Uses (Sys.unlockShared key) Q u ↔ Q (.ok ()) { u with
      shared := u.shared.erase key
      careless := u.careless || (u.reading && !u.lost) } :=
  uses_unit (o := .unlockShared key) h (fun _ => rfl) (fun _ => rfl) ()

def Then {β : Type} (f : α → Code β) (Q : Except Exn β → Usage → Prop) : Except Exn α → Usage → Prop
  | .ok a, u => Uses (f a) Q u
  | .error e, u => Q (.error e) u

def Catching (h : Exn → Code α) (Q : Except Exn α → Usage → Prop) : Except Exn α → Usage → Prop
  | .ok a, u => Q (.ok a) u
  | .error e, u => Uses (h e) Q u

lemma uses_bind {p : Code α} {β : Type} {f : α → Code β} {Q : Except Exn β → Usage → Prop} :
    Uses (p >>= f) Q u ↔ Uses p (Then f Q) u := by
  rw [Prog.bind_eq, Uses, safe_bind]
  have hthen : safeBind after.next Allows f Q = Then f Q := by
    funext r t
    cases r <;> rfl
  rw [hthen]

lemma uses_tryCatch {p : Code α} {h : Exn → Code α} {Q : Except Exn α → Usage → Prop} :
    Uses (p.tryCatch h) Q u ↔ Uses p (Catching h Q) u := by
  rw [Uses, safe_tryCatch]
  have hcatch : safeTry after.next Allows h Q = Catching h Q := by
    funext r t
    cases r <;> rfl
  rw [hcatch]

@[simp] lemma then_ok {β : Type} (f : α → Code β) (Q : Except Exn β → Usage → Prop) (a : α) :
    Then f Q (.ok a) u ↔ Uses (f a) Q u := Iff.rfl

@[simp] lemma then_error {β : Type} (f : α → Code β) (Q : Except Exn β → Usage → Prop) (e : Exn) :
    Then f Q (.error e) u ↔ Q (.error e) u := Iff.rfl

@[simp] lemma catching_ok (h : Exn → Code α) (Q : Except Exn α → Usage → Prop) (a : α) :
    Catching h Q (.ok a) u ↔ Q (.ok a) u := Iff.rfl

@[simp] lemma catching_error (h : Exn → Code α) (Q : Except Exn α → Usage → Prop) (e : Exn) :
    Catching h Q (.error e) u ↔ Uses (h e) Q u := Iff.rfl

@[simp] lemma uses_pure (a : α) {Q : Except Exn α → Usage → Prop} :
    Uses (pure a) Q u ↔ Q (.ok a) u := Iff.rfl

@[simp] lemma uses_throw (e : Exn) {Q : Except Exn α → Usage → Prop} :
    Uses (.throw e : Code α) Q u ↔ Q (.error e) u := Iff.rfl

end Calls

section Transfers

variable {u : Usage}

lemma uses_sendLoop {Q : Except Exn Bool → Usage → Prop} {fuel : ℕ} {bs : Bytes}
    (hfuel : bs.length ≤ fuel) (hsent : Q (.ok true) u) (hlost : Q (.ok false) u.lose) :
    Uses (sendLoop fuel bs) Q u := by
  fun_induction sendLoop fuel bs with
  | case1 => exact hsent
  | case2 bs h => simp at hfuel; exact (h hfuel).elim
  | case3 fuel bs h ih =>
    refine ⟨trivial, ?_⟩
    rintro r _ ⟨⟩
    rcases r with _ | _ | n
    · exact hlost
    · exact hlost
    · refine ih (n + 1) ?_
      rw [List.length_drop]
      omega

lemma uses_sendAll {Q : Except Exn Bool → Usage → Prop} (bs : Bytes) (hsent : Q (.ok true) u)
    (hlost : Q (.ok false) u.lose) : Uses (sendAll bs) Q u := uses_sendLoop le_rfl hsent hlost

lemma uses_recvLoop {Q : Except Exn (Option Bytes) → Usage → Prop} {fuel n : ℕ} {got : Bytes}
    (hfuel : n ≤ fuel) (hgot : ∀ bs, Q (.ok (some bs)) u) (hlost : Q (.ok none) u.lose) :
    Uses (recvLoop fuel n got) Q u := by
  fun_induction recvLoop fuel n got with
  | case1 => exact hgot _
  | case2 n _ h => exact (h (by omega)).elim
  | case3 fuel n got h ih =>
    refine ⟨trivial, ?_⟩
    rintro r _ ⟨⟩
    rcases r with _ | _ | ⟨b, bs⟩
    · exact hlost
    · exact hlost
    · refine ih (b :: bs) ?_
      rw [List.length_cons]
      omega

lemma uses_recvAll {Q : Except Exn (Option Bytes) → Usage → Prop} (n : ℕ)
    (hgot : ∀ bs, Q (.ok (some bs)) u) (hlost : Q (.ok none) u.lose) : Uses (recvAll n) Q u :=
  uses_recvLoop le_rfl hgot hlost

lemma uses_sendField {Q : Except Exn Bool → Usage → Prop} (n : UInt64) (bs : Bytes)
    (hsent : Q (.ok true) u) (hlost : Q (.ok false) u.lose) : Uses (sendField n bs) Q u := by
  rw [sendField]
  split
  · exact uses_sendAll _ hsent hlost
  · exact hsent

lemma uses_sendMessageMeta {Q : Except Exn Bool → Usage → Prop} (host : Endian) (h : MessageHeader)
    (name f : Bytes) (hsent : Q (.ok true) u) (hlost : Q (.ok false) u.lose) :
    Uses (sendMessageMeta host h name f) Q u := by
  rw [sendMessageMeta, uses_bind]
  refine uses_sendAll _ ?_ hlost
  rw [then_ok, Bool.not_true, if_neg Bool.false_ne_true, uses_bind]
  refine uses_sendField _ _ ?_ hlost
  rw [then_ok, Bool.not_true, if_neg Bool.false_ne_true]
  exact uses_sendField _ _ hsent hlost

lemma uses_sendMessage {Q : Except Exn Bool → Usage → Prop} (host : Endian) (h : MessageHeader)
    (name f data : Bytes) (hsent : Q (.ok true) u) (hlost : Q (.ok false) u.lose) :
    Uses (sendMessage host h name f (some data)) Q u := by
  rw [sendMessage, uses_bind]
  refine uses_sendAll _ ?_ hlost
  rw [then_ok, Bool.not_true, if_neg Bool.false_ne_true, uses_bind]
  refine uses_sendField _ _ ?_ hlost
  rw [then_ok, Bool.not_true, if_neg Bool.false_ne_true, uses_bind]
  refine uses_sendField _ _ ?_ hlost
  rw [then_ok, Bool.not_true, if_neg Bool.false_ne_true]
  split
  · exact uses_sendAll _ hsent hlost
  · exact hsent

end Transfers

section Operations

open FileManager

variable {u : Usage} {p q : Bytes}

lemma uses_discardLoop {Q : Except Exn Bool → Usage → Prop} (fuel n : ℕ) (hread : Q (.ok true) u)
    (hlost : Q (.ok false) u.lose) : Uses (discardLoop fuel n) Q u := by
  induction fuel generalizing n with
  | zero => exact hread
  | succ fuel ih =>
    rw [discardLoop]
    split
    · rw [uses_bind]
      exact uses_recvAll _ (fun _ => ih _) hlost
    · exact hread

lemma uses_discardData {Q : Except Exn Unit → Usage → Prop} (size : UInt64) (hread : Q (.ok ()) u)
    (hlost : Q (.ok ()) u.lose) (hthrown : ∀ e, Q (.error e) u.thrown) :
    Uses (discardData size) Q u := by
  rw [discardData, uses_bind, notes_alloc]
  refine ⟨fun _ => ?_, hthrown⟩
  rw [then_ok, uses_bind]
  exact uses_discardLoop _ _ hread hlost

lemma uses_receiveLoop {Q : Except Exn Bool → Usage → Prop} (fuel n : ℕ) (good : Bool)
    (hread : Q (.ok true) u) (hlost : Q (.ok false) u.lose) :
    Uses (receiveLoop p fuel n good) Q u := by
  induction fuel generalizing n good with
  | zero => exact hread
  | succ fuel ih =>
    rw [receiveLoop]
    split
    · rw [uses_bind]
      refine uses_recvAll _ (fun bs => ?_) hlost
      rw [then_ok]
      cases good with
      | true =>
        dsimp only
        rw [if_pos rfl, uses_bind, ignores_write]
        exact fun _ => ih _ _
      | false => exact ih _ _
    · exact hread

lemma uses_streamLoop {Q : Except Exn Bool → Usage → Prop} (fuel offset : ℕ)
    (hsent : Q (.ok true) u) (hlost : Q (.ok false) u.lose) :
    Uses (streamLoop p fuel offset) Q u := by
  induction fuel generalizing offset with
  | zero => exact hsent
  | succ fuel ih =>
    rw [streamLoop, uses_bind, ignores_read]
    rintro ⟨buffer, good⟩
    have hrest : Uses (if good = true then streamLoop p fuel (offset + TRANSFER_BUFFER_SIZE)
        else pure true) Q u := by
      cases good with
      | true => exact ih _
      | false => exact hsent
    rw [then_ok]
    dsimp only
    split
    · rw [uses_bind]
      exact uses_sendAll _ hrest hlost
    · exact hrest

/-- How a locked section is left: done, or by an exception with all that it had. -/
def Left {α : Type} (shared exclusive : List Bytes) : Except Exn α → Usage → Prop
  | .ok _, u => u.Done
  | .error _, u => u.shared = shared ∧ u.exclusive = exclusive ∧ u.refs ≠ [] ∧ u.careless = true

lemma left_thrown {α : Type} {e : Exn} (h : u.refs ≠ []) :
    Left (α := α) u.shared u.exclusive (.error e) u.thrown := by
  refine ⟨rfl, rfl, h, ?_⟩
  cases hr : u.refs <;> simp_all [thrown]

/-- The operation writes to `p`. -/
def writer (p : Bytes) (opened : Bool) : Usage := ⟨[p], [], [p], opened, false, false, false⟩

def reader (p : Bytes) (opened : Bool) : Usage := ⟨[p], [p], [], false, opened, false, false⟩

lemma uses_leave {s e : List Bytes} (r : Bool) (hr : u.refs = [p]) (hs : u.shared = [])
    (he : u.exclusive = [p]) (hc : (u.careless || (u.writing && u.lost)) = false) :
    Uses (do
      Sys.unlock p
      Sys.releaseLockRef p
      pure r) (Left s e) u := by
  rw [uses_bind, uses_unlock (by simp [he]), then_ok, uses_bind,
    uses_releaseLockRef (by simp [Ready, hr, hs, he])]
  exact ⟨hs, by simp [he], by simp [hr, hc]⟩

lemma uses_saveLocked (name f : Bytes) (size : UInt64) :
    Uses (saveLocked name f p size) (Left [] [p]) (writer p false) := by
  have hthrown : ∀ e b, Left (α := Bool) [] [p] (.error e) (writer p b).thrown :=
    fun e b => left_thrown (u := writer p b) (by simp [writer])
  rw [saveLocked, uses_bind, uses_openOut]
  intro b
  have hb : { writer p false with writing := (writer p false).writing || b } = writer p b := by
    simp [writer]
  rw [hb, then_ok]
  cases b with
  | false =>
    rw [Bool.not_false, if_pos rfl, uses_bind, notes_log]
    refine ⟨fun _ => ?_, fun e => hthrown e _⟩
    rw [then_ok, uses_bind]
    refine uses_discardData size ?_ ?_ (fun e => hthrown e _)
    · exact uses_leave false rfl rfl rfl rfl
    · exact uses_leave false rfl rfl rfl rfl
  | true =>
    rw [Bool.not_true, if_neg Bool.false_ne_true, uses_bind, notes_alloc]
    refine ⟨fun _ => ?_, fun e => hthrown e _⟩
    rw [then_ok, uses_bind]
    refine uses_receiveLoop _ _ _ ?_ ?_
    · rw [then_ok, if_pos rfl, uses_bind, ignores_closeOut]
      intro _
      rw [then_ok, uses_bind, notes_addFile]
      refine ⟨fun _ => ?_, fun e => hthrown e _⟩
      rw [then_ok, uses_bind, notes_log]
      exact ⟨fun _ => uses_leave true rfl rfl rfl rfl, fun e => hthrown e _⟩
    · have hlost : ∀ e, Left (α := Bool) [] [p] (.error e) (writer p true).lose.thrown :=
        fun e => left_thrown (u := (writer p true).lose) (by simp [writer, lose])
      rw [then_ok, if_neg Bool.false_ne_true, uses_bind, notes_log]
      refine ⟨fun _ => ?_, fun e => hlost e⟩
      rw [then_ok, uses_bind, ignores_closeOut]
      intro _
      rw [then_ok, uses_bind, notes_fsRemove]
      refine ⟨fun _ => ?_, fun e => hlost e⟩
      rw [then_ok, uses_bind, uses_unlock (by simp [writer, lose])]
      exact ⟨rfl, by simp [writer, lose], by simp [writer, lose]⟩

abbrev Finishes {α : Type} (p : Code α) (u : Usage) : Prop := Uses p (fun _ t => t.Done) u

lemma finishes_onThrow {α : Type} {s e : List Bytes} {code : Code α} {cleanup : Code Unit}
    (h : Uses code (Left s e) u)
    (hcleanup : ∀ v : Usage, v.shared = s → v.exclusive = e → v.refs ≠ [] → v.careless = true →
      Uses cleanup (fun _ t => t.Done) v) : Finishes (code.onThrow cleanup) u := by
  rw [Prog.onThrow, Finishes, uses_tryCatch]
  refine safe_mono h ?_
  rintro (err | a) t ht
  · obtain ⟨hs, he, hr, hc⟩ := ht
    rw [catching_error]
    refine (uses_bind (p := cleanup)).mpr (safe_mono (hcleanup t hs he hr hc) ?_)
    rintro (_ | _) t ht <;> exact ht
  · exact ht

lemma finishes_unlock (hs : u.shared = []) (he : u.exclusive = [p]) (hr : u.refs ≠ [])
    (hc : u.careless = true) : Finishes (Sys.unlock p) u := by
  rw [Finishes, uses_unlock (by simp [he])]
  exact ⟨hs, by simp [he], by simp [hr, hc]⟩

lemma finishes_unlockShared (hs : u.shared = [p]) (he : u.exclusive = []) (hr : u.refs ≠ [])
    (hc : u.careless = true) : Finishes (Sys.unlockShared p) u := by
  rw [Finishes, uses_unlockShared (by simp [hs])]
  exact ⟨by simp [hs], he, by simp [hr, hc]⟩

lemma finishes_log {α : Type} (a : α) (h : u.Done) :
    Finishes (do
      Sys.log
      pure a) u := by
  rw [Finishes, uses_bind, notes_log]
  exact ⟨fun _ => h, fun _ => h.thrown⟩

lemma finishes_discardData (size : UInt64) (h : u.Done) : Finishes (discardData size) u :=
  uses_discardData size h h.lose (fun _ => h.thrown)

lemma finishes_discard {α : Type} (size : UInt64) (a : α) (h : u.Done) :
    Finishes (do
      Sys.log
      discardData size
      pure a) u := by
  rw [Finishes, uses_bind, notes_log]
  refine ⟨fun _ => ?_, fun _ => h.thrown⟩
  rw [then_ok, uses_bind]
  exact uses_discardData size h h.lose (fun _ => h.thrown)

lemma finishes_acquire {α : Type} {code : Code α}
    (h : Finishes code ⟨[p], [], [], false, false, false, false⟩) :
    Finishes (do
      Sys.acquireLockRef p
      code) start := by
  rw [Finishes, uses_bind, uses_acquireLockRef (by simp [start])]
  exact ⟨h, fun _ => done_start⟩

lemma ready_single : Ready ⟨[p], [], [], false, false, false, false⟩ p := by simp [Ready]

lemma finishes_saveFile (name f : Bytes) (size : UInt64) :
    Finishes (saveFile name f size) start := by
  have hinto : ∀ dir, Finishes (saveInto name f dir size) start := by
    intro dir
    rw [saveInto]
    split
    · exact finishes_discard size false done_start
    · rw [Finishes, uses_bind, notes_pathAppend]
      refine ⟨fun path => ?_, fun _ => done_start⟩
      rw [then_ok]
      refine finishes_acquire ?_
      rw [Finishes, uses_bind, uses_lock ready_single]
      refine finishes_onThrow (uses_saveLocked name f size) (fun v => finishes_unlock)
  rw [saveFile, Finishes, uses_tryCatch, trySaveFile]
  refine safe_mono (?_ : Finishes _ start) ?_
  · rw [Finishes, uses_bind, notes_pathAppend]
    refine ⟨fun dir => ?_, fun _ => done_start⟩
    rw [then_ok, uses_bind, ensureDir, uses_bind, notes_fsExists]
    refine ⟨fun b => ?_, fun _ => done_start⟩
    rw [then_ok]
    split
    · rw [notes_createDirectories]
      exact ⟨fun _ => hinto dir, fun _ => done_start⟩
    · exact hinto dir
  · rintro (e | b) t ht
    · exact finishes_discard size false ht
    · exact ht

lemma uses_streamLocked : Uses (streamLocked p) (Left [p] []) (reader p false) := by
  have hthrown : ∀ e b, Left (α := Bool) [p] [] (.error e) (reader p b).thrown :=
    fun e b => left_thrown (u := reader p b) (by simp [reader])
  have hleave : ∀ {u : Usage}, u.refs = [p] → u.shared = [p] → u.exclusive = [] →
      (u.careless || (u.reading && !u.lost)) = false → Uses (do
        Sys.unlockShared p
        Sys.releaseLockRef p
        pure false) (Left [p] []) u := by
    intro u hr hs he hc
    rw [uses_bind, uses_unlockShared (by simp [hs]), then_ok, uses_bind,
      uses_releaseLockRef (by simp [Ready, hr, hs, he])]
    exact ⟨by simp [hs], he, by simp [hr, hc]⟩
  rw [streamLocked, uses_bind, uses_openIn]
  intro b
  have hb : { reader p false with reading := (reader p false).reading || b } = reader p b := by
    simp [reader]
  rw [hb, then_ok]
  cases b with
  | false =>
    rw [Bool.not_false, if_pos rfl, uses_bind, notes_log]
    exact ⟨fun _ => hleave rfl rfl rfl rfl, fun e => hthrown e _⟩
  | true =>
    rw [Bool.not_true, if_neg Bool.false_ne_true, uses_bind, notes_alloc]
    refine ⟨fun _ => ?_, fun e => hthrown e _⟩
    rw [then_ok, uses_bind]
    refine uses_streamLoop _ _ ?_ ?_
    · rw [then_ok, if_pos rfl, uses_bind, notes_log]
      refine ⟨fun _ => ?_, fun e => hthrown e _⟩
      rw [then_ok, uses_bind, uses_unlockShared (by simp [reader])]
      exact ⟨by simp [reader], rfl, by simp [reader]⟩
    · rw [then_ok, if_neg Bool.false_ne_true, uses_bind, notes_log]
      have hlost : ∀ e, Left (α := Bool) [p] [] (.error e) (reader p true).lose.thrown :=
        fun e => left_thrown (u := (reader p true).lose) (by simp [reader, lose])
      exact ⟨fun _ => hleave rfl rfl rfl rfl, fun e => hlost e⟩

lemma finishes_streamFileToSocket (name f : Bytes) :
    Finishes (streamFileToSocket name f) start := by
  rw [streamFileToSocket, Finishes, uses_tryCatch, tryStreamFile]
  refine safe_mono (?_ : Finishes _ start) ?_
  · split
    · exact done_start
    rw [Finishes, uses_bind, notes_pathAppend]
    refine ⟨fun dir => ?_, fun _ => done_start⟩
    rw [then_ok, uses_bind, notes_pathAppend]
    refine ⟨fun path => ?_, fun _ => done_start⟩
    rw [then_ok]
    refine finishes_acquire ?_
    rw [Finishes, uses_bind, uses_lockShared ready_single]
    exact finishes_onThrow uses_streamLocked (fun v => finishes_unlockShared)
  · rintro (e | b) t ht
    · exact finishes_log false ht
    · exact ht

lemma uses_deleteLocked (name f : Bytes) :
    Uses (deleteLocked name f p) (Left [] [p]) (writer p false) := by
  have hthrown : ∀ e, Left (α := Bool) [] [p] (.error e) (writer p false).thrown :=
    fun e => left_thrown (u := writer p false) (by simp [writer])
  rw [deleteLocked, uses_bind, notes_fsRemove]
  refine ⟨fun b => ?_, fun e => hthrown e⟩
  rw [then_ok]
  cases b with
  | true =>
    rw [if_pos rfl, uses_bind, notes_removeFile]
    exact ⟨fun _ => uses_leave true rfl rfl rfl rfl, fun e => hthrown e⟩
  | false => exact uses_leave false rfl rfl rfl rfl

lemma finishes_deleteFile (name f : Bytes) : Finishes (deleteFile name f) start := by
  rw [deleteFile, Finishes, uses_tryCatch, tryDeleteFile]
  refine safe_mono (?_ : Finishes _ start) ?_
  · split
    · exact done_start
    rw [Finishes, uses_bind, notes_pathAppend]
    refine ⟨fun dir => ?_, fun _ => done_start⟩
    rw [then_ok, uses_bind, notes_pathAppend]
    refine ⟨fun path => ?_, fun _ => done_start⟩
    rw [then_ok]
    refine finishes_acquire ?_
    rw [Finishes, uses_bind, uses_lock ready_single]
    exact finishes_onThrow (uses_deleteLocked name f) (fun v => finishes_unlock)
  · rintro (e | b) t ht <;> exact ht

/-- The operation moves `p` to `q`. -/
def mover (p q : Bytes) : Usage := ⟨[q, p], [], [p, q], false, false, false, false⟩

lemma uses_leaveBoth (hpq : p ≠ q) (r : Bool) :
    Uses (do
      unlockBoth p q
      releaseBoth p q
      pure r) (Left [] [p, q]) (mover p q) := by
  have hqp : q ≠ p := hpq.symm
  rw [uses_bind, unlockBoth, uses_bind, uses_unlock (by simp [mover]), then_ok,
    uses_unlock (by simp [mover]), then_ok, uses_bind, releaseBoth, uses_bind,
    uses_releaseLockRef (by simp [Ready, mover]), then_ok,
    uses_releaseLockRef (by simp [Ready, mover, hqp])]
  exact ⟨rfl, by simp [mover], by simp [mover, hqp]⟩

lemma uses_renameLocked (hpq : p ≠ q) (name f g : Bytes) :
    Uses (renameLocked name f g p q) (Left [] [p, q]) (mover p q) := by
  have hthrown : ∀ e, Left (α := Bool) [] [p, q] (.error e) (mover p q).thrown :=
    fun e => left_thrown (u := mover p q) (by simp [mover])
  have hcheck : ∀ b : Bool, Then (fun missing => if missing = true then do
        unlockBoth p q
        releaseBoth p q
        pure false
      else do
        Sys.fsRename p q
        let size ← Sys.getFileSize (indexDir name) f
        Sys.removeFile (indexDir name) f
        Sys.addFile (indexDir name) g size
        unlockBoth p q
        releaseBoth p q
        pure true) (Left [] [p, q]) (.ok b) (mover p q) := by
    intro b
    rw [then_ok]
    cases b with
    | true => exact uses_leaveBoth hpq false
    | false =>
      rw [if_neg Bool.false_ne_true, uses_bind, notes_fsRename]
      refine ⟨fun _ => ?_, fun e => hthrown e⟩
      rw [then_ok, uses_bind, ignores_getFileSize]
      intro size
      rw [then_ok, uses_bind, notes_removeFile]
      refine ⟨fun _ => ?_, fun e => hthrown e⟩
      rw [then_ok, uses_bind, notes_addFile]
      exact ⟨fun _ => uses_leaveBoth hpq true, fun e => hthrown e⟩
  rw [renameLocked, uses_bind, uses_bind, notes_fsExists]
  refine ⟨fun b => ?_, fun e => hthrown e⟩
  rw [then_ok]
  cases b with
  | false => exact hcheck true
  | true =>
    rw [Bool.not_true, if_neg Bool.false_ne_true, notes_fsExists]
    exact ⟨hcheck, fun e => hthrown e⟩

lemma finishes_renameFile (name f g : Bytes) : Finishes (renameFile name f g) start := by
  rw [renameFile, Finishes, uses_tryCatch, tryRenameFile]
  refine safe_mono (?_ : Finishes _ start) ?_
  · split
    · exact done_start
    rw [Finishes, uses_bind, notes_pathAppend]
    refine ⟨fun _ => ?_, fun _ => done_start⟩
    rw [then_ok, uses_bind, notes_pathAppend]
    refine ⟨fun path => ?_, fun _ => done_start⟩
    rw [then_ok, uses_bind, notes_pathAppend]
    refine ⟨fun _ => ?_, fun _ => done_start⟩
    rw [then_ok, uses_bind, notes_pathAppend]
    refine ⟨fun path' => ?_, fun _ => done_start⟩
    rw [then_ok]
    split
    · exact done_start
    · rename_i hne
      have hne' : path' ≠ path := Ne.symm hne
      refine finishes_acquire ?_
      rw [Finishes, uses_bind, uses_acquireLockRef (by simpa using hne')]
      refine ⟨?_, fun e => ⟨rfl, rfl, by simp [thrown]⟩⟩
      rw [then_ok, uses_bind, uses_lockBoth hne (by simp [Ready]) (by simp [Ready])]
      refine finishes_onThrow (uses_renameLocked hne name f g) ?_
      intro v hs he hr hc
      rw [unlockBoth, uses_bind, uses_unlock (by simp [he]), then_ok,
        uses_unlock (by simp [he, hne])]
      exact ⟨hs, by simp [he, hne], by simp [hr, hc]⟩
  · rintro (e | b) t ht <;> exact ht

end Operations

section Requests

open FileManager Server

lemma finishes_dispatch (host : Endian) (name : Bytes) (req : Request) (payload : Bytes) :
    Finishes (dispatch host name req payload) start := by
  have hend : ∀ {r : Except Exn (Reply × Bytes)} {t : Usage}, t.Done →
      (fun (_ : Except Exn (Reply × Bytes)) (t : Usage) => t.Done) r t := fun h => h
  have hbool : ∀ {code : Code Bool} {a b : Reply}, Finishes code start →
      Finishes (do
        if ← code then pure a
        else pure b) start := by
    intro code a b h
    rw [Finishes, uses_bind]
    refine safe_mono h ?_
    rintro (_ | _ | _) t ht <;> exact ht
  have hpair : ∀ {code : Code Reply}, Finishes code start →
      Finishes (do
        pure (← code, name)) start := by
    intro code h
    rw [Finishes, uses_bind]
    refine safe_mono h ?_
    rintro (_ | _) t ht <;> exact ht
  rw [dispatch]
  split
  · exact finishes_log _ done_start
  · refine hpair ?_
    rw [upload]
    split
    · rw [Finishes, uses_bind]
      refine safe_mono (finishes_discardData _ done_start) ?_
      rintro (_ | _) t ht <;> exact ht
    · exact hbool (finishes_saveFile _ _ _)
  · refine hpair ?_
    rw [download]
    split
    · exact done_start
    rw [Finishes, uses_bind, FileManager.getFileSize, uses_bind, ignores_fileExists]
    intro found
    have hsize : ∀ size : UInt64, Then (fun fileSize => if fileSize = -1 then
          pure (respond req.header.command .notFound (bytes "File not found."))
        else do
          if !(← sendMessageMeta host (makeResponse req.header.command .ok fileSize) [] []) then
            pure (.ended .headerLost)
          else if !(← streamFileToSocket name req.filename) then pure (.ended .streamFailed)
          else pure .streamed) (fun _ t => t.Done) (.ok size) start := by
      intro size
      rw [then_ok]
      split
      · exact done_start
      rw [uses_bind]
      refine uses_sendMessageMeta _ _ _ _ ?_ done_start.lose
      rw [then_ok, Bool.not_true, if_neg Bool.false_ne_true, uses_bind]
      refine safe_mono (finishes_streamFileToSocket _ _) ?_
      rintro (_ | _ | _) t ht <;> exact ht
    rw [then_ok]
    cases found with
    | true =>
      rw [Bool.not_true, if_neg Bool.false_ne_true, ignores_getFileSize]
      exact hsize
    | false => exact hsize (-1)
  · refine hpair ?_
    rw [list]
    split
    · exact done_start
    · rw [Finishes, uses_bind, listFiles, uses_bind, ignores_listDirectory]
      exact fun _ => done_start
  · refine hpair ?_
    rw [delete]
    split
    · exact done_start
    · exact hbool (finishes_deleteFile _ _)
  · refine hpair ?_
    rw [rename]
    split
    · exact done_start
    · exact hbool (finishes_renameFile _ _ _)
  · refine hpair ?_
    rw [quit, Finishes, uses_bind]
    exact uses_sendMessage _ _ _ _ _ done_start done_start.lose
  · exact done_start

end Requests

end Usage

end Mtfss
