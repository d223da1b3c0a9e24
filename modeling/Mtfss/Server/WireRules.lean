import Mtfss.Server.Wire

/-! What the operations of the server do to the connection. -/

namespace Mtfss

open Effects

namespace Wire

variable {α : Type} {w : Wire}

def wired : Wired wireNext where
  conn := Wire.conn
  put w c := { w with conn := c }
  conn_put _ _ := rfl
  put_put _ _ _ := rfl
  put_conn _ := rfl
  recv _ _ _ := rfl
  send _ _ _ _ := rfl

@[simp] lemma wired_conn : wired.conn w = w.conn := rfl

@[simp] lemma wired_put (c : Conn) : wired.put w c = { w with conn := c } := rfl

lemma wp_free {o : Call} {k : Answer o → Code α} {Q : Except Exn α → Wire → Prop} (r₀ : Answer o)
    (h : ∀ r, wireNext o w r = some w) :
    wp wireNext (.op o k) Q w ↔ ∀ r, wp wireNext (k r) Q w := by
  simp only [wp_op, h]
  constructor
  · rintro ⟨-, hall⟩ r
    exact hall r w rfl
  · intro hall
    refine ⟨⟨r₀, w, rfl⟩, ?_⟩
    rintro r t ⟨⟩
    exact hall r

lemma wp_free_throwing {o : Call} {k : Answer o → Code α} {f : Answer o → Except Exn α}
    {Q : Except Exn α → Wire → Prop} (r₀ : Answer o) (h : ∀ r, wireNext o w r = some w)
    (hk : ∀ r, k r = .ofExcept (f r)) :
    wp wireNext (.op o k) Q w ↔ ∀ r, Q (f r) w := by
  simp only [wp_free r₀ h, hk, wp_ofExcept]

lemma wp_silent (o : Call) {k : Answer o → Code α} {Q : Except Exn α → Wire → Prop} (r₀ : Answer o)
    (h : ∀ r, wireNext o w r = some w) (hr : ∀ r, r = r₀) :
    wp wireNext (.op o k) Q w ↔ wp wireNext (k r₀) Q w := by
  rw [wp_free r₀ h]
  exact ⟨fun hall => hall r₀, fun hw r => hr r ▸ hw⟩

lemma wp_reliable (o : Call) {k : Answer o → Code α} {Q : Except Exn α → Wire → Prop}
    (r₀ : Answer o) (h : ∀ r t, wireNext o w r = some t ↔ r = r₀ ∧ t = w) :
    wp wireNext (.op o k) Q w ↔ wp wireNext (k r₀) Q w :=
  wp_op_unique r₀ w h

section Calls

@[simp] lemma wp_pathAppend {Q : Except Exn Bytes → Wire → Prop} (p q : Bytes) :
    wp wireNext (Sys.pathAppend p q) Q w ↔ ∀ r, Q r w :=
  wp_free_throwing (.ok []) (fun _ => rfl) (fun _ => rfl)

@[simp] lemma wp_fsExists {Q : Except Exn Bool → Wire → Prop} (p : Bytes) :
    wp wireNext (Sys.fsExists p) Q w ↔ ∀ r, Q r w :=
  wp_free_throwing (.ok true) (fun _ => rfl) (fun _ => rfl)

@[simp] lemma wp_createDirectories {Q : Except Exn Unit → Wire → Prop} (p : Bytes) :
    wp wireNext (Sys.createDirectories p) Q w ↔ ∀ r, Q r w :=
  wp_free_throwing (.ok ()) (fun _ => rfl) (fun _ => rfl)

@[simp] lemma wp_fsRemove {Q : Except Exn Bool → Wire → Prop} (p : Bytes) :
    wp wireNext (Sys.fsRemove p) Q w ↔ ∀ r, Q r w :=
  wp_free_throwing (.ok true) (fun _ => rfl) (fun _ => rfl)

@[simp] lemma wp_fsRename {Q : Except Exn Unit → Wire → Prop} (p q : Bytes) :
    wp wireNext (Sys.fsRename p q) Q w ↔ ∀ r, Q r w :=
  wp_free_throwing (.ok ()) (fun _ => rfl) (fun _ => rfl)

@[simp] lemma wp_openOut {Q : Except Exn Bool → Wire → Prop} (p : Bytes) :
    wp wireNext (Sys.openOut p) Q w ↔ ∀ r, Q (.ok r) w := wp_free true (fun _ => rfl)

@[simp] lemma wp_openIn {Q : Except Exn Bool → Wire → Prop} (p : Bytes) :
    wp wireNext (Sys.openIn p) Q w ↔ ∀ r, Q (.ok r) w := wp_free true (fun _ => rfl)

@[simp] lemma wp_write {Q : Except Exn (Option ℕ) → Wire → Prop} (p data : Bytes) :
    wp wireNext (Sys.write p data) Q w ↔ ∀ r, Q (.ok r) w := wp_free none (fun _ => rfl)

@[simp] lemma wp_closeOut {Q : Except Exn (Option ℕ) → Wire → Prop} (p : Bytes) :
    wp wireNext (Sys.closeOut p) Q w ↔ ∀ r, Q (.ok r) w := wp_free none (fun _ => rfl)

@[simp] lemma wp_releaseLockRef {Q : Except Exn Unit → Wire → Prop} (key : Bytes) :
    wp wireNext (Sys.releaseLockRef key) Q w ↔ Q (.ok ()) w :=
  wp_silent (.releaseLockRef key) () (fun _ => rfl) (fun _ => rfl)

@[simp] lemma wp_lock {Q : Except Exn Unit → Wire → Prop} (key : Bytes) :
    wp wireNext (Sys.lock key) Q w ↔ Q (.ok ()) w :=
  wp_silent (.lock key) () (fun _ => rfl) (fun _ => rfl)

@[simp] lemma wp_unlock {Q : Except Exn Unit → Wire → Prop} (key : Bytes) :
    wp wireNext (Sys.unlock key) Q w ↔ Q (.ok ()) w :=
  wp_silent (.unlock key) () (fun _ => rfl) (fun _ => rfl)

@[simp] lemma wp_lockShared {Q : Except Exn Unit → Wire → Prop} (key : Bytes) :
    wp wireNext (Sys.lockShared key) Q w ↔ Q (.ok ()) w :=
  wp_silent (.lockShared key) () (fun _ => rfl) (fun _ => rfl)

@[simp] lemma wp_unlockShared {Q : Except Exn Unit → Wire → Prop} (key : Bytes) :
    wp wireNext (Sys.unlockShared key) Q w ↔ Q (.ok ()) w :=
  wp_silent (.unlockShared key) () (fun _ => rfl) (fun _ => rfl)

@[simp] lemma wp_lockBoth {Q : Except Exn Unit → Wire → Prop} (k₁ k₂ : Bytes) :
    wp wireNext (Sys.lockBoth k₁ k₂) Q w ↔ Q (.ok ()) w :=
  wp_silent (.lockBoth k₁ k₂) () (fun _ => rfl) (fun _ => rfl)

@[simp] lemma wp_fileExists {Q : Except Exn Bool → Wire → Prop} (dir name : Bytes) :
    wp wireNext (Sys.fileExists dir name) Q w ↔ ∀ r, Q (.ok r) w := wp_free true (fun _ => rfl)

@[simp] lemma wp_getFileSize {Q : Except Exn UInt64 → Wire → Prop} (dir name : Bytes) :
    wp wireNext (Sys.getFileSize dir name) Q w ↔ ∀ r, Q (.ok r) w := wp_free 0 (fun _ => rfl)

@[simp] lemma wp_acquireLockRef {Q : Except Exn Unit → Wire → Prop} (key : Bytes) :
    wp wireNext (Sys.acquireLockRef key) Q w ↔ Q (.ok ()) w :=
  wp_reliable (.acquireLockRef key) (.ok ()) (fun _ _ => Rules.answer_eq_some)

@[simp] lemma wp_removeFile {Q : Except Exn Unit → Wire → Prop} (dir name : Bytes) :
    wp wireNext (Sys.removeFile dir name) Q w ↔ Q (.ok ()) w :=
  wp_reliable (.removeFile dir name) (.ok ()) (fun _ _ => Rules.answer_eq_some)

@[simp] lemma wp_alloc {Q : Except Exn Unit → Wire → Prop} (size : ℕ) :
    wp wireNext (Sys.alloc size) Q w ↔ Q (.ok ()) w :=
  wp_reliable (.alloc size) (.ok ()) (fun _ _ => Rules.answer_eq_some)

@[simp] lemma wp_log {Q : Except Exn Unit → Wire → Prop} :
    wp wireNext Sys.log Q w ↔ Q (.ok ()) w :=
  wp_reliable .log (.ok ()) (fun _ _ => Rules.answer_eq_some)

@[simp] lemma wp_addFile {Q : Except Exn Unit → Wire → Prop} (dir name : Bytes) (size : UInt64) :
    wp wireNext (Sys.addFile dir name size) Q w ↔ Q (.ok ()) w := by
  refine (wp_free [] (fun _ => rfl)).trans ?_
  constructor
  · intro h
    exact (wp_reliable (.addFile dir name size _) (.ok ()) (fun _ _ => Rules.answer_eq_some)).mp
      (h [])
  · intro h time
    exact (wp_reliable (.addFile dir name size _) (.ok ()) (fun _ _ => Rules.answer_eq_some)).mpr h

@[simp] lemma wp_activeConnections {Q : Except Exn Unit → Wire → Prop} (delta : ℤ) :
    wp wireNext (Sys.activeConnections delta) Q w ↔ Q (.ok ()) w :=
  wp_silent (.activeConnections delta) () (fun _ => rfl) (fun _ => rfl)

@[simp] lemma wp_closesocket {Q : Except Exn Unit → Wire → Prop} :
    wp wireNext Sys.closesocket Q w ↔ Q (.ok ()) { w with conn := w.conn.close } := by
  constructor
  · rintro ⟨-, h⟩
    exact h () _ rfl
  · intro h
    refine ⟨⟨(), _, rfl⟩, ?_⟩
    rintro _ _ ⟨⟩
    exact h

@[simp] lemma wp_running {Q : Except Exn Bool → Wire → Prop} :
    wp wireNext Sys.running Q w ↔ Q (.ok true) w ∧ Q (.ok false) { w with stopped := true } := by
  simp only [Sys.running, wp_op, Bool.exists_bool, Bool.forall_bool, wireNext, wp_pure]
  simp [and_comm]

lemma wp_listDirectory {Q : Except Exn (List FileMetadata) → Wire → Prop} (dir : Bytes)
    (h : ∀ files, (FileManager.renderListing files).length < 2 ^ 31 → Q (.ok files) w) :
    wp wireNext (Sys.listDirectory dir) Q w := by
  refine ⟨⟨[], w, rfl⟩, ?_⟩
  intro files t ht
  simp only [wireNext, smallAnswer, decide_eq_true_eq, Option.ite_none_right_eq_some] at ht
  obtain ⟨hsmall, ⟨⟩⟩ := ht
  exact h files hsmall

lemma wp_read {Q : Except Exn (Bytes × Bool) → Wire → Prop} (p : Bytes) (offset count : ℕ)
    (h : ∀ bs good, bs.length ≤ count → Q (.ok (bs, good)) w) :
    wp wireNext (Sys.read p offset count) Q w := by
  refine ⟨⟨([], true), w, rfl⟩, ?_⟩
  rintro ⟨bs, good⟩ t ht
  simp only [wireNext, Option.ite_none_right_eq_some] at ht
  obtain ⟨hlen, ⟨⟩⟩ := ht
  exact h bs good hlen

end Calls

lemma trace_mono {o : Call} {w' : Wire} {r : Answer o} (h : wireNext o w r = some w') :
    w.conn.trace <+: w'.conn.trace := by
  cases o with
  | recv count =>
    obtain ⟨c, hc, rfl⟩ := Option.map_eq_some_iff.mp h
    exact Conn.recv_trace hc
  | send data count =>
    obtain ⟨c, hc, rfl⟩ := Option.map_eq_some_iff.mp h
    exact Conn.send_trace hc
  | closesocket =>
    cases h
    exact List.prefix_rfl
  | running =>
    cases r <;> cases h <;> exact List.prefix_rfl
  | _ =>
    simp only [wireNext, answer, Option.ite_none_right_eq_some, Option.some.injEq] at h
    exact h.2 ▸ List.prefix_rfl

end Wire

end Mtfss
