import Mtfss.Server.LockUse

/-! How one round of a session uses the lock manager. -/

namespace Mtfss.Usage

open Effects Server

variable {α : Type} {u : Usage}

section Receiving

lemma uses_recvHeader {Q : Except Exn (Option MessageHeader) → Usage → Prop} (host : Endian)
    (hgot : ∀ h, Q (.ok (some h)) u) (hlost : Q (.ok none) u.lose) :
    Uses (recvHeader host) Q u := by
  rw [recvHeader, uses_bind]
  exact uses_recvAll _ (fun bs => hgot _) hlost

lemma uses_recvField {Q : Except Exn (Option Bytes) → Usage → Prop} (n : UInt64)
    (hgot : ∀ bs, Q (.ok (some bs)) u) (hlost : Q (.ok none) u.lose)
    (hthrown : ∀ e, Q (.error e) u.thrown) : Uses (recvField n) Q u := by
  rw [recvField]
  split
  · rw [uses_bind, notes_alloc]
    exact ⟨fun _ => uses_recvAll _ hgot hlost, hthrown⟩
  · exact hgot []

lemma uses_recvMessageMeta {Q : Except Exn (Option Request) → Usage → Prop} (host : Endian)
    (hgot : ∀ req, Q (.ok (some req)) u) (hlost : Q (.ok none) u.lose)
    (hthrown : ∀ e, Q (.error e) u.thrown) : Uses (recvMessageMeta host) Q u := by
  rw [recvMessageMeta, uses_bind]
  refine uses_recvHeader host (fun h => ?_) hlost
  rw [then_ok, uses_bind]
  refine uses_recvField _ (fun username => ?_) hlost hthrown
  rw [then_ok, uses_bind]
  exact uses_recvField _ (fun filename => hgot _) hlost hthrown

lemma uses_recvPayload {Q : Except Exn (Option Bytes) → Usage → Prop} (h : MessageHeader)
    (hgot : ∀ bs, Q (.ok (some bs)) u) (hlost : Q (.ok none) u.lose)
    (hthrown : ∀ e, Q (.error e) u.thrown) : Uses (recvPayload h) Q u := by
  rw [recvPayload]
  split
  · rw [uses_bind, notes_alloc]
    exact ⟨fun _ => uses_recvAll _ hgot hlost, hthrown⟩
  · exact hgot []

end Receiving

/-- Without locks nothing changes about what is owed. -/
lemma Done.after (h : u.Done) {o : Call} (ho : o.isLock = false) (r : Answer o) :
    (Usage.after o u r).Done := by
  have hnoting : ∀ {β : Type} (x : Except Exn β), (u.noting x).Done := by
    rintro β (e | b)
    · exact h.thrown
    · exact h
  have hopen : ∀ w r, Done { u with writing := w, reading := r } := fun _ _ => ⟨h.1, h.2, h.3⟩
  cases o <;> simp only [Call.isLock, Bool.true_eq_false] at ho <;>
    first
      | exact h
      | exact hnoting r
      | exact hopen _ _
      | (simp only [Usage.after]; split <;> first | exact h.lose | exact h)

lemma finishes_lockless {p : Code α} (hp : p.Calls (fun _ _ => True) (fun o => o.isLock = false))
    (h : u.Done) : Finishes p u := by
  induction p generalizing u with
  | pure a => exact h
  | throw e => exact h
  | op o k ih =>
    refine Monitor.safe_op.mpr ⟨?_, fun r => ih r (hp.2 r trivial) (h.after hp.1 r)⟩
    have ho := hp.1
    cases o <;> trivial

lemma finishes_sendReply (host : Endian) (reply : Reply) (user : Bytes) (h : u.Done) :
    Finishes (sendReply host reply user) u := by
  refine finishes_lockless ?_ h
  cases reply with
  | message header payload =>
    refine .bind (calls_sendMessage (fun _ _ => rfl) _ _ _ _ _) ?_
    rintro (_ | _) <;> trivial
  | streamed => trivial
  | ended exit => trivial

lemma finishes_leave (exit : Exit) (h : u.Done) :
    Finishes (endSession.bind fun _ => (.pure (.inl exit) : Code (Exit ⊕ Bytes))) u := by
  refine finishes_lockless ?_ h
  exact .bind ⟨rfl, fun _ _ => ⟨rfl, fun _ _ => ⟨rfl, fun _ _ => Prog.calls_ofExcept _⟩⟩⟩
    fun _ => trivial

lemma finishes_handleRequest (host : Endian) (user : Bytes) :
    Finishes (handleRequest host user) start := by
  rw [handleRequest, Finishes, uses_bind]
  refine uses_recvMessageMeta host (fun req => ?_) done_start.lose (fun _ => done_start.thrown)
  rw [then_ok, uses_bind, notes_log]
  refine ⟨fun _ => ?_, fun _ => done_start⟩
  rw [then_ok, uses_bind]
  refine uses_recvPayload _ (fun payload => ?_) done_start.lose (fun _ => done_start.thrown)
  rw [then_ok, uses_bind]
  refine safe_mono (finishes_dispatch host user req payload) ?_
  rintro (e | ⟨reply, user'⟩) t ht
  · exact ht
  · exact finishes_sendReply host reply user' ht

lemma finishes_round (host : Endian) (user : Bytes) : Finishes (round host user) start := by
  refine Monitor.safe_op.mpr ⟨trivial, ?_⟩
  rintro (_ | _)
  · exact finishes_leave _ done_start
  show Finishes ((handleRequest host user).bind _) start
  refine safe_bind_of (finishes_handleRequest host user) ?_
  rintro (e | exit | user') t ht
  · exact ht
  · exact finishes_leave exit ht
  · exact ht

lemma finishes_handleClient (host : Endian) : Finishes (handleClient host) start :=
  Monitor.safe_op.mpr ⟨trivial, fun _ => finishes_round host []⟩

end Mtfss.Usage
