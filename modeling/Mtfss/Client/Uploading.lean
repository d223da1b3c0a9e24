import Mtfss.Client.Client
import Mtfss.Common.Framing
import Mtfss.Common.MessageCalls
import Mtfss.Effects.Threads
import Mtfss.System.Frames

/-! An upload as the client itself sees it, while other programs may change the local file. -/

namespace Mtfss

open Effects

namespace Uploading

/-- What has been seen of an upload: the answer of `file_size`, whether the local file has been
opened and the buffer allocated, whether the read loop has been given what was announced, and
whether the client has gone on to the response. -/
structure Upload where
  size : UInt64
  opened : Bool
  buffered : Bool
  exact : Bool
  waiting : Bool

def Upload.initial : Upload := ⟨0, false, true, true, false⟩

/-- A read at an offset gives a full buffer, or all that is left of the announced bytes, and does
not end the stream before these. -/
def exactRead (size offset count : ℕ) (r : Bytes × Bool) : Bool :=
  r.1.length == min count (size - offset) && (r.2 || offset + r.1.length == size)

def after : Monitor Call Answer Upload
  | .fileSize _, t, .ok n => { t with size := n }
  | .openIn _, t, r => { t with opened := r }
  | .alloc _, t, r => { t with buffered := t.buffered && r.isOk }
  | .read _ offset count, t, r =>
    { t with exact := t.exact && exactRead t.size.toNat offset count r }
  | .recv _, t, _ => { t with waiting := true }
  | _, t, _ => t

/-- The connection and the progress. A local file can have any content at any time. -/
def view : Next Call Answer (Conn × Upload)
  | .send data count, (c, t), r => (c.send data count r).map (fun c' => (c', t))
  | .recv count, (c, t), r => (c.recv count r).map (fun c' => (c', { t with waiting := true }))
  | .closesocket, (c, t), () => some (c.close, t)
  | .read p offset count, (c, t), r =>
    if r.1.length ≤ count ∧ (r.2 = true → r.1.length = count) then
      some (c, after (.read p offset count) t r)
    else none
  | o, (c, t), r => some (c, after o t r)

def sending : Sending view where
  conn v := v.1
  put v c := (c, v.2)
  conn_put _ _ := rfl
  put_put _ _ _ := rfl
  put_conn _ := rfl
  send _ _ _ _ := rfl

@[simp] lemma sending_put (c c' : Conn) (t : Upload) : sending.put (c, t) c' = (c', t) := rfl

@[simp] lemma sending_conn (c : Conn) (t : Upload) : sending.conn (c, t) = c := rfl

lemma read_full {env : Env} {p : Bytes} {offset count : ℕ} {r : Bytes × Bool} {m m' : Machine}
    (h : next env (.read p offset count) m r = some m') :
    r.1.length ≤ count ∧ (r.2 = true → r.1.length = count) := by
  obtain ⟨bs, good⟩ := r
  simp only [next] at h
  split at h
  · rename_i hr
    obtain ⟨rfl, rfl⟩ := hr
    simp
  · split at h
    · rename_i hr
      obtain ⟨-, hpre, rfl⟩ := hr
      exact ⟨hpre.length_le.trans (by simp), nofun⟩
    · cases h

lemma views (env : Env) : Threads.Views (after.watch (next env)) view
    (fun l v => l.1.conn = v.1 ∧ l.2 = v.2) := by
  rintro o ⟨l, t⟩ s r ⟨l', t'⟩ s' ⟨c, _⟩ ⟨rfl, rfl⟩ h
  obtain ⟨hnext, rfl⟩ := Monitor.watch_eq_some.mp h
  by_cases ho : o.isConn = false
  · refine ⟨(l.conn, after o t r), ?_, next_conn hnext ho, rfl⟩
    cases o with
    | recv => cases ho
    | send => cases ho
    | closesocket => cases ho
    | read p offset count => exact if_pos (read_full hnext)
    | _ => rfl
  · cases o with
    | recv count =>
      obtain ⟨c, hc, hl⟩ := Option.map_eq_some_iff.mp hnext
      cases hl
      exact ⟨(c, { t with waiting := true }), by simp [view, hc], rfl, rfl⟩
    | send data count =>
      obtain ⟨c, hc, hl⟩ := Option.map_eq_some_iff.mp hnext
      cases hl
      exact ⟨(c, t), by simp [view, hc], rfl, rfl⟩
    | closesocket =>
      cases hnext
      exact ⟨(l.conn.close, t), rfl, rfl, rfl⟩
    | _ => exact (ho rfl).elim

end Uploading

end Mtfss
