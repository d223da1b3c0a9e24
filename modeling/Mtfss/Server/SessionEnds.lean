import Mtfss.Common.Transfer
import Mtfss.Effects.Termination
import Mtfss.Server.Session
import Mtfss.System.Frames

/-! Each round of a session that goes on has read a header, so that with what has arrived a session
takes finitely many steps. -/

namespace Mtfss

open Effects

namespace Conn

/-- The calls on a connection, with the answers to all others left open. -/
def next : Next Call Answer Conn
  | .recv count, c, r => c.recv count r
  | .send data count, c, r => c.send data count r
  | .closesocket, c, () => some c.close
  | _, c, _ => some c

def wired : Wired next where
  conn c := c
  put _ c := c
  conn_put _ _ := rfl
  put_put _ _ _ := rfl
  put_conn _ := rfl
  recv count s r := by
    rw [next]
    cases s.recv count r <;> rfl
  send data count s r := by
    rw [next]
    cases s.send data count r <;> rfl

lemma next_of_next {env : Env} {o : Call} {l l' : Local} {s s' : Store} {r : Answer o}
    (h : Mtfss.next env o (l, s) r = some (l', s')) : next o l.conn r = some l'.conn := by
  cases hconn : o.isConn with
  | false =>
    rw [next_conn h hconn]
    cases o <;> first | rfl | cases hconn
  | true =>
    cases o with
    | recv count =>
      obtain ⟨c, hc, heq⟩ := Option.map_eq_some_iff.mp h
      cases heq
      exact hc
    | send data count =>
      obtain ⟨c, hc, heq⟩ := Option.map_eq_some_iff.mp h
      cases heq
      exact hc
    | closesocket =>
      cases h
      rfl
    | _ => cases hconn

lemma next_input {o : Call} {c c' : Conn} {r : Answer o} (h : next o c r = some c') :
    c'.input.length ≤ c.input.length := by
  cases o with
  | recv count =>
    rcases recv_cases h with rfl | ⟨bs, -, rfl⟩
    · exact le_rfl
    · rw [consume_input, List.length_drop]
      exact Nat.sub_le _ _
  | send data count =>
    rcases send_cases h with rfl | ⟨n, rfl⟩
    · exact le_rfl
    · rw [emit_input]
  | _ => cases h; exact le_rfl

variable {α : Type} {host : Endian} {c : Conn}

/-- No program has more to read after it than before. -/
lemma safe_shorter (p : Code α) {n : ℕ} (hc : c.input.length ≤ n) :
    Safe next (fun _ _ => True) p (fun _ t => t.input.length ≤ n) c := by
  refine safe_mono (safe_invariant (Q := fun _ _ => True)
    (I := fun t => t.input.length ≤ n) ?_ ?_ hc) fun _ _ h => h.2
  · exact fun o t r t' hr ht => (next_input hr).trans ht
  · exact safe_of_forall (fun _ _ => trivial) fun _ _ => trivial

lemma safe_recvHeader_shorter :
    Safe next (fun _ _ => True) (recvHeader host)
      (fun r t => ∀ h, r = .ok (some h) → t.input.length < c.input.length) c := by
  refine safe_bind_of (safe_recvAll wired (n := 32) (by decide)) ?_
  rintro (e | _ | bs) t ht
  · exact nofun
  · exact nofun
  · obtain ⟨hlen, hpre, rfl⟩ := ht bs rfl
    intro _ _
    have hle := hpre.length_le
    change (c.consume bs).input.length < c.input.length
    change bs.length ≤ c.input.length at hle
    rw [consume_input, List.length_drop]
    omega

lemma safe_recvMessageMeta_shorter :
    Safe next (fun _ _ => True) (recvMessageMeta host)
      (fun r t => ∀ req, r = .ok (some req) → t.input.length < c.input.length) c := by
  refine safe_bind_of safe_recvHeader_shorter ?_
  rintro (e | _ | h) t ht
  · exact nofun
  · exact nofun
  · have hlt := ht h rfl
    refine safe_mono (safe_shorter _ le_rfl) ?_
    exact fun _ _ hle _ _ => hle.trans_lt hlt

lemma safe_handleRequest_shorter (user : Bytes) :
    Safe next (fun _ _ => True) (Server.handleRequest host user)
      (fun r t => ∀ user', r = .ok (.inr user') → t.input.length < c.input.length) c := by
  refine safe_bind_of safe_recvMessageMeta_shorter ?_
  rintro (e | _ | req) t ht
  · exact nofun
  · exact nofun
  · have hlt := ht req rfl
    refine safe_mono (safe_shorter _ le_rfl) ?_
    exact fun _ _ hle _ _ => hle.trans_lt hlt

lemma safe_round_shorter (user : Bytes) :
    Safe next (fun _ _ => True) (Server.round host user)
      (fun r t => ∀ user', r = .ok (.inr user') → t.input.length < c.input.length) c := by
  have hrunning : Safe next (fun _ _ => True) Sys.running
      (fun r t => ∃ b, r = .ok b ∧ t = c) c := by
    refine ⟨trivial, ?_⟩
    rintro b _ ⟨⟩
    exact ⟨b, rfl, rfl⟩
  refine safe_bind_of hrunning ?_
  rintro _ _ ⟨_ | _, rfl, rfl⟩
  · refine safe_bind_of (R := fun _ _ => True)
      (safe_of_forall (fun _ _ => trivial) fun _ _ => trivial) ?_
    rintro (e | _) _ -
    · exact nofun
    · exact nofun
  · refine safe_bind_of (safe_handleRequest_shorter user) ?_
    rintro (e | exit | user') t ht
    · exact nofun
    · refine safe_bind_of (R := fun _ _ => True)
        (safe_of_forall (fun _ _ => trivial) fun _ _ => trivial) ?_
      rintro (e | _) _ -
      · exact nofun
      · exact nofun
    · exact fun _ _ => ht user' rfl

/-- With the answers to the calls on other things than its connection left open, a session takes
finitely many steps. -/
lemma sessions_end (host : Endian) :
    WellFounded fun d c : Prog.Running Call Answer Exn (Server.Exit ⊕ Bytes) Conn =>
      LoopStep next (Server.round host) c d :=
  loopStep_wellFounded (fun c => c.input.length) (fun _ _ _ _ h => next_input h)
    fun user _ => safe_round_shorter user

end Conn

end Mtfss
