import Mtfss.Common.Framing
import Mtfss.System.Frames
import Mtfss.Server.Session

/-! A session as its connection sees it: the calls on everything else may be answered in any way,
and no allocation fails. -/

namespace Mtfss

open Effects

section Discard

variable {σ : Type} {nx : Next Call Answer σ} (W : Wired nx) {s : σ}

lemma chunk_small (n : ℕ) : min TRANSFER_BUFFER_SIZE n < 2 ^ 31 :=
  lt_of_le_of_lt (Nat.min_le_left _ _) (by decide)

lemma chunk_pos {n : ℕ} (h : 0 < n) : 0 < min TRANSFER_BUFFER_SIZE n :=
  Nat.lt_min.mpr ⟨by decide, h⟩

lemma wp_discardLoop {Q : Except Exn Bool → σ → Prop} {fuel remaining : ℕ}
    (hfuel : remaining ≤ fuel) (hlen : remaining ≤ (W.conn s).input.length) :
    wp nx (FileManager.discardLoop fuel remaining) Q s ↔
      Q (.ok true) (W.put s ((W.conn s).consume ((W.conn s).input.take remaining))) := by
  induction fuel generalizing remaining s with
  | zero =>
    obtain rfl : remaining = 0 := by omega
    simp [FileManager.discardLoop]
  | succ fuel ih =>
    rcases Nat.eq_zero_or_pos remaining with rfl | hpos
    · simp [FileManager.discardLoop]
    have hc := chunk_pos hpos
    have hle : min TRANSFER_BUFFER_SIZE remaining ≤ remaining := Nat.min_le_right _ _
    rw [FileManager.discardLoop, if_pos hpos, Prog.bind_eq, wp_bind,
      wp_recvAll W (chunk_small remaining) (hle.trans hlen), afterBind_ok]
    rw [ih (by omega) (by simp; omega)]
    simp only [W.conn_put, W.put_put, Conn.consume_consume, Conn.consume_input, List.length_take]
    rw [Nat.min_eq_left (hle.trans hlen), ← List.take_add, Nat.add_sub_cancel' hle]

lemma wp_discardLoop_short {Q : Except Exn Bool → σ → Prop} {fuel remaining : ℕ}
    (hfuel : remaining ≤ fuel) (hlen : (W.conn s).input.length < remaining)
    (heof : (W.conn s).eof = true) :
    wp nx (FileManager.discardLoop fuel remaining) Q s ↔
      Q (.ok false) (W.put s ((W.conn s).consume (W.conn s).input)) := by
  induction fuel generalizing remaining s with
  | zero => omega
  | succ fuel ih =>
    have hpos : 0 < remaining := by omega
    have hc := chunk_pos hpos
    have hle : min TRANSFER_BUFFER_SIZE remaining ≤ remaining := Nat.min_le_right _ _
    rw [FileManager.discardLoop, if_pos hpos, Prog.bind_eq, wp_bind]
    by_cases hin : min TRANSFER_BUFFER_SIZE remaining ≤ (W.conn s).input.length
    · rw [wp_recvAll W (chunk_small remaining) hin, afterBind_ok]
      rw [ih (by omega) (by simp; omega) (by simpa using heof)]
      simp only [W.conn_put, W.put_put, Conn.consume_consume, Conn.consume_input, List.length_take,
        Nat.min_eq_left hin, List.take_append_drop]
    · rw [wp_recvAll_short W (chunk_small remaining) (not_le.mp hin) heof, afterBind_ok]
      rfl

lemma wp_discardData (halloc : Allocates nx) {Q : Except Exn Unit → σ → Prop} {size : UInt64}
    (hlen : size.toNat ≤ (W.conn s).input.length) :
    wp nx (FileManager.discardData size) Q s ↔
      Q (.ok ()) (W.put s ((W.conn s).consume ((W.conn s).input.take size.toNat))) := by
  rw [FileManager.discardData, Prog.bind_eq, wp_bind, halloc, afterBind_ok, Prog.bind_eq, wp_bind,
    wp_discardLoop W le_rfl hlen]
  rfl

lemma wp_discardData_short (halloc : Allocates nx) {Q : Except Exn Unit → σ → Prop} {size : UInt64}
    (hlen : (W.conn s).input.length < size.toNat) (heof : (W.conn s).eof = true) :
    wp nx (FileManager.discardData size) Q s ↔
      Q (.ok ()) (W.put s ((W.conn s).consume (W.conn s).input)) := by
  rw [FileManager.discardData, Prog.bind_eq, wp_bind, halloc, afterBind_ok, Prog.bind_eq, wp_bind,
    wp_discardLoop_short W le_rfl hlen heof]
  rfl

lemma safe_discardLoop {fuel n : ℕ} (hfuel : n ≤ fuel) :
    Safe nx (fun _ _ => True) (FileManager.discardLoop fuel n) (fun r t =>
      t = W.put s ((W.conn s).skip n) ∧ (r = .ok true ∧ n ≤ (W.conn s).input.length ∨
        r = .ok false ∧ (W.conn s).input.length < n)) s := by
  induction fuel generalizing n s with
  | zero =>
    obtain rfl : n = 0 := Nat.le_zero.mp hfuel
    exact ⟨by rw [Conn.skip_zero, W.put_conn], Or.inl ⟨rfl, Nat.zero_le _⟩⟩
  | succ fuel ih =>
    rcases Nat.eq_zero_or_pos n with rfl | hpos
    · exact ⟨by rw [Conn.skip_zero, W.put_conn], Or.inl ⟨rfl, Nat.zero_le _⟩⟩
    have hle : min TRANSFER_BUFFER_SIZE n ≤ n := Nat.min_le_right _ _
    have hc := chunk_pos hpos
    rw [FileManager.discardLoop, if_pos hpos]
    refine safe_bind_of (safe_recvAll_skip W (chunk_small n)) ?_
    rintro _ t ⟨rfl, ⟨rfl, hin⟩ | ⟨rfl, hin, -⟩⟩
    · refine safe_mono (ih (n := n - min TRANSFER_BUFFER_SIZE n) (by omega)) ?_
      rintro r t ⟨rfl, hr⟩
      rw [W.conn_put, Conn.skip_skip, Nat.add_sub_cancel' hle, W.put_put]
      refine ⟨rfl, hr.imp (And.imp_right fun h => ?_) (And.imp_right fun h => ?_)⟩
      · rw [W.conn_put, Conn.skip_input, List.length_drop] at h
        omega
      · rw [W.conn_put, Conn.skip_input, List.length_drop] at h
        omega
    · refine ⟨?_, Or.inr ⟨rfl, by omega⟩⟩
      rw [Conn.skip_of_short hin.le, Conn.skip_of_short (by omega)]

end Discard

/-- A LIST reply fits an `int`. -/
def smallAnswer : (o : Call) → Answer o → Bool
  | .listDirectory _, files => (FileManager.renderListing files).length < 2 ^ 31
  | _, _ => true

structure Wire where
  conn : Conn
  stopped : Bool

def wireNext : Next Call Answer Wire
  | .recv count, w, r => (w.conn.recv count r).map (fun c => { w with conn := c })
  | .send data count, w, r => (w.conn.send data count r).map (fun c => { w with conn := c })
  | .closesocket, w, () => some { w with conn := w.conn.close }
  | .running, w, r => some (if r = true then w else { w with stopped := true })
  | .read _ _ count, w, r => if r.1.length ≤ count then some w else none
  | .acquireLockRef _, w, r => answer r (.ok ()) w
  | .addFile _ _ _ _, w, r => answer r (.ok ()) w
  | .removeFile _ _, w, r => answer r (.ok ()) w
  | .alloc _, w, r => answer r (.ok ()) w
  | .log, w, r => answer r (.ok ()) w
  | o, w, r => if smallAnswer o r = true then some w else none

def fitting (nx : Next Call Answer Machine) : Next Call Answer Machine :=
  fun o m r => if smallAnswer o r = true then nx o m r else none

/-- The connection of the machine, and whether the session has seen the server stop. -/
def Wire.Views (m : Machine) (w : Wire) : Prop :=
  w.conn = m.1.conn ∧ (w.stopped = true → m.2.running = false)

lemma views_of_quiet {env : Env} {o : Call} {r : Answer o} {m m' : Machine} {w : Wire}
    (hw : w.Views m) (h : next env o m r = some m') (ho : o.isConn = false) (hrun : o ≠ .running) :
    w.Views m' := by
  obtain ⟨l, s⟩ := m
  obtain ⟨l', s'⟩ := m'
  refine ⟨hw.1.trans (next_conn h ho).symm, fun hs => ?_⟩
  exact (next_running h hrun).trans (hw.2 hs)

lemma alloc_ok {env : Env} (halloc : env.faults.alloc = false) {e : Exn} {m t : Machine}
    {ok : Unit → Option Machine} {r : Except Exn Unit}
    (h : orThrow env.faults.alloc e m ok r = some t) : r = .ok () := by
  rcases Rules.orThrow_eq_some.mp h with ⟨_, hr, -⟩ | ⟨hf, -⟩
  · exact hr
  · rw [halloc] at hf
    cases hf

lemma read_length {env : Env} {p : Bytes} {offset count : ℕ} {r : Bytes × Bool} {m m' : Machine}
    (h : next env (.read p offset count) m r = some m') : r.1.length ≤ count := by
  simp only [next] at h
  split at h
  · rename_i hr
    rw [hr.1]
    simp
  · split at h
    · rename_i hr
      exact hr.2.1.length_le.trans (by simp)
    · cases h

lemma wireNext_simulates {env : Env} (halloc : env.faults.alloc = false) :
    Simulates (fitting (next env)) wireNext Wire.Views := by
  rintro o m r m' w hw h
  simp only [fitting, Option.ite_none_right_eq_some] at h
  obtain ⟨hsmall, h⟩ := h
  have hplain : (if smallAnswer o r = true then some w else none) = some w := if_pos hsmall
  cases o with
  | recv count =>
    obtain ⟨c, hc, rfl⟩ := Option.map_eq_some_iff.mp h
    exact ⟨{ w with conn := c }, by simp [wireNext, hw.1, hc], rfl, hw.2⟩
  | send data count =>
    obtain ⟨c, hc, rfl⟩ := Option.map_eq_some_iff.mp h
    exact ⟨{ w with conn := c }, by simp [wireNext, hw.1, hc], rfl, hw.2⟩
  | closesocket =>
    cases h
    exact ⟨_, rfl, congrArg Conn.close hw.1, hw.2⟩
  | running =>
    cases r with
    | true =>
      simp only [next, if_true, Option.ite_none_right_eq_some, Option.some.injEq] at h
      obtain ⟨-, rfl⟩ := h
      exact ⟨w, rfl, hw⟩
    | false =>
      simp only [next, Bool.false_eq_true, if_false, Option.ite_none_right_eq_some,
        Option.some.injEq] at h
      obtain ⟨-, rfl⟩ := h
      exact ⟨_, rfl, hw.1, fun _ => rfl⟩
  | read p offset count => exact ⟨w, if_pos (read_length h), views_of_quiet hw h rfl nofun⟩
  | acquireLockRef key => exact ⟨w, if_pos (alloc_ok halloc h), views_of_quiet hw h rfl nofun⟩
  | addFile dir name size time =>
    exact ⟨w, if_pos (alloc_ok halloc h), views_of_quiet hw h rfl nofun⟩
  | removeFile dir name => exact ⟨w, if_pos (alloc_ok halloc h), views_of_quiet hw h rfl nofun⟩
  | alloc size => exact ⟨w, if_pos (alloc_ok halloc h), views_of_quiet hw h rfl nofun⟩
  | log => exact ⟨w, if_pos (alloc_ok halloc h), views_of_quiet hw h rfl nofun⟩
  | _ => exact ⟨w, hplain, views_of_quiet hw h rfl nofun⟩

end Mtfss
