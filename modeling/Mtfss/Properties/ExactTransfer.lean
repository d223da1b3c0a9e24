import Mtfss.Common.Transfer

/-! `send_all` and `recv_all` move exactly what they are asked to, as long as an `int` can count
it. -/

namespace Mtfss.ExactTransfer

open Effects

variable {env : Env}

/-- However the system splits the transfer, `recv_all` returns true with the next `n` bytes, in
order, and has taken these and no others. -/
def ReceivesExactly (env : Env) (n : ℕ) (l : Local) (s : Store) : Prop :=
  wp (next env) (recvAll n) (fun r m => r = .ok (some (l.conn.input.take n)) ∧
    m = ({ l with conn := l.conn.consume (l.conn.input.take n) }, s)) (l, s)

/-- However the system splits the transfer, `send_all` returns true after the bytes of `data`, in
order, and no others. -/
def SendsExactly (env : Env) (data : Bytes) (l : Local) (s : Store) : Prop :=
  wp (next env) (sendAll data) (fun r m => r = .ok true ∧
    m = ({ l with conn := l.conn.emit data }, s)) (l, s)

lemma receivesExactly_iff {n : ℕ} {l : Local} {s : Store} (hlen : n ≤ l.conn.input.length) :
    ReceivesExactly env n l s ↔ n < 2 ^ 31 := by
  constructor
  · intro h
    by_contra hlarge
    obtain ⟨r, m, hsteps, rfl, -⟩ := wp_completes h
    obtain ⟨hr, -⟩ := safe_result (safe_recvAll_large (machine env) (s := (l, s))
      (not_lt.mp hlarge)) hsteps
    cases hr
  · intro hsmall
    exact (wp_recvAll (machine env) (s := (l, s)) hsmall hlen).mpr ⟨rfl, rfl⟩

lemma sendsExactly_iff {data : Bytes} {l : Local} {s : Store} (hopen : l.conn.eof = false) :
    SendsExactly env data l s ↔ data.length < 2 ^ 31 := by
  constructor
  · intro h
    by_contra hlarge
    obtain ⟨r, m, -, ⟨rfl, -⟩, hr, -⟩ := wp_completes (wp_and h
      (wp_sendAll_large (machine env) (s := (l, s)) (not_lt.mp hlarge)))
    cases hr
  · intro hsmall
    refine (wp_sendAll (machine env) (s := (l, s)) hsmall).mpr ⟨⟨rfl, rfl⟩, fun heof => ?_⟩
    cases hopen.symm.trans heof

/-- On a connection that stays open, on which the peer supplies enough and accepts everything, a
transfer is exact if and only if an `int` can count it. -/
theorem transfers_exact_iff (env : Env) (l : Local) (s : Store) (hopen : l.conn.eof = false) :
    (∀ n ≤ l.conn.input.length, (ReceivesExactly env n l s ↔ n < 2 ^ 31)) ∧
    ∀ data, (SendsExactly env data l s ↔ data.length < 2 ^ 31) :=
  ⟨fun _ hlen => receivesExactly_iff hlen, fun _ => sendsExactly_iff hopen⟩

theorem transfers_exact_three :
    ReceivesExactly .atRoot 3 (.fresh 0 [1, 2, 3, 4] false) (.fresh (.ofDir [])) ∧
    SendsExactly .atRoot [1, 2, 3] (.fresh 0 [1, 2, 3, 4] false) (.fresh (.ofDir [])) := by
  have h := transfers_exact_iff .atRoot (.fresh 0 [1, 2, 3, 4] false) (.fresh (.ofDir [])) rfl
  exact ⟨(h.1 3 (by decide)).mpr (by decide), (h.2 [1, 2, 3]).mpr (by decide)⟩

/-- `2 ^ 32` bytes are too many. -/
theorem transfers_not_exact : ¬ ∀ (env : Env) (l : Local) (s : Store), l.conn.eof = false →
    (∀ n < 2 ^ 64, n ≤ l.conn.input.length → ReceivesExactly env n l s) ∧
    ∀ data : Bytes, data.length < 2 ^ 64 → SendsExactly env data l s := by
  intro hall
  obtain ⟨input, hinput⟩ : ∃ input : Bytes, input.length = 2 ^ 32 :=
    ⟨List.replicate (2 ^ 32) 0, List.length_replicate⟩
  have h := (hall .atRoot (.fresh 0 input false) (.fresh (.ofDir [])) rfl).1 (2 ^ 32) (by decide)
    hinput.ge
  exact absurd ((receivesExactly_iff hinput.ge).mp h) (by decide)

end Mtfss.ExactTransfer
