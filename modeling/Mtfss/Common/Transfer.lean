import Mtfss.Common.NetworkUtils
import Mtfss.Effects.Safety
import Mtfss.System.CallRules

/-! What `send_all` and `recv_all` do, however the system splits the transfers. -/

namespace Mtfss

open Effects

/-- The states of an environment of calls that have a connection in them, on which `recv` and
`send` act. -/
structure Wired {σ : Type} (nx : Next Call Answer σ) where
  conn : σ → Conn
  put : σ → Conn → σ
  conn_put : ∀ s c, conn (put s c) = c
  put_put : ∀ s c c', put (put s c) c' = put s c'
  put_conn : ∀ s, put s (conn s) = s
  recv : ∀ count s r, nx (.recv count) s r = ((conn s).recv count r).map (put s)
  send : ∀ data count s r, nx (.send data count) s r = ((conn s).send data count r).map (put s)

attribute [simp] Wired.conn_put Wired.put_put Wired.put_conn

/-- The connection of a thread. -/
def machine (env : Env) : Wired (next env) where
  conn m := m.1.conn
  put m c := ({ m.1 with conn := c }, m.2)
  conn_put _ _ := rfl
  put_put _ _ _ := rfl
  put_conn _ := rfl
  recv _ _ _ := rfl
  send _ _ _ _ := rfl

/-- The connection of a thread with a monitor that does not look at it. -/
def Wired.ofMonitor {τ : Type} (env : Env) (after : Monitor Call Answer τ)
    (hrecv : ∀ count t r, after (.recv count) t r = t)
    (hsend : ∀ data count t r, after (.send data count) t r = t) :
    Wired (after.watch (next env)) where
  conn m := m.1.1.conn
  put m c := (({ m.1.1 with conn := c }, m.1.2), m.2)
  conn_put _ _ := rfl
  put_put _ _ _ := rfl
  put_conn _ := rfl
  recv count m r := by
    cases h : m.1.1.conn.recv count r <;> simp [Monitor.watch, next, hrecv, h]
  send data count m r := by
    cases h : m.1.1.conn.send data count r <;> simp [Monitor.watch, next, hsend, h]

@[simp] lemma machine_conn (env : Env) (l : Local) (s : Store) :
    (machine env).conn (l, s) = l.conn := rfl

@[simp] lemma machine_put (env : Env) (l : Local) (s : Store) (c : Conn) :
    (machine env).put (l, s) c = ({ l with conn := c }, s) := rfl

variable {σ : Type} {nx : Next Call Answer σ} (W : Wired nx) {s : σ}

lemma toInt32_small {n : ℕ} (h : n < 2 ^ 31) : toInt32 n = n := by
  have hn : (n : ℤ) < 2 ^ 31 := by exact_mod_cast h
  exact Int.bmod_eq_of_le (by omega) (by omega)

/-- A count above the range of `int` is negative, zero, or counts bytes beyond the last `2 ^ 32`. -/
lemma toInt32_large {n : ℕ} (h : 2 ^ 31 ≤ n) : toInt32 n ≤ 0 ∨ toInt32 n + 2 ^ 32 ≤ n := by
  have hd : (2 ^ 32 : ℤ) ∣ (n : ℤ) - toInt32 n := Int.dvd_self_sub_bmod
  have hlt : toInt32 n < (2 ^ 32 + 1) / 2 := Int.bmod_lt (by omega)
  obtain ⟨q, hq⟩ := hd
  have hn : (2 ^ 31 : ℤ) ≤ n := by exact_mod_cast h
  omega

namespace Conn

lemma recv_positive {c c' : Conn} {count : ℤ} {r : Option Bytes} (h : 0 < count) :
    c.recv count r = some c' ↔
      (∃ bs, r = some bs ∧ bs ≠ [] ∧ bs.length ≤ count ∧ bs <+: c.input ∧ c' = c.consume bs) ∨
      (c.input = [] ∧ c.eof = true ∧ (r = none ∨ r = some []) ∧ c' = c) := by
  have hneg : ¬ count < 0 := by omega
  have hzero : ¬ count = 0 := by omega
  rw [recv.eq_def, if_neg hneg, if_neg hzero]
  rcases r with _ | bs
  · grind
  · by_cases hbs : bs = [] <;> grind

lemma recv_nonpositive {c c' : Conn} {count : ℤ} {r : Option Bytes} (h : count ≤ 0) :
    c.recv count r = some c' ↔ c' = c ∧ r = if count < 0 then none else some [] := by
  unfold recv
  rcases r with _ | bs <;> grind

lemma send_positive {c c' : Conn} {data : Bytes} {count : ℤ} {r : Option ℕ} (h : 0 < count) :
    c.send data count r = some c' ↔
      (∃ n : ℕ, r = some n ∧ 0 < n ∧ n ≤ count ∧ c' = c.emit (data.take n)) ∨
      (c.eof = true ∧ r = none ∧ c' = c) := by
  have hneg : ¬ count < 0 := by omega
  have hzero : ¬ count = 0 := by omega
  rw [send.eq_def, if_neg hneg, if_neg hzero]
  rcases r with _ | n <;> grind

lemma send_nonpositive {c c' : Conn} {data : Bytes} {count : ℤ} {r : Option ℕ} (h : count ≤ 0) :
    c.send data count r = some c' ↔ c' = c ∧ r = if count < 0 then none else some 0 := by
  unfold send
  rcases r with _ | n <;> grind

end Conn

lemma wp_recv {Q : Except Exn (Option Bytes) → σ → Prop} (count : ℤ) :
    wp nx (Sys.recv count) Q s ↔ (∃ r c, (W.conn s).recv count r = some c) ∧
      ∀ r c, (W.conn s).recv count r = some c → Q (.ok r) (W.put s c) := by
  simp only [Sys.recv, wp_op, wp_pure, W.recv, Option.map_eq_some_iff]
  grind

lemma wp_send {Q : Except Exn (Option ℕ) → σ → Prop} (data : Bytes) (count : ℤ) :
    wp nx (Sys.send data count) Q s ↔ (∃ r c, (W.conn s).send data count r = some c) ∧
      ∀ r c, (W.conn s).send data count r = some c → Q (.ok r) (W.put s c) := by
  simp only [Sys.send, wp_op, wp_pure, W.send, Option.map_eq_some_iff]
  grind

section Receive

variable {Q : Except Exn (Option Bytes) → σ → Prop}

lemma wp_recvLoop {fuel remaining : ℕ} (got : Bytes) (hfuel : remaining ≤ fuel)
    (hsmall : remaining < 2 ^ 31) (hlen : remaining ≤ (W.conn s).input.length) :
    wp nx (recvLoop fuel remaining got) Q s ↔
      Q (.ok (some (got ++ (W.conn s).input.take remaining)))
        (W.put s ((W.conn s).consume ((W.conn s).input.take remaining))) := by
  induction fuel generalizing remaining got s with
  | zero =>
    obtain rfl : remaining = 0 := by omega
    simp [recvLoop]
  | succ fuel ih =>
    rcases Nat.eq_zero_or_pos remaining with rfl | hpos
    · simp [recvLoop]
    have hne : (W.conn s).input ≠ [] := by
      rintro h
      simp [h] at hlen
      omega
    have hstep : ∀ bs : Bytes, bs ≠ [] → bs.length ≤ remaining → bs <+: (W.conn s).input →
        (wp nx (recvLoop fuel (remaining - bs.length) (got ++ bs)) Q
          (W.put s ((W.conn s).consume bs)) ↔
        Q (.ok (some (got ++ (W.conn s).input.take remaining)))
          (W.put s ((W.conn s).consume ((W.conn s).input.take remaining)))) := by
      intro bs hbs hle hpre
      have hp := List.length_pos_of_ne_nil hbs
      obtain ⟨rest, hrest⟩ := hpre
      rw [ih (s := W.put s ((W.conn s).consume bs)) _ (by omega) (by omega)
        (by simp [← hrest] at hlen ⊢; omega)]
      simp [Conn.consume_consume, ← hrest, List.take_append, List.take_of_length_le hle]
    obtain ⟨n, rfl⟩ := Nat.exists_eq_succ_of_ne_zero hpos.ne'
    simp only [recvLoop, Prog.bind_eq, wp_bind, wp_recv W, toInt32_small hsmall,
      Conn.recv_positive (show (0 : ℤ) < (n + 1 : ℕ) by omega), hne, false_and, or_false]
    have htaken : (((W.conn s).input.take (n + 1)).length : ℤ) ≤ (n + 1 : ℕ) :=
      Int.ofNat_le.mpr (List.length_take_le _ _)
    constructor
    · rintro ⟨-, hall⟩
      have hw := hall (some ((W.conn s).input.take (n + 1))) _
        ⟨_, rfl, by simp [hne], htaken, List.take_prefix _ _, rfl⟩
      refine (hstep ((W.conn s).input.take (n + 1)) (by simp [hne]) (List.length_take_le _ _)
        (List.take_prefix _ _)).mp ?_
      cases hi : (W.conn s).input.take (n + 1) with
      | nil => simp [hne] at hi
      | cons b bs => simpa [hi] using hw
    · intro hq
      refine ⟨⟨_, _, _, rfl, by simp [hne], htaken, List.take_prefix (n + 1) _, rfl⟩, ?_⟩
      rintro r c ⟨bs, rfl, hbs, hle, hpre, rfl⟩
      cases bs with
      | nil => exact (hbs rfl).elim
      | cons b bs => exact (hstep (b :: bs) hbs (by omega) hpre).mpr hq

lemma wp_recvLoop_short {fuel remaining : ℕ} (got : Bytes) (hfuel : remaining ≤ fuel)
    (hsmall : remaining < 2 ^ 31) (hlen : (W.conn s).input.length < remaining)
    (heof : (W.conn s).eof = true) :
    wp nx (recvLoop fuel remaining got) Q s ↔
      Q (.ok none) (W.put s ((W.conn s).consume (W.conn s).input)) := by
  induction fuel generalizing remaining got s with
  | zero => omega
  | succ fuel ih =>
    obtain ⟨n, rfl⟩ := Nat.exists_eq_succ_of_ne_zero (show remaining ≠ 0 by omega)
    have hstep : ∀ bs : Bytes, bs ≠ [] → bs <+: (W.conn s).input →
        (wp nx (recvLoop fuel (n + 1 - bs.length) (got ++ bs)) Q
          (W.put s ((W.conn s).consume bs)) ↔
        Q (.ok none) (W.put s ((W.conn s).consume (W.conn s).input))) := by
      intro bs hbs hpre
      have hp := List.length_pos_of_ne_nil hbs
      have hle := hpre.length_le
      obtain ⟨rest, hrest⟩ := hpre
      rw [ih (s := W.put s ((W.conn s).consume bs)) _ (by omega) (by omega)
        (by simp; omega) (by simpa using heof)]
      simp [Conn.consume_consume, ← hrest]
    simp only [recvLoop, Prog.bind_eq, wp_bind, wp_recv W, toInt32_small hsmall,
      Conn.recv_positive (show (0 : ℤ) < (n + 1 : ℕ) by omega), heof, true_and]
    by_cases hne : (W.conn s).input = []
    · have hsame : W.put s ((W.conn s).consume (W.conn s).input) = s := by simp [hne]
      simp only [hsame]
      constructor
      · rintro ⟨-, hall⟩
        simpa using hall none _ (Or.inr ⟨hne, Or.inl rfl, rfl⟩)
      · intro hq
        refine ⟨⟨none, _, Or.inr ⟨hne, Or.inl rfl, rfl⟩⟩, ?_⟩
        rintro r c (⟨bs, rfl, hbs, -, hpre, -⟩ | ⟨-, hr, rfl⟩)
        · simp [hne] at hpre
          exact (hbs hpre).elim
        · rcases hr with rfl | rfl <;> simpa using hq
    · simp only [hne, false_and, or_false]
      constructor
      · rintro ⟨-, hall⟩
        have hw := hall (some (W.conn s).input) _
          ⟨_, rfl, hne, by exact_mod_cast hlen.le, List.prefix_rfl, rfl⟩
        refine (hstep _ hne List.prefix_rfl).mp ?_
        cases hi : (W.conn s).input with
        | nil => exact (hne hi).elim
        | cons b bs => simpa [hi] using hw
      · intro hq
        refine ⟨⟨_, _, _, rfl, hne, by exact_mod_cast hlen.le, List.prefix_rfl, rfl⟩, ?_⟩
        rintro r c ⟨bs, rfl, hbs, hle, hpre, rfl⟩
        cases bs with
        | nil => exact (hbs rfl).elim
        | cons b bs => exact (hstep (b :: bs) hbs hpre).mpr hq

lemma wp_recvAll {n : ℕ} (hsmall : n < 2 ^ 31) (hlen : n ≤ (W.conn s).input.length) :
    wp nx (recvAll n) Q s ↔ Q (.ok (some ((W.conn s).input.take n)))
      (W.put s ((W.conn s).consume ((W.conn s).input.take n))) :=
  wp_recvLoop W [] le_rfl hsmall hlen

lemma wp_recvAll_short {n : ℕ} (hsmall : n < 2 ^ 31) (hlen : (W.conn s).input.length < n)
    (heof : (W.conn s).eof = true) :
    wp nx (recvAll n) Q s ↔
      Q (.ok none) (W.put s ((W.conn s).consume (W.conn s).input)) :=
  wp_recvLoop_short W [] le_rfl hsmall hlen heof

lemma safe_recvLoop {fuel n : ℕ} (got : Bytes) (hn : n < 2 ^ 31) :
    Safe nx (fun _ _ => True) (recvLoop fuel n got) (fun r t => ∀ buf, r = .ok (some buf) →
      ∃ bs, bs.length = n ∧ bs <+: (W.conn s).input ∧ buf = got ++ bs ∧
        t = W.put s ((W.conn s).consume bs)) s := by
  induction fuel generalizing n got s with
  | zero =>
    cases n with
    | zero =>
      rintro buf ⟨⟩
      exact ⟨[], rfl, List.nil_prefix, by simp, by simp⟩
    | succ n => nofun
  | succ fuel ih =>
    cases n with
    | zero =>
      rintro buf ⟨⟩
      exact ⟨[], rfl, List.nil_prefix, by simp, by simp⟩
    | succ n =>
      refine ⟨trivial, fun r t ht => ?_⟩
      rw [W.recv, Option.map_eq_some_iff] at ht
      obtain ⟨c, hc, rfl⟩ := ht
      rw [toInt32_small hn, Conn.recv_positive (by omega)] at hc
      obtain ⟨bs, rfl, hbs, hlen, hpre, rfl⟩ | ⟨-, -, hr, rfl⟩ := hc
      · cases bs with
        | nil => exact (hbs rfl).elim
        | cons b bs =>
          have hlen' : (b :: bs).length ≤ n + 1 := by exact_mod_cast hlen
          refine safe_mono (ih (s := W.put s ((W.conn s).consume (b :: bs)))
            (n := n + 1 - (b :: bs).length) (got ++ b :: bs) (by omega)) ?_
          rintro r t h buf hr
          obtain ⟨bs', hlen'', hpre', rfl, rfl⟩ := h buf hr
          obtain ⟨rest, hrest⟩ := hpre
          rw [W.conn_put, Conn.consume_input, ← hrest, List.drop_left] at hpre'
          refine ⟨b :: bs ++ bs', ?_, ?_, by simp, by simp [Conn.consume_consume]⟩
          · rw [List.length_append, hlen'']
            omega
          · rw [← hrest]
            exact (List.prefix_append_right_inj _).mpr hpre'
      · rcases hr with rfl | rfl <;> nofun

lemma safe_recvAll {n : ℕ} (hn : n < 2 ^ 31) :
    Safe nx (fun _ _ => True) (recvAll n) (fun r t => ∀ buf, r = .ok (some buf) →
      buf.length = n ∧ buf <+: (W.conn s).input ∧ t = W.put s ((W.conn s).consume buf)) s := by
  refine safe_mono (safe_recvLoop W [] hn) ?_
  rintro r t h buf hr
  obtain ⟨bs, hlen, hpre, rfl, ht⟩ := h buf hr
  exact ⟨hlen, hpre, ht⟩

lemma safe_recvLoop_lost {fuel n : ℕ} (got : Bytes) (hfuel : n ≤ fuel) (hn : n < 2 ^ 31) :
    Safe nx (fun _ _ => True) (recvLoop fuel n got) (fun r t => r = .ok none →
      (W.conn s).eof = true ∧ (W.conn s).input.length < n ∧
        t = W.put s ((W.conn s).consume (W.conn s).input)) s := by
  induction fuel generalizing n got s with
  | zero =>
    obtain rfl : n = 0 := by omega
    nofun
  | succ fuel ih =>
    cases n with
    | zero => nofun
    | succ n =>
      refine ⟨trivial, fun r t ht => ?_⟩
      rw [W.recv, Option.map_eq_some_iff] at ht
      obtain ⟨c, hc, rfl⟩ := ht
      rw [toInt32_small hn, Conn.recv_positive (by omega)] at hc
      obtain ⟨bs, rfl, hbs, hlen, hpre, rfl⟩ | ⟨hempty, heof, hr, rfl⟩ := hc
      · cases bs with
        | nil => exact (hbs rfl).elim
        | cons b bs =>
          have hlen' : (b :: bs).length ≤ n + 1 := by exact_mod_cast hlen
          have hpos : 0 < (b :: bs).length := Nat.succ_pos _
          refine safe_mono (ih (s := W.put s ((W.conn s).consume (b :: bs)))
            (n := n + 1 - (b :: bs).length) (got ++ b :: bs) (by omega) (by omega)) ?_
          intro r t h hr
          obtain ⟨heof, hshort, rfl⟩ := h hr
          obtain ⟨rest, hrest⟩ := hpre
          rw [W.conn_put, Conn.consume_input, ← hrest, List.drop_left] at hshort
          refine ⟨by simpa using heof, ?_, ?_⟩
          · rw [← hrest, List.length_append]
            omega
          · simp [Conn.consume_consume, ← hrest]
      · have hlost : (W.conn s).eof = true ∧ (W.conn s).input.length < n + 1 ∧
            W.put s (W.conn s) = W.put s ((W.conn s).consume (W.conn s).input) := by
          rw [hempty, Conn.consume_nil]
          exact ⟨heof, Nat.succ_pos _, rfl⟩
        rcases hr with rfl | rfl <;> exact fun _ => hlost

lemma safe_recvAll_lost {n : ℕ} (hn : n < 2 ^ 31) :
    Safe nx (fun _ _ => True) (recvAll n) (fun r t => r = .ok none →
      (W.conn s).eof = true ∧ (W.conn s).input.length < n ∧
        t = W.put s ((W.conn s).consume (W.conn s).input)) s :=
  safe_recvLoop_lost W [] le_rfl hn

lemma safe_recvLoop_returns (fuel n : ℕ) (got : Bytes) :
    Safe nx (fun _ _ => True) (recvLoop fuel n got) (fun r _ => ∃ x, r = .ok x) s := by
  induction fuel generalizing n got s with
  | zero => cases n <;> exact ⟨_, rfl⟩
  | succ fuel ih =>
    cases n with
    | zero => exact ⟨_, rfl⟩
    | succ n =>
      refine ⟨trivial, fun r t _ => ?_⟩
      rcases r with _ | _ | ⟨b, bs⟩
      · exact ⟨_, rfl⟩
      · exact ⟨_, rfl⟩
      · exact ih _ _

lemma safe_recvAll_skip {n : ℕ} (hn : n < 2 ^ 31) :
    Safe nx (fun _ _ => True) (recvAll n) (fun r t => t = W.put s ((W.conn s).skip n) ∧
      (r = .ok (some ((W.conn s).input.take n)) ∧ n ≤ (W.conn s).input.length ∨
        r = .ok none ∧ (W.conn s).input.length < n ∧ (W.conn s).eof = true)) s := by
  refine safe_mono (safe_and (safe_recvLoop_returns n n [])
    (safe_and (safe_recvAll W hn) (safe_recvAll_lost W hn))) ?_
  rintro _ t ⟨⟨x, rfl⟩, hall, hlost⟩
  cases x with
  | none =>
    obtain ⟨heof, hshort, rfl⟩ := hlost rfl
    exact ⟨by rw [Conn.skip_of_short hshort.le], Or.inr ⟨rfl, hshort, heof⟩⟩
  | some buf =>
    obtain ⟨hlen, hpre, rfl⟩ := hall buf rfl
    have htake : buf = (W.conn s).input.take n := hlen ▸ List.prefix_iff_eq_take.mp hpre
    exact ⟨by rw [Conn.skip, ← htake], Or.inl ⟨by rw [← htake], hlen ▸ hpre.length_le⟩⟩

lemma toInt32_sub {n k : ℕ} (h : (k : ℤ) ≤ toInt32 n) (hk : k ≤ n) :
    toInt32 (n - k) = toInt32 n - k := by
  obtain ⟨q, hq⟩ : (2 ^ 32 : ℤ) ∣ (n : ℤ) - toInt32 n := Int.dvd_self_sub_bmod
  obtain ⟨q', hq'⟩ : (2 ^ 32 : ℤ) ∣ ((n - k : ℕ) : ℤ) - toInt32 (n - k) := Int.dvd_self_sub_bmod
  have hlt : toInt32 n < (2 ^ 32 + 1) / 2 := Int.bmod_lt (by omega)
  have hlt' : toInt32 (n - k) < (2 ^ 32 + 1) / 2 := Int.bmod_lt (by omega)
  have hle' : -(((2 ^ 32 : ℕ) : ℤ) / 2) ≤ toInt32 (n - k) := Int.le_bmod (by omega)
  omega

/-- On a length above the range of `int` the loop reads as much as its first count says, and gives
up. -/
lemma safe_recvLoop_large {fuel n : ℕ} (got : Bytes) (hfuel : (toInt32 n).toNat < fuel)
    (hn : 2 ^ 31 ≤ n) :
    Safe nx (fun _ _ => True) (recvLoop fuel n got) (fun r t => r = .ok none ∧
      ((toInt32 n).toNat ≤ (W.conn s).input.length ∨ (W.conn s).eof = true) ∧
        t = W.put s ((W.conn s).consume ((W.conn s).input.take (toInt32 n).toNat))) s := by
  induction fuel generalizing n got s with
  | zero => omega
  | succ fuel ih =>
    obtain ⟨m, rfl⟩ : ∃ m, n = m + 1 := ⟨n - 1, by omega⟩
    refine ⟨trivial, fun r t ht => ?_⟩
    rw [W.recv, Option.map_eq_some_iff] at ht
    obtain ⟨c, hc, rfl⟩ := ht
    by_cases hpos : 0 < toInt32 (m + 1)
    · have hmany : toInt32 (m + 1) + 2 ^ 32 ≤ (m + 1 : ℕ) :=
        (toInt32_large hn).resolve_left (by omega)
      rw [Conn.recv_positive hpos] at hc
      obtain ⟨bs, rfl, hbs, hlen, hpre, rfl⟩ | ⟨hempty, heof, hr, rfl⟩ := hc
      · cases bs with
        | nil => exact (hbs rfl).elim
        | cons b bs =>
          have hsub := toInt32_sub hlen (by omega)
          have hpos' : 0 < (b :: bs).length := Nat.succ_pos _
          refine safe_mono (ih (s := W.put s ((W.conn s).consume (b :: bs)))
            (n := m + 1 - (b :: bs).length) (got ++ b :: bs) (by rw [hsub]; omega) (by omega)) ?_
          rintro r t ⟨rfl, hall, rfl⟩
          obtain ⟨rest, hrest⟩ := hpre
          have hle : (b :: bs).length ≤ (toInt32 (m + 1)).toNat := by omega
          have hcount : (toInt32 (m + 1 - (b :: bs).length)).toNat =
              (toInt32 (m + 1)).toNat - (b :: bs).length := by
            rw [hsub]
            omega
          rw [hcount] at hall ⊢
          rw [W.conn_put, Conn.consume_input, ← hrest, List.drop_left] at hall
          refine ⟨rfl, ?_, ?_⟩
          · rw [← hrest, List.length_append]
            exact hall.imp (fun h => by omega) (fun h => h)
          · rw [W.conn_put, W.put_put, Conn.consume_input, ← hrest, List.drop_left,
              Conn.consume_consume, List.take_append, List.take_of_length_le hle]
      · have hlost : (toInt32 (m + 1)).toNat ≤ (W.conn s).input.length ∨ (W.conn s).eof = true :=
          Or.inr heof
        have hsame : W.put s (W.conn s) =
            W.put s ((W.conn s).consume ((W.conn s).input.take (toInt32 (m + 1)).toNat)) := by
          rw [hempty, List.take_nil, Conn.consume_nil]
        rcases hr with rfl | rfl <;> exact ⟨rfl, hlost, hsame⟩
    -- a count that is zero or negative reads nothing
    · have hzero : (toInt32 (m + 1)).toNat = 0 := by omega
      have hsame : W.put s (W.conn s) =
          W.put s ((W.conn s).consume ((W.conn s).input.take (toInt32 (m + 1)).toNat)) := by
        rw [hzero, List.take_zero, Conn.consume_nil]
      have hlow : (toInt32 (m + 1)).toNat ≤ (W.conn s).input.length := by omega
      rw [Conn.recv_nonpositive (Int.not_lt.mp hpos)] at hc
      obtain ⟨rfl, hr⟩ := hc
      by_cases hneg : toInt32 (m + 1) < 0
      · rw [if_pos hneg] at hr
        subst hr
        exact ⟨rfl, Or.inl hlow, hsame⟩
      · rw [if_neg hneg] at hr
        subst hr
        exact ⟨rfl, Or.inl hlow, hsame⟩

lemma safe_recvAll_large {n : ℕ} (hn : 2 ^ 31 ≤ n) :
    Safe nx (fun _ _ => True) (recvAll n) (fun r t => r = .ok none ∧
      ((toInt32 n).toNat ≤ (W.conn s).input.length ∨ (W.conn s).eof = true) ∧
        t = W.put s ((W.conn s).consume ((W.conn s).input.take (toInt32 n).toNat))) s := by
  refine safe_recvLoop_large W [] ?_ hn
  rcases toInt32_large hn with h | h <;> omega

end Receive

section Send

variable {Q : Except Exn Bool → σ → Prop}

lemma emit_take_drop (c : Conn) (data : Bytes) (n k : ℕ) :
    (c.emit (data.take n)).emit ((data.drop n).take k) = c.emit (data.take (n + k)) := by
  rw [Conn.emit_emit, List.take_add]

lemma wp_sendLoop {fuel : ℕ} {rest : Bytes} (hfuel : rest.length ≤ fuel)
    (hsmall : rest.length < 2 ^ 31) :
    wp nx (sendLoop fuel rest) Q s ↔
      Q (.ok true) (W.put s ((W.conn s).emit rest)) ∧
      ((W.conn s).eof = true → ∀ k < rest.length,
        Q (.ok false) (W.put s ((W.conn s).emit (rest.take k)))) := by
  induction fuel generalizing rest s with
  | zero =>
    obtain rfl : rest = [] := List.eq_nil_of_length_eq_zero (by omega)
    simp [sendLoop]
  | succ fuel ih =>
    cases rest with
    | nil => simp [sendLoop]
    | cons b rest =>
      set data := b :: rest with hdata
      have hlen : 0 < data.length := by simp [hdata]
      have hstep : ∀ n, 0 < n → n ≤ data.length →
          (wp nx (sendLoop fuel (data.drop n)) Q
            (W.put s ((W.conn s).emit (data.take n))) ↔
          Q (.ok true) (W.put s ((W.conn s).emit data)) ∧
            ((W.conn s).eof = true → ∀ k < data.length - n,
              Q (.ok false) (W.put s ((W.conn s).emit (data.take (n + k)))))) := by
        intro n hpos hle
        rw [ih (s := W.put s ((W.conn s).emit (data.take n))) (by simp; omega)
          (by simp; omega)]
        simp only [W.conn_put, W.put_put, emit_take_drop, Conn.emit_eof, List.length_drop]
        simp only [Conn.emit_emit, List.take_append_drop]
      have hcount : (0 : ℤ) < (data.length : ℕ) := by omega
      rw [hdata, sendLoop, ← hdata]
      rotate_left
      · exact List.cons_ne_nil _ _
      simp only [Prog.bind_eq, wp_bind, wp_send W, toInt32_small hsmall, Conn.send_positive hcount]
      constructor
      · rintro ⟨-, hall⟩
        have hall' : ∀ n, 0 < n → n ≤ data.length → wp nx (sendLoop fuel (data.drop n)) Q
            (W.put s ((W.conn s).emit (data.take n))) := by
          intro n hpos hle
          have hw := hall (some n) _ (Or.inl ⟨n, rfl, hpos, by omega, rfl⟩)
          cases n with
          | zero => omega
          | succ n => exact hw
        refine ⟨((hstep _ hlen le_rfl).mp (hall' _ hlen le_rfl)).1, ?_⟩
        intro heof k hk
        rcases Nat.eq_zero_or_pos k with rfl | hpos
        · simpa using hall none _ (Or.inr ⟨heof, rfl, rfl⟩)
        · simpa using ((hstep k hpos hk.le).mp (hall' k hpos hk.le)).2 heof 0 (by omega)
      · rintro ⟨hq, hfail⟩
        refine ⟨⟨_, _, Or.inl ⟨data.length, rfl, hlen, by omega, rfl⟩⟩, ?_⟩
        rintro r c (⟨n, rfl, hpos, hle, rfl⟩ | ⟨heof, rfl, rfl⟩)
        · have hw := (hstep n hpos (by omega)).mpr
            ⟨hq, fun heof k hk => hfail heof (n + k) (by omega)⟩
          cases n with
          | zero => omega
          | succ n => exact hw
        · simpa using hfail heof 0 hlen

/-- `send_all` hands over all of its data. It can fail once the peer may be gone, after any part. -/
lemma wp_sendAll {data : Bytes} (hsmall : data.length < 2 ^ 31) :
    wp nx (sendAll data) Q s ↔
      Q (.ok true) (W.put s ((W.conn s).emit data)) ∧
      ((W.conn s).eof = true → ∀ k < data.length,
        Q (.ok false) (W.put s ((W.conn s).emit (data.take k)))) :=
  wp_sendLoop W le_rfl hsmall

lemma wp_sendLoop_large {fuel : ℕ} {rest : Bytes} (hlarge : 2 ^ 31 ≤ rest.length) :
    wp nx (sendLoop fuel rest)
      (fun r t => r = .ok false ∧ ∃ k, t = (W.put s ((W.conn s).emit (rest.take k))))
      s := by
  induction fuel generalizing rest s with
  | zero =>
    cases rest with
    | nil => simp at hlarge
    | cons b rest => exact ⟨rfl, 0, by simp⟩
  | succ fuel ih =>
    cases rest with
    | nil => simp at hlarge
    | cons b rest =>
      set data := b :: rest with hdata
      rw [hdata, sendLoop, ← hdata]
      rotate_left
      · exact List.cons_ne_nil _ _
      simp only [Prog.bind_eq, wp_bind, wp_send W]
      by_cases hcount : toInt32 data.length ≤ 0
      · simp only [Conn.send_nonpositive hcount]
        refine ⟨⟨if toInt32 data.length < 0 then none else some 0, W.conn s, rfl, rfl⟩, ?_⟩
        rintro r c ⟨hc, hr⟩
        subst hc
        by_cases hneg : toInt32 data.length < 0
        · rw [if_pos hneg] at hr
          subst hr
          exact ⟨rfl, 0, by simp⟩
        · rw [if_neg hneg] at hr
          subst hr
          exact ⟨rfl, 0, by simp⟩
      · have hmany := (toInt32_large hlarge).resolve_left hcount
        have hcount : 0 < toInt32 data.length := by omega
        simp only [Conn.send_positive hcount]
        refine ⟨⟨_, _, Or.inl ⟨1, rfl, by omega, by omega, rfl⟩⟩, ?_⟩
        rintro r c (⟨n, rfl, hpos, hle, rfl⟩ | ⟨heof, rfl, rfl⟩)
        · obtain ⟨n, rfl⟩ := Nat.exists_eq_succ_of_ne_zero hpos.ne'
          have hrest : 2 ^ 31 ≤ (data.drop (n + 1)).length := by
            rw [List.length_drop]
            omega
          have hw := ih (s := W.put s ((W.conn s).emit (data.take (n + 1)))) hrest
          refine wp_mono hw ?_
          rintro r t ⟨rfl, k, rfl⟩
          exact ⟨rfl, n + 1 + k, by simp [emit_take_drop]⟩
        · exact ⟨rfl, 0, by simp⟩

lemma wp_sendAll_large {data : Bytes} (hlarge : 2 ^ 31 ≤ data.length) :
    wp nx (sendAll data)
      (fun r t => r = .ok false ∧ ∃ k, t = (W.put s ((W.conn s).emit (data.take k))))
      s :=
  wp_sendLoop_large W hlarge

/-- The part of `Wired` that sending needs. -/
structure Sending {σ : Type} (nx : Next Call Answer σ) where
  conn : σ → Conn
  put : σ → Conn → σ
  conn_put : ∀ s c, conn (put s c) = c
  put_put : ∀ s c c', put (put s c) c' = put s c'
  put_conn : ∀ s, put s (conn s) = s
  send : ∀ data count s r, nx (.send data count) s r = ((conn s).send data count r).map (put s)

attribute [simp] Sending.conn_put Sending.put_put Sending.put_conn

def Wired.sending : Sending nx := ⟨W.conn, W.put, W.conn_put, W.put_put, W.put_conn, W.send⟩

/-- How a transfer of `data` out ends: all of it sent, or a part that leaves some. -/
def SendEnds (S : Sending nx) (data : Bytes) (s : σ) (r : Except Exn Bool) (t : σ) : Prop :=
  r = .ok true ∧ t = S.put s ((S.conn s).emit data) ∨
    r = .ok false ∧ ∃ k < data.length, t = S.put s ((S.conn s).emit (data.take k))

variable {allow : Call → σ → Prop}

lemma safe_sendLoop (S : Sending nx) (hallow : ∀ data count s, allow (.send data count) s)
    (fuel : ℕ) (rest : Bytes) : Safe nx allow (sendLoop fuel rest) (SendEnds S rest s) s := by
  induction fuel generalizing rest s with
  | zero =>
    cases rest with
    | nil => exact Or.inl ⟨rfl, by simp⟩
    | cons b rest => exact Or.inr ⟨rfl, 0, Nat.succ_pos _, by simp⟩
  | succ fuel ih =>
    cases rest with
    | nil => exact Or.inl ⟨rfl, by simp⟩
    | cons b rest =>
      have hfail : SendEnds S (b :: rest) s (.ok false) (S.put s (S.conn s)) :=
        Or.inr ⟨rfl, 0, Nat.succ_pos _, by simp⟩
      rw [sendLoop.eq_3 _ _ (List.cons_ne_nil b rest)]
      generalize toInt32 (b :: rest).length = count
      refine ⟨hallow _ _ _, fun r t ht => ?_⟩
      rw [S.send, Option.map_eq_some_iff] at ht
      obtain ⟨c, hc, rfl⟩ := ht
      by_cases hpos : 0 < count
      · obtain ⟨n, rfl, hn, -, rfl⟩ | ⟨-, rfl, rfl⟩ := (Conn.send_positive hpos).mp hc
        · obtain ⟨n, rfl⟩ := Nat.exists_eq_succ_of_ne_zero hn.ne'
          refine safe_mono (ih ((b :: rest).drop (n + 1))) ?_
          rintro r t (⟨rfl, rfl⟩ | ⟨rfl, k, hk, rfl⟩)
          · refine Or.inl ⟨rfl, ?_⟩
            rw [S.conn_put, S.put_put, Conn.emit_emit, List.take_append_drop]
          · refine Or.inr ⟨rfl, n + 1 + k, ?_, ?_⟩
            · rw [List.length_drop] at hk
              omega
            · rw [S.conn_put, S.put_put, emit_take_drop]
        · exact hfail
      · obtain ⟨rfl, rfl⟩ := (Conn.send_nonpositive (Int.not_lt.mp hpos)).mp hc
        by_cases hneg : count < 0
        · rw [if_pos hneg]
          exact hfail
        · rw [if_neg hneg]
          exact hfail

lemma safe_sendAll (S : Sending nx) (hallow : ∀ data count s, allow (.send data count) s)
    (data : Bytes) : Safe nx allow (sendAll data) (SendEnds S data s) s :=
  safe_sendLoop S hallow _ _

end Send

end Mtfss
