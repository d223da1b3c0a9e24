import Mtfss.Common.Bytes
import Mathlib.Data.List.Infix

/-! One end of a TCP connection, and the socket calls on it. -/

namespace Mtfss

/-- A byte that this end has taken from, or given to, the connection. -/
inductive Traffic
  | rx (b : Byte)
  | tx (b : Byte)
  deriving DecidableEq

/-- `input` has arrived and is not read yet. With `eof` nothing more will arrive, and the peer may
be gone. `trace` is all that has passed through this end. -/
structure Conn where
  input : Bytes
  eof : Bool
  trace : List Traffic
  closes : ℕ

namespace Conn

/-- The connection after the next bytes `bs` have been read. -/
def consume (c : Conn) (bs : Bytes) : Conn :=
  { c with input := c.input.drop bs.length, trace := c.trace ++ bs.map .rx }

def emit (c : Conn) (bs : Bytes) : Conn := { c with trace := c.trace ++ bs.map .tx }

def close (c : Conn) : Conn := { c with closes := c.closes + 1 }

/-- `::recv` with an `int` count: between one byte and `count` bytes of what has arrived, no byte
or an error when nothing more will. `none` is `SOCKET_ERROR`. -/
def recv (c : Conn) (count : ℤ) (r : Option Bytes) : Option Conn :=
  if count < 0 then if r = none then some c else none
  else if count = 0 then if r = some [] then some c else none
  else
    match r with
    | none => if c.input = [] ∧ c.eof = true then some c else none
    | some bs =>
      if bs = [] then if c.input = [] ∧ c.eof = true then some c else none
      else if bs.length ≤ count ∧ bs <+: c.input then some (c.consume bs)
      else none

/-- What `::send` with an `int` count returns: between one byte and `count` bytes are accepted. It
can fail once the peer may be gone. `none` is `SOCKET_ERROR`. While there is no room the call
waits, for ever if the peer never reads: a run may leave it there at any step. -/
def send (c : Conn) (data : Bytes) (count : ℤ) (r : Option ℕ) : Option Conn :=
  if count < 0 then if r = none then some c else none
  else if count = 0 then if r = some 0 then some c else none
  else
    match r with
    | none => if c.eof = true then some c else none
    | some n => if 0 < n ∧ n ≤ count then some (c.emit (data.take n)) else none

lemma recv_cases {c c' : Conn} {count : ℤ} {r : Option Bytes} (h : c.recv count r = some c') :
    c' = c ∨ ∃ bs, bs <+: c.input ∧ c' = c.consume bs := by
  unfold recv at h
  rcases r with _ | bs <;> grind

lemma send_cases {c c' : Conn} {data : Bytes} {count : ℤ} {r : Option ℕ}
    (h : c.send data count r = some c') : c' = c ∨ ∃ n, c' = c.emit (data.take n) := by
  unfold send at h
  rcases r with _ | n <;> grind

lemma recv_trace {c c' : Conn} {count : ℤ} {r : Option Bytes} (h : c.recv count r = some c') :
    c.trace <+: c'.trace := by
  rcases recv_cases h with rfl | ⟨bs, -, rfl⟩
  · exact List.prefix_rfl
  · exact List.prefix_append _ _

lemma send_trace {c c' : Conn} {data : Bytes} {count : ℤ} {r : Option ℕ}
    (h : c.send data count r = some c') : c.trace <+: c'.trace := by
  rcases send_cases h with rfl | ⟨n, rfl⟩
  · exact List.prefix_rfl
  · exact List.prefix_append _ _

@[simp] lemma consume_nil (c : Conn) : c.consume [] = c := by simp [consume]

@[simp] lemma emit_nil (c : Conn) : c.emit [] = c := by simp [emit]

lemma consume_consume (c : Conn) (xs ys : Bytes) :
    (c.consume xs).consume ys = c.consume (xs ++ ys) := by
  simp [consume, List.drop_drop]

lemma emit_emit (c : Conn) (xs ys : Bytes) : (c.emit xs).emit ys = c.emit (xs ++ ys) := by
  simp [emit]

@[simp] lemma consume_input (c : Conn) (bs : Bytes) :
    (c.consume bs).input = c.input.drop bs.length := rfl

@[simp] lemma consume_eof (c : Conn) (bs : Bytes) : (c.consume bs).eof = c.eof := rfl

@[simp] lemma emit_input (c : Conn) (bs : Bytes) : (c.emit bs).input = c.input := rfl

@[simp] lemma emit_eof (c : Conn) (bs : Bytes) : (c.emit bs).eof = c.eof := rfl

/-- The connection after the next `n` bytes have been read, or all if there are fewer. -/
def skip (c : Conn) (n : ℕ) : Conn := c.consume (c.input.take n)

lemma skip_zero (c : Conn) : c.skip 0 = c := by simp [skip]

lemma skip_input (c : Conn) (n : ℕ) : (c.skip n).input = c.input.drop n := by
  rw [skip, consume_input, List.length_take]
  rcases le_total n c.input.length with h | h
  · rw [Nat.min_eq_left h]
  · rw [Nat.min_eq_right h, List.drop_length, List.drop_of_length_le h]

lemma skip_eof (c : Conn) (n : ℕ) : (c.skip n).eof = c.eof := rfl

lemma skip_skip (c : Conn) (a b : ℕ) : (c.skip a).skip b = c.skip (a + b) := by
  rw [skip, skip_input, skip, consume_consume, ← List.take_add]
  rfl

lemma skip_of_short {c : Conn} {n : ℕ} (h : c.input.length ≤ n) : c.skip n = c.consume c.input := by
  rw [skip, List.take_of_length_le h]

def sent (c : Conn) : Bytes := c.trace.filterMap (fun | .tx b => some b | .rx _ => none)

@[simp] lemma sent_emit (c : Conn) (bs : Bytes) : (c.emit bs).sent = c.sent ++ bs := by
  induction bs generalizing c with
  | nil => simp
  | cons b bs ih =>
    rw [show b :: bs = [b] ++ bs from rfl, ← emit_emit, ih]
    simp [sent, emit]

@[simp] lemma sent_consume (c : Conn) (bs : Bytes) : (c.consume bs).sent = c.sent := by
  simp [sent, consume, List.filterMap_map]

@[simp] lemma sent_close (c : Conn) : c.close.sent = c.sent := rfl

end Conn

end Mtfss
