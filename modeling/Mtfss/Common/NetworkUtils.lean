import Mathlib.Tactic.Ring
import Mtfss.System.Calls

/-! `send_all` and `recv_all`: partial transfers repeated until all bytes have moved. -/

namespace Mtfss

open Effects

/-- `static_cast<int>` of a `size_t` -/
def toInt32 (n : ℕ) : ℤ := (n : ℤ).bmod (2 ^ 32)

/-- The loop of `send_all`; `rest` is `data + total_sent`. Each round moves at least one byte, so
`fuel` rounds are enough for `fuel` bytes. -/
def sendLoop : ℕ → Bytes → Code Bool
  | _, [] => pure true
  | 0, _ => pure false
  | fuel + 1, rest => do
    match ← Sys.send rest (toInt32 rest.length) with
    | none => pure false
    | some 0 => pure false
    | some n => sendLoop fuel (rest.drop n)

def sendAll (data : Bytes) : Code Bool := sendLoop data.length data

/-- The loop of `recv_all`; `got` is the part of the buffer that has been filled. -/
def recvLoop : ℕ → ℕ → Bytes → Code (Option Bytes)
  | _, 0, got => pure (some got)
  | 0, _, _ => pure none
  | fuel + 1, remaining, got => do
    match ← Sys.recv (toInt32 remaining) with
    | none => pure none
    | some [] => pure none
    | some bs => recvLoop fuel (remaining - bs.length) (got ++ bs)

/-- The filled buffer, or `none` when `recv_all` returns `false`. -/
def recvAll (length : ℕ) : Code (Option Bytes) := recvLoop length length []

end Mtfss
