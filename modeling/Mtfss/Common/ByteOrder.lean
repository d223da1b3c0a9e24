import Mtfss.Common.Bytes
import Mathlib.Tactic.IntervalCases
import Mathlib.Tactic.NormNum
import Mathlib.Tactic.Ring

/-! Integers in memory, and the conversions between host and network byte order. -/

namespace Mtfss

inductive Endian
  | little
  | big
  deriving DecidableEq

namespace ByteOrder

def le32 (x : UInt32) : Bytes :=
  [x.toUInt8, (x >>> 8).toUInt8, (x >>> 16).toUInt8, (x >>> 24).toUInt8]

def low (x : UInt64) : UInt32 := x.toUInt32

def high (x : UInt64) : UInt32 := (x >>> 32).toUInt32

def le64 (x : UInt64) : Bytes := le32 (low x) ++ le32 (high x)

def be32 (x : UInt32) : Bytes := (le32 x).reverse

def be64 (x : UInt64) : Bytes := (le64 x).reverse

def mem32 : Endian → UInt32 → Bytes
  | .little, x => le32 x
  | .big, x => be32 x

def mem64 : Endian → UInt64 → Bytes
  | .little, x => le64 x
  | .big, x => be64 x

def value : Bytes → ℕ
  | [] => 0
  | b :: bs => b.toNat + 256 * value bs

def load32 : Endian → Bytes → UInt32
  | .little, bs => .ofNat (value bs)
  | .big, bs => .ofNat (value bs.reverse)

def load64 : Endian → Bytes → UInt64
  | .little, bs => .ofNat (value bs)
  | .big, bs => .ofNat (value bs.reverse)

def bswap32 (x : UInt32) : UInt32 :=
  (x <<< 24) ||| ((x &&& (0xFF00 : UInt32)) <<< 8) ||| ((x >>> 8) &&& (0xFF00 : UInt32)) |||
    (x >>> 24)

/-- `htonl`, and `ntohl` -/
def htonl : Endian → UInt32 → UInt32
  | .little, x => bswap32 x
  | .big, x => x

/-- The macro `htonll`, and `ntohll` -/
def htonll (host : Endian) (x : UInt64) : UInt64 :=
  if 1 = htonl host 1 then x
  else ((htonl host (x &&& (0xFFFFFFFF : UInt64)).toUInt32).toUInt64 <<< 32) |||
    (htonl host (x >>> 32).toUInt32).toUInt64

lemma byte_ext {a b : Byte} (h : ∀ i < 8, a.toBitVec.getLsbD i = b.toBitVec.getLsbD i) :
    a = b :=
  UInt8.toBitVec_inj.mp (BitVec.eq_of_getLsbD_eq h)

lemma word_ext {a b : UInt32} (h : ∀ i < 32, a.toBitVec.getLsbD i = b.toBitVec.getLsbD i) :
    a = b :=
  UInt32.toBitVec_inj.mp (BitVec.eq_of_getLsbD_eq h)

lemma le32_bswap32 (x : UInt32) : le32 (bswap32 x) = be32 x := by
  simp only [le32, be32, bswap32, List.reverse_cons, List.reverse_nil, List.nil_append,
    List.cons_append, List.cons.injEq, and_true]
  refine ⟨?_, ?_, ?_, ?_⟩ <;> apply byte_ext <;> intro i hi <;> interval_cases i <;> simp

lemma bswap32_bswap32 (x : UInt32) : bswap32 (bswap32 x) = x := by
  apply word_ext
  intro i hi
  interval_cases i <;> simp [bswap32]

lemma low_join (a b : UInt32) : low ((a.toUInt64 <<< 32) ||| b.toUInt64) = b := by
  apply word_ext
  intro i hi
  simp only [low, UInt64.toBitVec_toUInt32, UInt64.toBitVec_or, UInt64.toBitVec_shiftLeft,
    UInt32.toBitVec_toUInt64, BitVec.getLsbD_setWidth, BitVec.getLsbD_or]
  have h : ¬ 32 ≤ i := by omega
  simp [hi, show i < 64 by omega]

lemma high_join (a b : UInt32) : high ((a.toUInt64 <<< 32) ||| b.toUInt64) = a := by
  apply word_ext
  intro i hi
  simp [high, hi, show 32 + i < 64 by omega]

lemma htonll_little (x : UInt64) : htonll .little x =
    ((bswap32 (low x)).toUInt64 <<< 32) ||| (bswap32 (high x)).toUInt64 := by
  have h : ¬ (1 = htonl .little 1) := by decide
  have hl : (x &&& (0xFFFFFFFF : UInt64)).toUInt32 = low x := by
    have hm := Nat.and_two_pow_sub_one_eq_mod (x.toNat % 2 ^ 32) 32
    apply UInt32.toNat_inj.mp
    simpa [low] using hm
  rw [htonll, if_neg h, hl, htonl, htonl, high]

lemma mem32_htonl (host : Endian) (x : UInt32) : mem32 host (htonl host x) = be32 x := by
  cases host with
  | little => exact le32_bswap32 x
  | big => rfl

lemma mem64_htonll (host : Endian) (x : UInt64) : mem64 host (htonll host x) = be64 x := by
  cases host with
  | little =>
    rw [htonll_little, mem64, le64, low_join, high_join, le32_bswap32, le32_bswap32, be64, le64,
      List.reverse_append, be32, be32]
  | big => rfl

lemma htonl_htonl (host : Endian) (x : UInt32) : htonl host (htonl host x) = x := by
  cases host with
  | little => exact bswap32_bswap32 x
  | big => rfl

lemma toNat_low_high (x : UInt64) : x.toNat = (low x).toNat + 2 ^ 32 * (high x).toNat := by
  have h := x.toNat_lt
  simp [low, high, Nat.shiftRight_eq_div_pow]
  omega

lemma join_low_high (x : UInt64) : ((high x).toUInt64 <<< 32) ||| (low x).toUInt64 = x := by
  apply UInt64.toNat_inj.mp
  rw [toNat_low_high x, toNat_low_high, low_join, high_join]

lemma htonll_htonll (host : Endian) (x : UInt64) : htonll host (htonll host x) = x := by
  cases host with
  | little =>
    rw [htonll_little (htonll .little x), htonll_little x, low_join, high_join, bswap32_bswap32,
      bswap32_bswap32, join_low_high]
  | big => rfl

lemma value_append (xs ys : Bytes) : value (xs ++ ys) = value xs + 256 ^ xs.length * value ys := by
  induction xs with
  | nil => simp [value]
  | cons b xs ih =>
    rw [List.cons_append, value, ih, value, List.length_cons]
    ring

lemma value_le32 (x : UInt32) : value (le32 x) = x.toNat := by
  have h := x.toNat_lt
  simp [value, le32, Nat.shiftRight_eq_div_pow]
  omega

lemma value_le64 (x : UInt64) : value (le64 x) = x.toNat := by
  have hl : (le32 (low x)).length = 4 := rfl
  rw [le64, value_append, value_le32, value_le32, toNat_low_high x, hl]
  norm_num

lemma load32_mem32 (host : Endian) (x : UInt32) : load32 host (mem32 host x) = x := by
  cases host <;> simp [load32, mem32, be32, value_le32]

lemma load64_mem64 (host : Endian) (x : UInt64) : load64 host (mem64 host x) = x := by
  cases host <;> simp [load64, mem64, be64, value_le64]

@[simp] lemma mem32_length (host : Endian) (x : UInt32) : (mem32 host x).length = 4 := by
  cases host <;> rfl

@[simp] lemma mem64_length (host : Endian) (x : UInt64) : (mem64 host x).length = 8 := by
  cases host <;> rfl

@[simp] lemma be32_length (x : UInt32) : (be32 x).length = 4 := rfl

@[simp] lemma be64_length (x : UInt64) : (be64 x).length = 8 := rfl

end ByteOrder

end Mtfss
