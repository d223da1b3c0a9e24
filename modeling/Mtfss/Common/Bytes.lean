import Mathlib.Data.List.Basic

/-! Byte strings. -/

namespace Mtfss

abbrev Byte := UInt8

/-- `std::string` and `std::vector<char>`. -/
abbrev Bytes := List Byte

/-- An ASCII string literal. -/
def bytes (s : String) : Bytes := s.toList.map (fun c => UInt8.ofNat c.toNat)

/-- `std::to_string`. -/
def decimal (n : ℕ) : Bytes := (Nat.toDigits 10 n).map (fun c => UInt8.ofNat c.toNat)

def nul : Byte := 0x00
def slash : Byte := 0x2F
def backslash : Byte := 0x5C
def colon : Byte := 0x3A
def dot : Byte := 0x2E

end Mtfss
