import Mathlib.Tactic.Common
import Mathlib.Data.Int.Notation
import Mathlib.Data.Nat.Notation
import Mathlib.Data.List.Basic
import Mathlib.Data.List.Infix
import Mathlib.Algebra.Ring.Int.Defs
import Mathlib.Algebra.Ring.Nat

/-!
Machine words and the text the program reads and writes.

A `std::string` is a sequence of bytes, not of characters: file and
function names arrive as whatever bytes the target holds.
-/

namespace Pyflame

/-- `unsigned long` and `size_t` on x86-64. -/
abbrev Word := BitVec 64

abbrev Byte := BitVec 8

/-- Bytes are compared by their value. -/
instance instLawfulBEqByte : LawfulBEq Byte := inferInstance

/-- `std::string`. -/
abbrev Bytes := List Byte

/-- The bytes of a string literal. The literals of the source are ASCII. -/
def text (s : String) : Bytes := s.toList.map fun c => BitVec.ofNat 8 c.toNat

/-- The digits of a number. -/
def numeral (base n : ℕ) : Bytes := (Nat.toDigits base n).map fun c => BitVec.ofNat 8 c.toNat

/-- The numeral an unsigned number is written as by `operator<<`. -/
def decimal (n : ℕ) : Bytes := numeral 10 n

/-- The same for a signed number. -/
def signedDecimal (n : ℤ) : Bytes :=
  if n < 0 then text "-" ++ decimal n.natAbs else decimal n.natAbs

/-- How `operator<<` writes a `void *`. -/
def pointer (w : Word) : Bytes :=
  if w = 0 then text "0"
  else text "0x" ++ numeral 16 w.toNat

end Pyflame
