/-!
# Decimal — numbers as decimal text

The one place where numbers meet their decimal digits. `ofNat` and `ofInt` write a number,
`toNat` reads a run of digits back. Written numbers have no leading zeros, while any number of
leading zeros may be read.
-/

namespace TinyBasic
namespace Decimal

/-- The decimal digits of `n`, most significant first. -/
def ofNat (n : Nat) : String :=
  String.ofList (Nat.toDigits 10 n)

/-- The digits of `n`, after a minus sign if `n` is negative. -/
def ofInt (n : Int) : String :=
  if n < 0 then "-" ++ ofNat n.natAbs else ofNat n.natAbs

/-- The number that a run of decimal digits denotes; no digits denote zero. -/
def toNat (digits : List Char) : Nat :=
  Nat.ofDigitChars 10 digits 0

/-- The number that a run of decimal digits denotes, if 64 bits without a sign can hold it. -/
def toUInt64? (digits : List Char) : Option UInt64 :=
  if toNat digits < UInt64.size then some (UInt64.ofNat (toNat digits)) else none

/-- Reading the digits of a number gives the number back. -/
@[simp] theorem toNat_ofNat (n : Nat) : toNat (ofNat n).toList = n := by
  simp [toNat, ofNat, Nat.ofDigitChars_toDigits]

theorem toList_ofNat (n : Nat) : (ofNat n).toList = Nat.toDigits 10 n := by
  simp [ofNat]

theorem toList_ofNat_ne_nil (n : Nat) : (ofNat n).toList ≠ [] := by
  rw [toList_ofNat]
  exact Nat.toDigits_ne_nil

theorem isDigit_of_mem_ofNat {n : Nat} {c : Char} (h : c ∈ (ofNat n).toList) : c.isDigit = true := by
  rw [toList_ofNat] at h
  exact Nat.isDigit_of_mem_toDigits (by decide) (by decide) h

/-- A written number is never the empty text. -/
theorem ofInt_ne_empty (n : Int) : ofInt n ≠ "" := by
  intro h
  have hlist : (ofInt n).toList = [] := by
    rw [h]
    rfl
  have hdigits := toList_ofNat_ne_nil n.natAbs
  simp only [ofInt] at hlist
  split at hlist
  case isTrue => simp at hlist
  case isFalse => exact hdigits hlist

end Decimal
end TinyBasic
