/-!
# Word — checked 64-bit arithmetic

The integers of the language are 64-bit words. Every operation here is checked: it gives the
exact result, or `none` if a word cannot hold it. `ofInt?` is the one place of the range check,
and `toInt` the view through which every operation is described.

Division rounds down. It is put together from the truncating quotient and remainder: the quotient
is one too large exactly when the signs of the operands differ and the division is not exact.
-/

namespace TinyBasic

/-- The integers that the language computes with. -/
abbrev Word := Int64

namespace Word

/-- The word with the value `n`, if there is one. -/
def ofInt? (n : Int) : Option Word :=
  if Int64.minValue.toInt ≤ n ∧ n ≤ Int64.maxValue.toInt then some (Int64.ofInt n) else none

/-- The exact sum. -/
def add? (a b : Word) : Option Word :=
  ofInt? (a.toInt + b.toInt)

/-- The exact difference. -/
def sub? (a b : Word) : Option Word :=
  ofInt? (a.toInt - b.toInt)

/-- The exact product. -/
def mul? (a b : Word) : Option Word :=
  ofInt? (a.toInt * b.toInt)

/-- The exact negation. -/
def neg? (a : Word) : Option Word :=
  ofInt? (-a.toInt)

/-- The word with the value of a number without a sign. -/
def ofUInt64? (n : UInt64) : Option Word :=
  ofInt? n.toNat

/-- The exact difference to a number without a sign. -/
def subUInt64? (a : Word) (n : UInt64) : Option Word :=
  ofInt? (a.toInt - n.toNat)

/-- The quotient, rounded toward zero. A zero divisor has none, and neither has the least word
over minus one. -/
def quot? (a b : Word) : Option Word :=
  if b = 0 ∨ (a = Int64.minValue ∧ b = -1) then none else some (a / b)

/-- The remainder that belongs to `quot?`. -/
def rem? (a b : Word) : Option Word :=
  if b = 0 ∨ (a = Int64.minValue ∧ b = -1) then none else some (a % b)

/-- The quotient, rounded down. -/
def floorDiv? (a b : Word) : Option Word := do
  let q ← a.quot? b
  let r ← a.rem? b
  -- truncation rounded up if the exact quotient is negative and no integer
  if r ≠ 0 ∧ (decide (a < 0) ^^ decide (b < 0)) then q.sub? 1 else some q

theorem ofInt?_eq_some_iff {n : Int} {w : Word} : ofInt? n = some w ↔ w.toInt = n := by
  have hlo := w.minValue_le_toInt
  have hhi := w.toInt_le
  simp only [ofInt?]
  split
  case isTrue h =>
    have hvalue := Int64.toInt_ofInt_of_le h.1 (Int.lt_add_one_of_le h.2)
    rw [Option.some.injEq, ← Int64.toInt_inj, hvalue]
    exact eq_comm
  case isFalse h =>
    simp only [reduceCtorEq, false_iff]
    omega

theorem ofInt?_eq_none_iff {n : Int} :
    ofInt? n = none ↔ n < Int64.minValue.toInt ∨ Int64.maxValue.toInt < n := by
  simp only [ofInt?]
  split
  case isTrue h =>
    simp only [reduceCtorEq, false_iff]
    omega
  case isFalse h =>
    simp only [true_iff]
    omega

@[simp] theorem ofInt?_toInt (w : Word) : ofInt? w.toInt = some w :=
  ofInt?_eq_some_iff.2 rfl

end Word
end TinyBasic
