import TinyBasic.Decimal

/-!
# Span — byte ranges of a line

A span is the half-open range of byte offsets that a token or an error covers in the UTF-8 form
of a line. Offsets are held in 32 bits: what lies further out is recorded as the greatest offset.
-/

namespace TinyBasic

/-- A range of bytes: `start` is its first offset, and `stop` the offset just past its last. -/
structure Span where
  start : Nat
  stop : Nat
  deriving DecidableEq, Repr

namespace Span

/-- The greatest offset that is told apart from those beyond it. -/
def maxOffset : Nat := UInt32.size - 1

/-- The offset as it is recorded. -/
def saturate (offset : Nat) : Nat :=
  min offset maxOffset

/-- The span from `start` to `stop`, each recorded as far as 32 bits reach. -/
def ofRange (start stop : Nat) : Span :=
  ⟨saturate start, saturate stop⟩

/-- The empty span at an offset. -/
def point (offset : Nat) : Span :=
  ofRange offset offset

/-- The number of bytes covered. A reversed range covers none. -/
def length (s : Span) : Nat :=
  s.stop - s.start

/-- Whether no byte is covered. -/
def isEmpty (s : Span) : Bool :=
  s.length == 0

/-- The two offsets in decimal, with two dots between them. -/
def render (s : Span) : String :=
  Decimal.ofNat s.start ++ ".." ++ Decimal.ofNat s.stop

theorem saturate_of_le {n : Nat} (h : n ≤ maxOffset) : saturate n = n := by
  simp only [saturate]
  omega

theorem saturate_le_saturate {a b : Nat} (h : a ≤ b) : saturate a ≤ saturate b := by
  simp only [saturate]
  omega

theorem ofRange_of_le {a b : Nat} (ha : a ≤ maxOffset) (hb : b ≤ maxOffset) :
    ofRange a b = ⟨a, b⟩ := by
  simp only [ofRange, saturate_of_le ha, saturate_of_le hb]

end Span
end TinyBasic
