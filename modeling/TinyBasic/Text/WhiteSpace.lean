/-!
# WhiteSpace — the Unicode property `White_Space`

The characters that count as white space around a line. They are the twenty-five code points with
the Unicode property `White_Space`, many more than the five that separate tokens.
-/

namespace TinyBasic
namespace Text

/-- The code points with the property, as ranges with both ends included. -/
def whiteSpaceRanges : List (Nat × Nat) :=
  [(0x0009, 0x000D), (0x0020, 0x0020), (0x0085, 0x0085), (0x00A0, 0x00A0), (0x1680, 0x1680),
   (0x2000, 0x200A), (0x2028, 0x2029), (0x202F, 0x202F), (0x205F, 0x205F), (0x3000, 0x3000)]

/-- Whether a character is white space. -/
def isWhiteSpace (c : Char) : Bool :=
  whiteSpaceRanges.any fun (first, last) => first ≤ c.toNat && c.toNat ≤ last

/-- The list without the elements at its end for which `p` holds. -/
def dropTrailing {α : Type} (p : α → Bool) (l : List α) : List α :=
  (l.reverse.dropWhile p).reverse

/-- The characters without the white space at both ends. -/
def trim (cs : List Char) : List Char :=
  dropTrailing isWhiteSpace (cs.dropWhile isWhiteSpace)

end Text
end TinyBasic
