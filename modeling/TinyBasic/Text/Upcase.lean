/-!
# Upcase — capitals outside quotes

Lines are read in capitals only. Before a line is read its small letters are made capitals, except
in quoted strings: every quote opens a string or closes the one that is open.
-/

namespace TinyBasic
namespace Text

/-- The characters with capitals outside quotes, where `quoted` says whether they start inside. -/
def upcaseFrom (quoted : Bool) : List Char → List Char
  | [] => []
  | c :: cs =>
      if c = '"' then
        c :: upcaseFrom (!quoted) cs
      else
        (if quoted then c else c.toUpper) :: upcaseFrom quoted cs

/-- The line with capitals outside quotes. -/
def upcase (line : String) : String :=
  String.ofList (upcaseFrom false line.toList)

theorem length_upcaseFrom (quoted : Bool) (cs : List Char) :
    (upcaseFrom quoted cs).length = cs.length := by
  induction cs generalizing quoted with
  | nil => rfl
  | cons c cs ih =>
      simp only [upcaseFrom]
      split <;> simp [ih]

end Text
end TinyBasic
