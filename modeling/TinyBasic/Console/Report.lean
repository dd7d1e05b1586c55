import TinyBasic.Machine.Line

/-!
# Report — showing errors

An error of evaluation is reported in one line. An error in the text of a line is reported in
three: the message, the line itself, and carets under the part at fault. Spans are counted in bytes
and columns in characters, so the carets have to be placed by `column`.
-/

namespace TinyBasic
namespace Report

/-- How many characters take up exactly the first `n` bytes, if a character ends there. -/
def charsWithin? (n : Nat) (cs : List Char) : Option Nat :=
  match n, cs with
  | 0, _ => some 0
  | _ + 1, [] => none
  | n + 1, c :: cs =>
      if c.utf8Size ≤ n + 1 then
        (charsWithin? (n + 1 - c.utf8Size) cs).map (· + 1)
      else
        none

/-- The number of characters in front of a byte offset, which counts as the end of the line if it
lies beyond. An offset inside a character stands for itself. -/
def column (cs : List Char) (offset : Nat) : Nat :=
  -- from here on the offset lies within the line
  let offset := min offset (byteLength cs)
  (charsWithin? offset cs).getD offset

/-- Carets under a part of a line, at least one. -/
def caret (line : String) (span : Span) : String :=
  let start := column line.toList span.start
  let width := max 1 (column line.toList span.stop - start)
  String.ofList (List.replicate start ' ' ++ List.replicate width '^')

/-- The report of an error in a line. -/
def render (line : String) (e : LineError) : String :=
  match e.span? with
  | none => "RUNTIME ERROR " ++ e.message ++ "\n"
  | some span =>
      "SYNTAX ERROR " ++ e.message ++ "\n  " ++ line ++ "\n  " ++ caret line span ++ "\n"

end Report
end TinyBasic
