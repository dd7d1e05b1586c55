import TinyBasic.Token.Scan

/-!
# Error — why a line cannot be read

A line is rejected because of what was expected at some token and what was found there instead, or
because the scan failed before the grammar found fault. The reader of a line looks at most one
token ahead, so an error of the scan is met when the token behind the last good one is looked at.
-/

namespace TinyBasic

/-- What the grammar allows at a place. -/
inductive Expected where
  | num
  | var
  | relop
  | thenKw
  | comma
  /-- The equals sign of an assignment. -/
  | equal
  | expression
  /-- The operand of a sign. -/
  | numOrVar
  /-- The start of a factor. -/
  | numberOrParen
  | rparen
  | statement
  | endOfLine
  deriving DecidableEq, Repr

/-- The word for it in messages. -/
def Expected.describe : Expected → String
  | num => "NUM"
  | var => "VAR"
  | relop => "RELOP"
  | thenKw => "THEN"
  | comma => "COMMA"
  | equal => "EQUAL"
  | expression => "EXPRESSION"
  | numOrVar => "NUM or VAR"
  | numberOrParen => "NUMBER or LPAREN"
  | rparen => "RPAREN"
  | statement => "STATEMENT"
  | endOfLine => "END OF LINE"

/-- What stands at a place. -/
inductive Found where
  | token (kind : Token.Kind) (text : String)
  | endOfLine
  deriving DecidableEq, Repr

/-- The words for it in messages. -/
def Found.describe : Found → String
  | token kind text => Token.describe kind text
  | endOfLine => "end of line"

/-- Why a line was rejected. -/
inductive ParseError where
  | unexpected (expected : Expected) (found : Found) (span : Span)
  | scan (error : ScanError)
  deriving DecidableEq, Repr

namespace ParseError

/-- The text of the error. -/
def message : ParseError → String
  | unexpected expected found _ =>
      "Expected " ++ expected.describe ++ ", found " ++ found.describe
  | scan e => e.message

/-- The part of the line at fault. -/
def span : ParseError → Span
  | unexpected _ _ s => s
  | scan e => e.span

/-- What was expected, unless the scan failed. -/
def expected? : ParseError → Option Expected
  | unexpected expected _ _ => some expected
  | scan _ => none

/-- The error at a token that the grammar does not allow. -/
def atToken (expected : Expected) (t : Token) : ParseError :=
  unexpected expected (.token t.kind t.text) t.span

end ParseError

namespace Ending

/-- The error of finding the line at its end, where something else was expected. If the scan did
not get to the end of the line, then its own error is the one that is found. -/
def atEnd (fin : Ending) (expected : Expected) : ParseError :=
  match fin with
  | complete length => .unexpected expected .endOfLine (.point length)
  | failed e => .scan e

/-- The error of not finding what was expected in front of the tokens `ts`. -/
def unexpected (fin : Ending) (expected : Expected) (ts : List Token) : ParseError :=
  match ts with
  | [] => fin.atEnd expected
  | t :: _ => .atToken expected t

/-- The error at a token that has been read already and proves to be wrong in its value. The token
behind it has been looked at by then, so an error of the scan in that place comes first. -/
def reject (fin : Ending) (expected : Expected) (t : Token) (rest : List Token) : ParseError :=
  match rest, fin with
  | [], failed e => .scan e
  | _, _ => .atToken expected t

end Ending
end TinyBasic
