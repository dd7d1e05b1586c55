import TinyBasic.Text.ByteLength
import TinyBasic.Token.Basic

/-!
# Scan — a line as tokens

A scan reads a line from left to right. At each place it skips spacing and takes the longest piece
that is a token: a keyword (no space need follow it), a quoted string, a single capital letter, a
number, a punctuation mark or a relational operator. The tokens end where the line ends, or at the
first character at which no token starts; `Scan.ending` says which.

Positions are counted in bytes of the line's UTF-8 form, while the line itself is handled as its
list of characters. `lexeme?` decides on one token, and `Scan.ofChars` repeats it on what is left.
-/

namespace TinyBasic

/-- Why a scan stopped before the end of the line, and where. -/
inductive ScanError where
  /-- A quote opens a string that no later quote closes. -/
  | unterminatedString (span : Span)
  /-- The character starts no token. -/
  | unexpectedChar (c : Char) (span : Span)
  deriving DecidableEq, Repr

namespace ScanError

/-- The part of the line at fault: the rest of the line from the open quote, or the one character. -/
def span : ScanError → Span
  | unterminatedString s => s
  | unexpectedChar _ s => s

/-- The text of the error. -/
def message : ScanError → String
  | unterminatedString _ => "Unterminated string literal"
  | unexpectedChar c _ => "Unexpected character `" ++ c.toString ++ "`"

end ScanError

/-- How a scan ended: at the end of a line of `length` bytes, or with an error. -/
inductive Ending where
  | complete (length : Nat)
  | failed (error : ScanError)
  deriving DecidableEq, Repr

/-- The tokens of a line in order, and how their sequence ends. -/
structure Scan where
  tokens : List Token
  ending : Ending
  deriving DecidableEq, Repr

namespace Scan

/-! ## One token -/

/-- The characters that separate tokens: space, tab, carriage return, newline and form feed. -/
def isSpacing (c : Char) : Bool :=
  c == ' ' || c == '\t' || c == '\r' || c == '\n' || c == '\x0c'

/-- The number of characters of the longest number that `cs` begins with, zero if there is none.
A number is a run of digits, or a point with digits after it and any number of digits before. -/
def numberLength (cs : List Char) : Nat :=
  let whole := (cs.takeWhile Char.isDigit).length
  match cs.drop whole with
  | '.' :: rest =>
      -- a point without digits behind it is not part of the number
      let fraction := (rest.takeWhile Char.isDigit).length
      if fraction = 0 then whole else whole + 1 + fraction
  | _ => whole

/-- The kind of a token that is a single mark, whatever follows it. -/
def mark? (c : Char) : Option Token.Kind :=
  match c with
  | '+' => some .plus
  | '-' => some .minus
  | '*' => some .times
  | '/' => some .divide
  | '(' => some .lparen
  | ')' => some .rparen
  | ',' => some .comma
  | ';' => some .semicolon
  | _ => none

/-- Whether the two characters together are one relational operator. -/
def isRelopPair (c d : Char) : Bool :=
  (c == '<' && (d == '>' || d == '=')) || (c == '>' && (d == '<' || d == '='))

/-- The token that a line starts with, given by its kind and the number of its characters after
the first one, `c`. There is none if no token starts with `c :: rest`. -/
def lexeme? (c : Char) (rest : List Char) : Option (Token.Kind × Nat) :=
  if c = '"' then
    -- the closing quote is the first one in `rest`
    (rest.idxOf? '"').map fun i => (.str, i + 1)
  else if c.isUpper then
    -- letters that begin no keyword stand for themselves, one at a time
    match Keyword.leading? (c :: rest) with
    | some k => some (.keyword, k.spelling.length - 1)
    | none => some (.var, 0)
  else if c.isDigit || c == '.' then
    match numberLength (c :: rest) with
    | 0 => none
    | n + 1 => some (.num, n)
  else if c == '<' || c == '>' || c == '=' then
    some (.relop, if (rest.head?.any (isRelopPair c)) then 1 else 0)
  else
    (mark? c).map fun kind => (kind, 0)

/-- The error of a line that goes on at byte `pos` with `c :: rest`, where no token starts. -/
def errorAt (pos : Nat) (c : Char) (rest : List Char) : ScanError :=
  if c = '"' then
    .unterminatedString (.ofRange pos (pos + byteLength (c :: rest)))
  else
    .unexpectedChar c (.ofRange pos (pos + c.utf8Size))

/-! ## A whole line -/

/-- The scan with a token put in front. -/
def cons (t : Token) (s : Scan) : Scan :=
  { s with tokens := t :: s.tokens }

/-- The scan of characters that stand at byte `pos` of their line. -/
def ofChars (pos : Nat) : List Char → Scan
  | [] => ⟨[], .complete pos⟩
  | c :: rest =>
      if isSpacing c then
        ofChars (pos + c.utf8Size) rest
      else
        match lexeme? c rest with
        | some (kind, n) =>
            let text := c :: rest.take n
            let stop := pos + byteLength text
            cons ⟨kind, String.ofList text, .ofRange pos stop⟩ (ofChars stop (rest.drop n))
        | none => ⟨[], .failed (errorAt pos c rest)⟩
termination_by cs => cs.length
decreasing_by
  · simp
  · simp only [List.length_drop, List.length_cons]
    omega

/-- The scan of a line. -/
def ofText (text : String) : Scan :=
  ofChars 0 text.toList

/-- The error that ended the scan, if one did. -/
def failure? (s : Scan) : Option ScanError :=
  match s.ending with
  | .complete _ => none
  | .failed e => some e

/-- All tokens of the line, if the scan reached its end. -/
def result (s : Scan) : Except ScanError (List Token) :=
  match s.ending with
  | .complete _ => .ok s.tokens
  | .failed e => .error e

/-! ## Partial scans

A reader that asks for one token at a time may stop early. It then has seen the first tokens of
the scan, and an error only if it asked for a token at the place of the error. -/

/-- What a reader that asks for at most `limit` tokens has seen: the tokens, and the error if the
scan ended in one before the limit was reached. -/
def upTo (s : Scan) (limit : Nat) : List Token × Option ScanError :=
  (s.tokens.take limit, if s.tokens.length < limit then s.failure? else none)

/-- Whether there is a token after the first `limit`. -/
def hasMore (s : Scan) (limit : Nat) : Bool :=
  limit < s.tokens.length

end Scan
end TinyBasic
