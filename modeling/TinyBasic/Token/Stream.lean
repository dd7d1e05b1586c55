import TinyBasic.Token.Scan

/-!
# Stream — tokens one at a time

A stream holds a line and the place up to which it has been read, and each pull gives the next
token. It works in two layers.

* The raw lexer skips spacing and cuts the line where a `Matcher` says. The matcher is generated from
  the patterns of the tokens and is a parameter here.
* A matcher that has followed a keyword which then breaks off (`GO` of `GOTO`) may answer with the
  whole of the piece. Such a piece is no token, so the stream takes its first letter as a variable
  and starts the lexer again right behind that letter.

A piece that the matcher rejects is an error, and the stream gives nothing after it. `Scan` describes
the tokens of a line by themselves; that both come to the same is proved of every matcher that finds
the longest token.
-/

namespace TinyBasic

/-! ## Raw lexer -/

/-- What is known of the piece that starts with `c :: rest`, where `c` is no spacing: the kind of the
pattern it matches, or none if it is rejected, and the number of its characters after `c`. -/
abbrev Matcher := Char → List Char → Option Token.Kind × Nat

/-- A line and the bytes from `start` to `stop`, where the last piece was found. -/
structure RawLexer where
  line : List Char
  start : Nat
  stop : Nat
  deriving DecidableEq, Repr

namespace RawLexer

/-- The lexer at the start of a line. -/
def ofLine (line : List Char) : RawLexer :=
  ⟨line, 0, 0⟩

/-- The lexer with `n` more bytes counted to its last piece. -/
def bump (l : RawLexer) (n : Nat) : RawLexer :=
  { l with stop := l.stop + n }

/-- The characters of the last piece. -/
def slice (l : RawLexer) : List Char :=
  takeBytes (l.stop - l.start) (dropBytes l.start l.line)

/-- The characters behind the last piece. -/
def rest (l : RawLexer) : List Char :=
  dropBytes l.stop l.line

/-- The next piece: what the matcher says of it, and the lexer with its place. -/
def next (m : Matcher) (l : RawLexer) : Option (Option Token.Kind) × RawLexer :=
  let start := l.stop + byteLength (l.rest.takeWhile Scan.isSpacing)
  match l.rest.dropWhile Scan.isSpacing with
  | [] => (none, { l with start, stop := start })
  | c :: cs =>
      let (kind?, n) := m c cs
      (some kind?, { l with start, stop := start + byteLength (c :: cs.take n) })

end RawLexer

/-- The error of a rejected piece that covers `span`. Of the piece only an open string keeps the
whole span; else the error is at the first character. -/
def ScanError.unrecognized (text : List Char) (span : Span) : ScanError :=
  let first := text.head?.getD '\x00'
  if first = '"' then
    .unterminatedString span
  else
    .unexpectedChar first ⟨span.start, Span.saturate (span.start + first.utf8Size)⟩

/-! ## Stream -/

/-- The tokens of a line that have not been pulled yet. -/
structure Tokens where
  raw : RawLexer
  /-- An error was given, and nothing comes after it. -/
  failed : Bool
  deriving DecidableEq, Repr

namespace Tokens

/-- The stream of a line. -/
def ofText (text : String) : Tokens :=
  ⟨.ofLine text.toList, false⟩

/-- Whether a piece is a keyword that broke off. Variables have one letter and keywords are spelled
out, so more letters than that are neither; a rejected piece may be one, too. -/
def isBrokenPrefix (kind? : Option Token.Kind) (text : List Char) : Bool :=
  let letters := decide (1 < byteLength text) && text.all Char.isUpper
  match kind? with
  | none | some .var => letters
  | some .keyword => letters && (Keyword.ofText? (String.ofList text)).isNone
  | some _ => false

/-- The first letter of the last piece as a token, and a lexer of the same line that goes on behind
that letter. -/
def splitFirstLetter (raw : RawLexer) (text : List Char) : Token × RawLexer :=
  (⟨.var, String.ofList (takeBytes 1 text), .ofRange raw.start (raw.start + 1)⟩,
    (RawLexer.ofLine raw.line).bump (raw.start + 1))

/-- A pull: a token, an error, or nothing, and the stream behind it. -/
def next (m : Matcher) (s : Tokens) : Option (Except ScanError Token) × Tokens :=
  if s.failed then
    (none, s)
  else
    match s.raw.next m with
    | (none, raw) => (none, { s with raw })
    | (some kind?, raw) =>
        let span := Span.ofRange raw.start raw.stop
        if isBrokenPrefix kind? raw.slice then
          let (letter, raw) := splitFirstLetter raw raw.slice
          (some (.ok letter), { s with raw })
        else
          match kind? with
          | some kind => (some (.ok ⟨kind, String.ofList raw.slice, span⟩), { s with raw })
          | none => (some (.error (.unrecognized raw.slice span)), { raw, failed := true })

/-- What at most `limit` pulls give: the tokens, and the error if there was one. -/
def pull (m : Matcher) : Nat → Tokens → List Token × Option ScanError
  | 0, _ => ([], none)
  | limit + 1, s =>
      match s.next m with
      | (none, _) => ([], none)
      | (some (.error e), _) => ([], some e)
      | (some (.ok t), more) =>
          let (ts, e?) := pull m limit more
          (t :: ts, e?)

/-! ## The whole line -/

/-- The number of bytes that have not been read. -/
def remaining (s : Tokens) : Nat :=
  byteLength s.raw.line - s.raw.stop

theorem remaining_next_lt {m : Matcher} {s more : Tokens} {t : Token}
    (h : s.next m = (some (.ok t), more)) : more.remaining < s.remaining := by
  have hcut := byteLength_dropBytes_le s.raw.stop s.raw.line
  have hsplit : s.raw.rest.takeWhile Scan.isSpacing ++ s.raw.rest.dropWhile Scan.isSpacing =
      dropBytes s.raw.stop s.raw.line := List.takeWhile_append_dropWhile
  simp only [next, RawLexer.next] at h
  -- a piece has a first character, and the stream goes on behind that or further on
  split at h
  case isTrue => cases h
  case isFalse =>
    cases hrest : s.raw.rest.dropWhile Scan.isSpacing with
    | nil =>
        simp only [hrest] at h
        cases h
    | cons c cs =>
        have hc := c.utf8Size_pos
        simp only [hrest] at h hsplit
        rw [← hsplit, byteLength_append, byteLength_cons] at hcut
        split at h
        case isTrue =>
          cases h
          simp only [remaining, splitFirstLetter, RawLexer.ofLine, RawLexer.bump]
          omega
        case isFalse =>
          split at h
          case h_1 =>
            cases h
            simp only [remaining, byteLength_cons]
            omega
          case h_2 => cases h

/-- All that the stream gives: the tokens, and the error if it ends in one. -/
def drain (m : Matcher) (s : Tokens) : List Token × Option ScanError :=
  match _ : s.next m with
  | (none, _) => ([], none)
  | (some (.error e), _) => ([], some e)
  | (some (.ok t), more) =>
      let (ts, e?) := drain m more
      (t :: ts, e?)
termination_by s.remaining
decreasing_by exact remaining_next_lt ‹_›

end Tokens

/-- All tokens of a line at once, or its error. -/
def tokenizeAll (m : Matcher) (text : String) : Except ScanError (List Token) :=
  match (Tokens.ofText text).drain m with
  | (ts, none) => .ok ts
  | (_, some e) => .error e

end TinyBasic
