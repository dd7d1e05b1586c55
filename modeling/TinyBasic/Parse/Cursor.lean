import TinyBasic.Parse.Error
import TinyBasic.Token.Stream

/-!
# Cursor — one token in view

A cursor goes over a stream of tokens and keeps one of them in view. It pulls the next token when it
passes the one in view, so that a line is scanned only as far as it is read. If the pull gives an
error, then passing the token fails with it.

A computation with a cursor (`CursorM`) may fail, and where its calls are limited it may be given up.
The cursor stays what it was when the computation failed.
-/

namespace TinyBasic

/-- A stream and the token in front of it, if the line has not ended. -/
structure Cursor where
  tokens : Tokens
  lookahead : Option Token
  deriving DecidableEq, Repr

/-- A computation that moves a cursor. -/
abbrev CursorM := ExceptT ParseError (StateT Cursor Option)

namespace Cursor

/-- The cursor at the first token of a line. -/
def ofText (m : Matcher) (text : String) : Except ParseError Cursor :=
  match (Tokens.ofText text).next m with
  | (none, tokens) => .ok ⟨tokens, none⟩
  | (some (.ok t), tokens) => .ok ⟨tokens, some t⟩
  | (some (.error e), _) => .error (.scan e)

/-- The error of finding what is in view, or the end of the line. -/
def unexpected (c : Cursor) (expected : Expected) : ParseError :=
  match c.lookahead with
  | some t => .atToken expected t
  | none => .unexpected expected .endOfLine (.point (byteLength c.tokens.raw.line))

/-- A failure at what is in view. -/
def fail {α : Type} (expected : Expected) : CursorM α := do
  throw ((← get).unexpected expected)

/-- The end of a computation that may make no more calls. -/
def giveUp {α : Type} : CursorM α := fun _ => none

/-- Whether the line has ended. -/
def isAtEnd : CursorM Bool := do
  return (← get).lookahead.isNone

/-- Whether a token of the kind is in view. -/
def check (kind : Token.Kind) : CursorM Bool := do
  return (← get).lookahead.map Token.kind == some kind

/-- The keyword in view, if it is one. -/
def peekKeyword : CursorM (Option Keyword) := do
  return (← get).lookahead.bind Token.keyword?

/-- The token in view, with the next one pulled in its place. At the end of the line nothing is
pulled any more. -/
def advance (m : Matcher) : CursorM (Option Token) := fun c =>
  match c.lookahead with
  | none => some (.ok none, c)
  | some t =>
      match c.tokens.next m with
      | (none, tokens) => some (.ok (some t), ⟨tokens, none⟩)
      | (some (.ok u), tokens) => some (.ok (some t), ⟨tokens, some u⟩)
      -- the stream gives nothing behind its error, which would look like the end of the line
      | (some (.error e), tokens) => some (.error (.scan e), { c with tokens })

/-- The token in view is passed if it has the kind. -/
def eat (m : Matcher) (kind : Token.Kind) : CursorM (Option Token) := do
  if ← check kind then advance m else return none

/-- The token in view must have the kind, and is passed. -/
def expect (m : Matcher) (kind : Token.Kind) (expected : Expected) : CursorM Token := do
  match ← eat m kind with
  | some t => return t
  | none => fail expected

/-- The token in view is passed if it is this keyword. -/
def eatKeyword (m : Matcher) (k : Keyword) : CursorM Bool := do
  if (← peekKeyword) = some k then
    let _ ← advance m
    return true
  else
    return false

end Cursor
end TinyBasic
