import TinyBasic.Span
import TinyBasic.Token.Keyword

/-!
# Token — the words of a line

A token is a piece of a line together with its kind and the span it covers. The text of a string
token keeps its quotes.
-/

namespace TinyBasic

/-- The kinds of token. -/
inductive Token.Kind where
  | keyword
  | str
  | var
  | num
  | plus
  | minus
  | times
  | divide
  | lparen
  | rparen
  | relop
  | comma
  | semicolon
  deriving DecidableEq, Repr

/-- A piece of a line, classified and located. -/
structure Token where
  kind : Token.Kind
  text : String
  span : Span
  deriving DecidableEq, Repr

namespace Token

/-- What messages call a token of this kind. -/
def Kind.describe : Kind → String
  | keyword => "keyword"
  | str => "string"
  | var => "variable"
  | num => "number"
  | plus => "`+`"
  | minus => "`-`"
  | times => "`*`"
  | divide => "`/`"
  | lparen => "`(`"
  | rparen => "`)`"
  | relop => "relational operator"
  | comma => "`,`"
  | semicolon => "`;`"

/-- What messages call a piece of a line: its kind, and its text between backticks. -/
def describe (kind : Kind) (text : String) : String :=
  kind.describe ++ " `" ++ text ++ "`"

/-- The token as messages show it. -/
def render (t : Token) : String :=
  describe t.kind t.text

/-- The keyword that the token spells, if it is a keyword token. -/
def keyword? (t : Token) : Option Keyword :=
  if t.kind = .keyword then Keyword.ofText? t.text else none

/-- The token with its place, as token listings show it. -/
def listing (t : Token) : String :=
  t.render ++ " @ " ++ t.span.render

/-- The text of a string token between its quotes. -/
def unquoted (t : Token) : String :=
  String.ofList (t.text.toList.drop 1).dropLast

end Token
end TinyBasic
