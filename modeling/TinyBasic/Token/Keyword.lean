/-!
# Keyword — the reserved words

The thirteen words that the language reserves, and their spellings. No spelling begins another,
so at most one keyword can stand at a place of a line.
-/

namespace TinyBasic

/-- A reserved word. -/
inductive Keyword where
  | print
  | ifKw
  | thenKw
  | goto
  | input
  | letKw
  | gosub
  | returnKw
  | clear
  | list
  | run
  | endKw
  | quit
  deriving DecidableEq, Repr

namespace Keyword

/-- Every keyword. -/
def all : List Keyword :=
  [print, ifKw, thenKw, goto, input, letKw, gosub, returnKw, clear, list, run, endKw, quit]

/-- The word as it is written in a line. -/
def spelling : Keyword → String
  | print => "PRINT"
  | ifKw => "IF"
  | thenKw => "THEN"
  | goto => "GOTO"
  | input => "INPUT"
  | letKw => "LET"
  | gosub => "GOSUB"
  | returnKw => "RETURN"
  | clear => "CLEAR"
  | list => "LIST"
  | run => "RUN"
  | endKw => "END"
  | quit => "QUIT"

/-- The keyword with this spelling, capitals only. -/
def ofText? (text : String) : Option Keyword :=
  all.find? fun k => k.spelling == text

/-- The keyword that a run of characters begins with. -/
def leading? (cs : List Char) : Option Keyword :=
  all.find? fun k => k.spelling.toList.isPrefixOf cs

theorem mem_all (k : Keyword) : k ∈ all := by
  cases k <;> decide

/-- A keyword is found again from its spelling. -/
@[simp] theorem ofText?_spelling (k : Keyword) : ofText? k.spelling = some k := by
  cases k <;> decide

end Keyword
end TinyBasic
