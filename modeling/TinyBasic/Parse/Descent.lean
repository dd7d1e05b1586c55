import TinyBasic.Parse.Command
import TinyBasic.Parse.Cursor

/-!
# Descent — reading a line while it is scanned

The grammar as a reader with a cursor has it: each production looks at the token in view and passes
tokens on its way. A production that calls itself has passed a token since it was called, and `limit`
counts how many such calls may still be made. One call for each character of the line is enough; that
no reading is given up, and that it gives what the productions of `Parse` give for the tokens of the
whole line, is proved apart.
-/

namespace TinyBasic
namespace Descent

open Cursor

variable (m : Matcher)

/-! ## Expressions -/

/-- The value of a number token that has been passed. -/
def number (negative : Bool) (t : Token) : CursorM Word :=
  match t.value? negative with
  | some n => return n
  | none => throw (.atToken .num t)

/-- What follows a sign. -/
def signedOperand (negative : Bool) : CursorM Tree := do
  if let some t ← eat m .num then
    return .num (← number negative t)
  else if let some t ← eat m .var then
    return if negative then .neg (.var t.text) else .var t.text
  else
    fail .numOrVar

/-- One of two operators, if it is in view. -/
def eatOperator (first second : Token.Kind × ArithOp) : CursorM (Option ArithOp) := do
  if (← eat m first.1).isSome then
    return some first.2
  else if (← eat m second.1).isSome then
    return some second.2
  else
    return none

mutual

/-- An expression. -/
def expr (limit : Nat) : CursorM Tree := do
  let left ← term limit
  exprLoop limit left
termination_by (limit, 2)

/-- The rest of an expression that starts with `left`. -/
def exprLoop (limit : Nat) (left : Tree) : CursorM Tree := do
  match ← eatOperator m (.plus, .add) (.minus, .sub), limit with
  | none, _ => return left
  | some _, 0 => giveUp
  | some op, limit + 1 =>
      let right ← term limit
      exprLoop limit (.arith op left right)
termination_by (limit, 0)

/-- A term. -/
def term (limit : Nat) : CursorM Tree := do
  let left ← factor limit
  termLoop limit left
termination_by (limit, 1)

/-- The rest of a term that starts with `left`. -/
def termLoop (limit : Nat) (left : Tree) : CursorM Tree := do
  match ← eatOperator m (.times, .mul) (.divide, .div), limit with
  | none, _ => return left
  | some _, 0 => giveUp
  | some op, limit + 1 =>
      let right ← factor limit
      termLoop limit (.arith op left right)
termination_by (limit, 0)

/-- A factor. -/
def factor (limit : Nat) : CursorM Tree := do
  if (← eat m .plus).isSome then
    signedOperand m false
  else if (← eat m .minus).isSome then
    signedOperand m true
  else if let some t ← eat m .num then
    return .num (← number false t)
  else if let some t ← eat m .var then
    return .var t.text
  else if (← eat m .lparen).isSome then
    match limit with
    | 0 => giveUp
    | limit + 1 =>
        let inner ← expr limit
        let _ ← expect m .rparen .rparen
        return inner
  else
    fail .numberOrParen
termination_by (limit, 0)

end

/-! ## Statements -/

/-- An expression that stands for itself. -/
def bareExpression (limit : Nat) : CursorM Tree := do
  if ← check .str then
    fail .expression
  else
    expr m limit

/-- An item of `PRINT`. -/
def printItem (limit : Nat) : CursorM Tree := do
  match ← eat m .str with
  | some t => return .text t.unquoted
  | none => expr m limit

/-- The items of `PRINT` behind those that were read. -/
def printLoop (limit : Nat) (items : List Tree) : CursorM Tree := do
  let item ← printItem m limit
  if ← isAtEnd then
    return .print (items ++ [item])
  else
    let _ ← expect m .comma .comma
    if ← isAtEnd then
      fail .expression
    else
      match limit with
      | 0 => giveUp
      | limit + 1 => printLoop limit (items ++ [item])

/-- What follows `PRINT`. -/
def printStatement (limit : Nat) : CursorM Tree := do
  if ← isAtEnd then
    return .print []
  else
    printLoop m limit []

/-- What follows `GOTO` or `GOSUB`: an expression, of which `wrap` makes the statement. -/
def target (limit : Nat) (expected : Expected) (wrap : Tree → Tree) : CursorM Tree := do
  if ← isAtEnd then
    fail expected
  else
    return wrap (← expr m limit)

/-- The names of `INPUT` behind those that were read. -/
def inputLoop (limit : Nat) (names : List String) : CursorM Tree := do
  if (← eat m .comma).isSome then
    let t ← expect m .var .var
    match limit with
    | 0 => giveUp
    | limit + 1 => inputLoop limit (names ++ [t.text])
  else if ← check .var then
    fail .comma
  else
    return .input names

/-- What follows `INPUT`. -/
def inputStatement (limit : Nat) : CursorM Tree := do
  let t ← expect m .var .var
  inputLoop m limit [t.text]

/-- What follows `LET`. -/
def letStatement (limit : Nat) : CursorM Tree := do
  let name ← expect m .var .var
  let op ← expect m .relop .relop
  if op.text ≠ "=" then
    throw (.atToken .equal op)
  else
    return .assign name.text (← expr m limit)

/-- What follows `LIST`. -/
def listStatement : CursorM Tree := do
  if let some t ← eat m .num then
    return .listLine (.num (← number false t))
  else if ← isAtEnd then
    return .listAll
  else
    fail .num

mutual

/-- A statement. -/
def statement (limit : Nat) : CursorM Tree := do
  match ← peekKeyword with
  | none => bareExpression m limit
  | some k =>
      if k = .thenKw ∨ k = .quit then
        fail .statement
      else
        let _ ← advance m
        match k with
        | .print => printStatement m limit
        | .ifKw => ifStatement limit
        | .goto => target m limit .num .goto
        | .input => inputStatement m limit
        | .letKw => letStatement m limit
        | .gosub => target m limit .expression .gosub
        | .returnKw => return .ret
        | .clear => return .clear
        | .list => listStatement m
        | .run => return .run
        | .endKw => return .finish
        | .thenKw | .quit => fail .statement
termination_by (limit, 1)

/-- What follows `IF`. -/
def ifStatement (limit : Nat) : CursorM Tree := do
  let left ← expr m limit
  let op ← expect m .relop .relop
  let right ← expr m limit
  if ← eatKeyword m .thenKw then
    match limit with
    | 0 => giveUp
    | limit + 1 =>
        let body ← statement limit
        return .ifThen (.compare (.ofText op.text) left right) body
  else
    fail .thenKw
termination_by (limit, 0)

end

/-! ## Lines -/

/-- The end of the line. -/
def expectEnd : CursorM Unit := do
  if ← isAtEnd then
    return ()
  else
    fail .endOfLine

/-- A line: a number at its start is a line number. -/
def line (limit : Nat) : CursorM Tree := do
  match ← eat m .num with
  | some t =>
      let n ← number false t
      let tree ← statement m limit
      expectEnd
      return .numbered n tree
  | none =>
      let tree ← statement m limit
      expectEnd
      return tree

/-- A command: the word `QUIT`, or a line. -/
def command (limit : Nat) : CursorM Command := do
  if ← eatKeyword m .quit then
    expectEnd
    return .quit
  else
    return .line (← line m limit)

/-- What a computation from the start of a line comes to, unless it is given up. -/
def runOn {α : Type} (x : CursorM α) (text : String) : Option (Except ParseError α) :=
  match Cursor.ofText m text with
  | .error e => some (.error e)
  | .ok c => Prod.fst <$> x c

/-- The tree of a line, read while it is scanned. -/
def parse (text : String) : Option (Except ParseError Tree) :=
  runOn m (line m text.length) text

/-- The command that a line gives, read while it is scanned. -/
def parseCommand (text : String) : Option (Except ParseError Command) :=
  runOn m (command m text.length) text

end Descent
end TinyBasic
