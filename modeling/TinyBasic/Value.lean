import TinyBasic.Decimal
import TinyBasic.Tree.Operator
import TinyBasic.Word

/-!
# Value — results of evaluation

Evaluating a tree gives an integer, a truth value, a string or nothing. This module holds the
values, the ways in which evaluation can fail, and the operations on values: arithmetic, comparison
and negation, which are defined for integers only.

An operation looks at the type of its left operand first, then at that of its right operand, and
only then at their values.
-/

namespace TinyBasic

/-- The result of evaluating a tree. Statements give `void`. -/
inductive Value where
  | int (n : Word)
  | bool (b : Bool)
  | text (s : String)
  | void
  deriving DecidableEq, Repr

/-- The types of values. -/
inductive Value.Ty where
  | int
  | bool
  | text
  | void
  deriving DecidableEq, Repr

/-- The operations whose result can be too large for a word. -/
inductive Operation where
  | addition
  | subtraction
  | multiplication
  | division
  | negation
  deriving DecidableEq, Repr

/-- Why evaluation failed. -/
inductive EvalError where
  /-- The condition of an `IF` is not a comparison, but of this kind. -/
  | malformedCondition (kind : String)
  | undefinedVariable (name : String)
  | divisionByZero
  | integerOverflow (operation : Operation)
  | typeMismatch (expected got : Value.Ty)
  deriving DecidableEq, Repr

/-- The word for the type in messages. -/
def Value.Ty.name : Value.Ty → String
  | int => "int"
  | bool => "bool"
  | text => "str"
  | void => "void"

/-- The word for the operation in messages. -/
def Operation.name : Operation → String
  | addition => "addition"
  | subtraction => "subtraction"
  | multiplication => "multiplication"
  | division => "division"
  | negation => "negation"

/-- The text of the error. -/
def EvalError.message : EvalError → String
  | malformedCondition kind => "IF condition must be a comparison, found " ++ kind
  | undefinedVariable name => "undefined variable: " ++ name
  | divisionByZero => "division by zero"
  | integerOverflow operation => "integer overflow in " ++ operation.name
  | typeMismatch expected got => "type mismatch: expected " ++ expected.name ++ ", got " ++ got.name

/-- The operation that an arithmetic operator stands for. -/
def ArithOp.operation : ArithOp → Operation
  | add => .addition
  | sub => .subtraction
  | mul => .multiplication
  | div => .division

/-- The result of the operator on two words, if a word can hold it. Division rounds down. -/
def ArithOp.compute? : ArithOp → Word → Word → Option Word
  | add => Word.add?
  | sub => Word.sub?
  | mul => Word.mul?
  | div => Word.floorDiv?

/-- Whether the comparison holds between two words. -/
def Relop.holds (op : Relop) (a b : Word) : Bool :=
  match op with
  | equal => a == b
  | notEqual => a != b
  | greaterThan => b < a
  | greaterOrEqual => b ≤ a
  | lessThan => a < b
  | lessOrEqual => a ≤ b

namespace Value

/-- The type of a value. -/
def ty : Value → Ty
  | int _ => .int
  | bool _ => .bool
  | text _ => .text
  | void => .void

/-- The value as `PRINT` writes it. -/
def render : Value → String
  | int n => Decimal.ofInt n.toInt
  | bool true => "true"
  | bool false => "false"
  | text s => s
  | void => ""

/-- The integer that the value is. -/
def asInt : Value → Except EvalError Word
  | int n => .ok n
  | v => .error (.typeMismatch .int v.ty)

/-- The result of a checked operation as a value. -/
def ofResult (operation : Operation) (result : Option Word) : Except EvalError Value :=
  match result with
  | some n => .ok (int n)
  | none => .error (.integerOverflow operation)

/-- The operator applied to two values. -/
def arith (op : ArithOp) (left right : Value) : Except EvalError Value := do
  let a ← left.asInt
  let b ← right.asInt
  if op = .div ∧ b = 0 then
    throw .divisionByZero
  ofResult op.operation (op.compute? a b)

/-- The truth value of a comparison between two values. -/
def compare (op : Relop) (left right : Value) : Except EvalError Value := do
  let a ← left.asInt
  let b ← right.asInt
  return bool (op.holds a b)

/-- The value with its sign changed. -/
def negate (operand : Value) : Except EvalError Value := do
  ofResult .negation (← operand.asInt).neg?

end Value
end TinyBasic
