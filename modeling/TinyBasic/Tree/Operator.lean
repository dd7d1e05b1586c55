/-!
# Operator — arithmetic and comparison

The four arithmetic operators and the six comparisons of the language, with the names that trees
are shown with.
-/

namespace TinyBasic

/-- The arithmetic operators. -/
inductive ArithOp where
  | add
  | sub
  | mul
  | div
  deriving DecidableEq, Repr

/-- The comparisons. -/
inductive Relop where
  | equal
  | notEqual
  | greaterThan
  | greaterOrEqual
  | lessThan
  | lessOrEqual
  deriving DecidableEq, Repr

/-- The name of the operator in a shown tree. -/
def ArithOp.name : ArithOp → String
  | add => "Add"
  | sub => "Sub"
  | mul => "Mul"
  | div => "Div"

namespace Relop

/-- The name of the comparison in a shown tree. -/
def name : Relop → String
  | equal => "Equal"
  | notEqual => "NotEqual"
  | greaterThan => "GreaterThan"
  | greaterOrEqual => "GreaterOrEqualThan"
  | lessThan => "LessThan"
  | lessOrEqual => "LessOrEqualThan"

/-- The comparison that a spelling stands for. Inequality has two spellings, and whatever is not
the spelling of another comparison stands for equality. -/
def ofText (text : String) : Relop :=
  if text = "<>" ∨ text = "><" then notEqual
  else if text = ">" then greaterThan
  else if text = ">=" then greaterOrEqual
  else if text = "<" then lessThan
  else if text = "<=" then lessOrEqual
  else equal

end Relop
end TinyBasic
