import TinyBasic.Machine.Printout
import TinyBasic.Machine.Variables
import TinyBasic.Tree.Render

/-!
# Eval — running a tree

A machine holds the variables and the printout. Evaluating a tree gives a value or an error, and
leaves the machine changed by the assignments and the printing done up to then: an error does not
take back what came before it.

There is no stored program, so jumps, input, listings and numbered lines do nothing, and their
parts are not evaluated.
-/

namespace TinyBasic

/-- What evaluation reads and changes. -/
structure Machine where
  memory : Variables := ∅
  printed : Printout := ∅
  deriving DecidableEq, Repr

/-- Evaluation: it changes a machine, and may fail. -/
abbrev EvalM := EStateM EvalError Machine

namespace Machine

/-- The machine with its printout taken away. -/
def emptied (m : Machine) : Machine :=
  { m with printed := ∅ }

/-- The value of a variable. -/
def readVariable (name : String) : EvalM Word := do
  ofExcept ((← EStateM.get).memory.get name)

/-- An assignment. -/
def assign (name : String) (n : Word) : EvalM Unit := do
  let m ← EStateM.get
  EStateM.set { m with memory := ← ofExcept (m.memory.set name n) }

/-- One line of printing. -/
def println (line : String) : EvalM Unit :=
  EStateM.modifyGet fun m => ((), { m with printed := m.printed.println line })

end Machine

namespace Tree

mutual

/-- The value of a tree. Operands are evaluated from left to right. -/
def eval : Tree → EvalM Value
  | num n => return .int n
  | var x => return .int (← Machine.readVariable x)
  | text s => return .text s
  | neg a => do
      ofExcept (← a.eval).negate
  | arith op a b => do
      let left ← a.eval
      let right ← b.eval
      ofExcept (Value.arith op left right)
  | compare op a b => do
      let left ← a.eval
      let right ← b.eval
      ofExcept (Value.compare op left right)
  | print items => do
      -- nothing is written unless every item has a value
      let texts ← evalItems items
      Machine.println (String.join texts)
      return .void
  | ifThen condition consequence => do
      if condition.isComparison then
        if (← condition.eval) = .bool true then consequence.eval else return .void
      else
        throw (.malformedCondition condition.kindName)
  | assign x a => do
      let n ← ofExcept (← a.eval).asInt
      Machine.assign x n
      return .void
  | goto _ | gosub _ | input _ | ret | clear | listAll | listLine _ | run | finish
  | numbered _ _ => return .void

/-- The texts of the values of a list of trees. -/
def evalItems : List Tree → EvalM (List String)
  | [] => return []
  | a :: as => do
      let value ← a.eval
      let texts ← evalItems as
      return value.render :: texts

end

end Tree
end TinyBasic
