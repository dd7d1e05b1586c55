import TinyBasic.Decimal
import TinyBasic.Tree.Basic

/-!
# Render — trees as text

A tree is shown as the name of its kind with its parts in parentheses: `Add(Num(1), Var(X))`.
A statement without parts shows `None` in their place. Names and strings are shown as they are.
-/

namespace TinyBasic
namespace Tree

/-- The name of the tree's kind. Operators go by their own names. -/
def kindName : Tree → String
  | num _ => "Num"
  | var _ => "Var"
  | text _ => "String"
  | neg _ => "Neg"
  | arith op _ _ => op.name
  | compare op _ _ => op.name
  | print _ => "Print"
  | ifThen _ _ => "If"
  | goto _ => "Goto"
  | gosub _ => "Gosub"
  | input _ => "Input"
  | assign _ _ => "Let"
  | ret => "Return"
  | clear => "Clear"
  | listAll => "List"
  | listLine _ => "List"
  | run => "Run"
  | finish => "End"
  | numbered _ _ => "LineNum"

/-- A name with one part in parentheses. -/
def wrap (name part : String) : String :=
  name ++ "(" ++ part ++ ")"

/-- Parts between brackets, with commas between them. -/
def bracket (parts : List String) : String :=
  "[" ++ ", ".intercalate parts ++ "]"

mutual

/-- The text of a tree. -/
def render : Tree → String
  | num n => wrap "Num" (Decimal.ofInt n.toInt)
  | var x => wrap "Var" x
  | text s => wrap "String" s
  | neg a => wrap "Neg" a.render
  | arith op a b => wrap op.name (a.render ++ ", " ++ b.render)
  | compare op a b => wrap op.name (a.render ++ ", " ++ b.render)
  | print items => wrap "Print" (bracket (renderItems items))
  | ifThen a b => wrap "If" (a.render ++ ", " ++ b.render)
  | goto a => wrap "Goto" a.render
  | gosub a => wrap "Gosub" a.render
  | input names => wrap "Input" (bracket (names.map (wrap "Var")))
  | assign x a => wrap "Let" (wrap "String" x ++ ", " ++ a.render)
  | ret => wrap "Return" "None"
  | clear => wrap "Clear" "None"
  | listAll => wrap "List" "None"
  | listLine a => wrap "List" a.render
  | run => wrap "Run" "None"
  | finish => wrap "End" "None"
  | numbered n a => wrap "LineNum" (wrap "Num" (Decimal.ofInt n.toInt) ++ ", " ++ a.render)

/-- The text of each tree of a list. -/
def renderItems : List Tree → List String
  | [] => []
  | a :: as => a.render :: renderItems as

end

theorem renderItems_eq_map (as : List Tree) : renderItems as = as.map render := by
  induction as with
  | nil => rfl
  | cons a as ih => simp [renderItems, ih]

end Tree
end TinyBasic
