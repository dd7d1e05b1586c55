import TinyBasic.Decimal
import TinyBasic.Parse.Error
import TinyBasic.Tree.Basic

/-!
# Expression — reading arithmetic

The grammar of expressions, with both levels of operators associating to the left:

* `expr = term {("+" | "-") term}`
* `term = factor {("*" | "/") factor}`
* `factor = ["+" | "-"] (NUM | VAR) | "(" expr ")"`

Each production takes the tokens from its place on and the ending of their scan. It gives the tree
and the number of tokens that it read, so that what is left is `ts.drop n`. Whatever that number
is, what is left is no longer than what was given, and a loop or a parenthesis has read a token
before it goes on: that is why the productions terminate.
-/

namespace TinyBasic

namespace Token

/-- The value of a number token, with a sign in front of it if `negative`. The fraction is dropped,
and there is no value if a word cannot hold it. -/
def value? (t : Token) (negative : Bool) : Option Word :=
  let whole := t.text.toList.takeWhile (· ≠ '.')
  if whole = [] then
    some 0
  else do
    let magnitude ← Decimal.toUInt64? whole
    if negative then Word.subUInt64? 0 magnitude else Word.ofUInt64? magnitude

/-- Only the range of words matters: what 64 bits without a sign cannot hold, no word holds with
either sign. -/
theorem value?_eq (t : Token) (negative : Bool) :
    t.value? negative =
      let magnitude := Decimal.toNat (t.text.toList.takeWhile (· ≠ '.'))
      Word.ofInt? (if negative then -(magnitude : Int) else magnitude) := by
  rw [value?]
  generalize t.text.toList.takeWhile (· ≠ '.') = whole
  dsimp only
  by_cases hnil : whole = []
  · subst hnil
    cases negative <;> rfl
  · rw [if_neg hnil, Decimal.toUInt64?]
    by_cases hsize : Decimal.toNat whole < UInt64.size
    · have hvalue : (UInt64.ofNat (Decimal.toNat whole)).toNat = Decimal.toNat whole :=
        UInt64.toNat_ofNat_of_lt hsize
      rw [if_pos hsize, Option.bind_eq_bind, Option.bind_some, Word.subUInt64?, Word.ofUInt64?,
        hvalue, Int64.toInt_zero, Int.zero_sub]
      cases negative <;> rfl
    · rw [if_neg hsize, Option.bind_eq_bind, Option.bind_none]
      refine (Word.ofInt?_eq_none_iff.2 ?_).symm
      rw [Int64.toInt_minValue, Int64.toInt_maxValue]
      rw [UInt64.size] at hsize
      cases negative with
      | false =>
          right
          rw [if_neg Bool.false_ne_true]
          omega
      | true =>
          left
          rw [if_pos rfl]
          omega

/-- The operator that joins terms to an expression. -/
def Kind.additive? : Kind → Option ArithOp
  | plus => some .add
  | minus => some .sub
  | _ => none

/-- The operator that joins factors to a term. -/
def Kind.multiplicative? : Kind → Option ArithOp
  | times => some .mul
  | divide => some .div
  | _ => none

end Token

namespace Parse

/-- The first token, if it is of the given kind. -/
def expect (fin : Ending) (kind : Token.Kind) (expected : Expected) (ts : List Token) :
    Except ParseError Token :=
  match ts with
  | t :: _ => if t.kind = kind then .ok t else .error (fin.unexpected expected ts)
  | [] => .error (fin.unexpected expected ts)

/-- The value of the number token `t`, which the tokens `rest` follow. -/
def number (fin : Ending) (negative : Bool) (t : Token) (rest : List Token) :
    Except ParseError Word :=
  match t.value? negative with
  | some n => .ok n
  | none => .error (fin.reject .num t rest)

/-- What follows a sign. The sign of a number becomes part of it, and a minus sign in front of a
variable negates it. -/
def signedOperand (fin : Ending) (negative : Bool) (ts : List Token) :
    Except ParseError (Tree × Nat) :=
  match ts with
  | [] => .error (fin.unexpected .numOrVar ts)
  | t :: rest =>
      match t.kind with
      | .num => do return (.num (← number fin negative t rest), 1)
      | .var => return (if negative then .neg (.var t.text) else .var t.text, 1)
      | _ => .error (fin.unexpected .numOrVar ts)

mutual

/-- An expression. -/
def expr (fin : Ending) (ts : List Token) :
    Except ParseError (Tree × Nat) := do
  let (left, n) ← term fin ts
  let (tree, m) ← exprTail fin left (ts.drop n)
  return (tree, n + m)
termination_by 3 * ts.length + 2
decreasing_by
  · omega
  · simp only [List.length_drop]
    omega

/-- The rest of an expression that starts with `left`. -/
def exprTail (fin : Ending) (left : Tree) (ts : List Token) :
    Except ParseError (Tree × Nat) :=
  match ts with
  | [] => return (left, 0)
  | t :: rest =>
      match t.kind.additive? with
      | none => return (left, 0)
      | some op => do
          let (right, n) ← term fin rest
          let (tree, m) ← exprTail fin (.arith op left right) (rest.drop n)
          return (tree, 1 + n + m)
termination_by 3 * ts.length
decreasing_by
  all_goals
    simp only [List.length_drop, List.length_cons]
    omega

/-- A term. -/
def term (fin : Ending) (ts : List Token) :
    Except ParseError (Tree × Nat) := do
  let (left, n) ← factor fin ts
  let (tree, m) ← termTail fin left (ts.drop n)
  return (tree, n + m)
termination_by 3 * ts.length + 1
decreasing_by
  · omega
  · simp only [List.length_drop]
    omega

/-- The rest of a term that starts with `left`. -/
def termTail (fin : Ending) (left : Tree) (ts : List Token) :
    Except ParseError (Tree × Nat) :=
  match ts with
  | [] => return (left, 0)
  | t :: rest =>
      match t.kind.multiplicative? with
      | none => return (left, 0)
      | some op => do
          let (right, n) ← factor fin rest
          let (tree, m) ← termTail fin (.arith op left right) (rest.drop n)
          return (tree, 1 + n + m)
termination_by 3 * ts.length
decreasing_by
  all_goals
    simp only [List.length_drop, List.length_cons]
    omega

/-- A factor. -/
def factor (fin : Ending) (ts : List Token) :
    Except ParseError (Tree × Nat) :=
  match ts with
  | [] => .error (fin.unexpected .numberOrParen ts)
  | t :: rest =>
      match t.kind with
      | .plus => do
          let (tree, n) ← signedOperand fin false rest
          return (tree, 1 + n)
      | .minus => do
          let (tree, n) ← signedOperand fin true rest
          return (tree, 1 + n)
      | .num => do return (.num (← number fin false t rest), 1)
      | .var => return (.var t.text, 1)
      | .lparen => do
          let (inner, n) ← expr fin rest
          let _ ← expect fin .rparen .rparen (rest.drop n)
          return (inner, 1 + n + 1)
      | _ => .error (fin.unexpected .numberOrParen ts)
termination_by 3 * ts.length
decreasing_by
  simp only [List.length_cons]
  omega

end

end Parse
end TinyBasic
