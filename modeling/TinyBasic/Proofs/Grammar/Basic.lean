import Mathlib
import TinyBasic.Decimal
import TinyBasic.Token.Basic
import TinyBasic.Tree.Basic

/-!
# Grammar — derivations of lines

The grammar of the language as a relation between the tokens of a line and the tree they stand for.
It says what is derived and not how it is found:

* `Derives level ts a` — the tokens `ts` are an expression, a term or a factor with the tree `a`.
  The two rules for operators are left-recursive, so that operators associate to the left;
* `Statement ts a` — the tokens are a statement;
* `Line ts a` — the tokens are a whole line. This is the one place where the grammar would be
  ambiguous: a number at the start of a line is always a line number.

No rule looks at the spans of tokens. A number has a rule only where a word can hold its value.
-/

namespace TinyBasic
namespace Grammar

/-! ## Tokens -/

/-- The token is the reserved word `k`. -/
def IsWord (k : Keyword) (t : Token) : Prop :=
  t.kind = .keyword ∧ t.text = k.spelling

/-- The number in front of the decimal point of a token's text; no digits count as zero. -/
def wholePart (t : Token) : Nat :=
  Decimal.toNat (t.text.toList.takeWhile (· ≠ '.'))

/-- The token is a number that stands for `n`, or for its opposite behind a minus sign. -/
def Literal (negative : Bool) (t : Token) (n : Word) : Prop :=
  t.kind = .num ∧ n.toInt = if negative then -(wholePart t : Int) else wholePart t

/-- The signs, and whether they change what follows. -/
inductive Sign : Token.Kind → Bool → Prop where
  | plus : Sign .plus false
  | minus : Sign .minus true

/-- The levels of expressions, from the loosest to the tightest. -/
inductive Level where
  | expr
  | term
  | factor
  deriving DecidableEq, Repr

/-- The operators that belong to a level. -/
inductive Joins : Level → Token.Kind → ArithOp → Prop where
  | plus : Joins .expr .plus .add
  | minus : Joins .expr .minus .sub
  | times : Joins .term .times .mul
  | divide : Joins .term .divide .div

/-! ## Expressions -/

/-- The tokens are an expression of the level with this tree. -/
inductive Derives : Level → List Token → Tree → Prop where
  | literal {t : Token} {n : Word} :
      Literal false t n → Derives .factor [t] (.num n)
  | var {t : Token} :
      t.kind = .var → Derives .factor [t] (.var t.text)
  | signedLiteral {s t : Token} {negative : Bool} {n : Word} :
      Sign s.kind negative → Literal negative t n → Derives .factor [s, t] (.num n)
  | plusVar {s t : Token} :
      Sign s.kind false → t.kind = .var → Derives .factor [s, t] (.var t.text)
  | minusVar {s t : Token} :
      Sign s.kind true → t.kind = .var → Derives .factor [s, t] (.neg (.var t.text))
  | paren {l r : Token} {ts : List Token} {a : Tree} :
      l.kind = .lparen → Derives .expr ts a → r.kind = .rparen →
        Derives .factor (l :: (ts ++ [r])) a
  | factor {ts : List Token} {a : Tree} :
      Derives .factor ts a → Derives .term ts a
  | product {ts us : List Token} {o : Token} {op : ArithOp} {a b : Tree} :
      Derives .term ts a → Joins .term o.kind op → Derives .factor us b →
        Derives .term (ts ++ o :: us) (.arith op a b)
  | term {ts : List Token} {a : Tree} :
      Derives .term ts a → Derives .expr ts a
  | sum {ts us : List Token} {o : Token} {op : ArithOp} {a b : Tree} :
      Derives .expr ts a → Joins .expr o.kind op → Derives .term us b →
        Derives .expr (ts ++ o :: us) (.arith op a b)

/-! ## Statements -/

/-- An item of `PRINT`: a string without its quotes, or an expression. -/
inductive Item : List Token → Tree → Prop where
  | text {t : Token} {s : String} :
      t.kind = .str → t.text = "\"" ++ s ++ "\"" → Item [t] (.text s)
  | expr {ts : List Token} {a : Tree} :
      Derives .expr ts a → Item ts a

/-- One or more items with commas between them. -/
inductive Items : List Token → List Tree → Prop where
  | last {ts : List Token} {a : Tree} :
      Item ts a → Items ts [a]
  | more {ts us : List Token} {c : Token} {a : Tree} {as : List Tree} :
      Item ts a → c.kind = .comma → Items us as → Items (ts ++ c :: us) (a :: as)

/-- One or more variables with commas between them. -/
inductive Names : List Token → List String → Prop where
  | last {v : Token} :
      v.kind = .var → Names [v] [v.text]
  | more {v c : Token} {ts : List Token} {xs : List String} :
      v.kind = .var → c.kind = .comma → Names ts xs → Names (v :: c :: ts) (v.text :: xs)

/-- The words that make up a statement alone. -/
inductive Alone : Keyword → Tree → Prop where
  | print : Alone .print (.print [])
  | list : Alone .list .listAll
  | ret : Alone .returnKw .ret
  | clear : Alone .clear .clear
  | run : Alone .run .run
  | finish : Alone .endKw .finish

/-- The tokens are a statement with this tree. -/
inductive Statement : List Token → Tree → Prop where
  | expr {ts : List Token} {a : Tree} :
      Derives .expr ts a → Statement ts a
  | alone {k : Keyword} {w : Token} {a : Tree} :
      Alone k a → IsWord k w → Statement [w] a
  | print {w : Token} {ts : List Token} {as : List Tree} :
      IsWord .print w → Items ts as → Statement (w :: ts) (.print as)
  | ifThen {i r w : Token} {ts us vs : List Token} {a b c : Tree} :
      IsWord .ifKw i → Derives .expr ts a → r.kind = .relop → Derives .expr us b →
        IsWord .thenKw w → Statement vs c →
        Statement (i :: (ts ++ r :: (us ++ w :: vs)))
          (.ifThen (.compare (.ofText r.text) a b) c)
  | goto {w : Token} {ts : List Token} {a : Tree} :
      IsWord .goto w → Derives .expr ts a → Statement (w :: ts) (.goto a)
  | gosub {w : Token} {ts : List Token} {a : Tree} :
      IsWord .gosub w → Derives .expr ts a → Statement (w :: ts) (.gosub a)
  | input {w : Token} {ts : List Token} {xs : List String} :
      IsWord .input w → Names ts xs → Statement (w :: ts) (.input xs)
  | assign {w v e : Token} {ts : List Token} {a : Tree} :
      IsWord .letKw w → v.kind = .var → e.kind = .relop → e.text = "=" → Derives .expr ts a →
        Statement (w :: v :: e :: ts) (.assign v.text a)
  | listLine {w t : Token} {n : Word} :
      IsWord .list w → Literal false t n → Statement [w, t] (.listLine (.num n))

/-! ## Lines -/

/-- The tokens are a line with this tree. -/
inductive Line : List Token → Tree → Prop where
  | numbered {t : Token} {ts : List Token} {n : Word} {a : Tree} :
      Literal false t n → Statement ts a → Line (t :: ts) (.numbered n a)
  | plain {ts : List Token} {a : Tree} :
      Statement ts a → (∀ t ∈ ts.head?, t.kind ≠ .num) → Line ts a

end Grammar
end TinyBasic
