import TinyBasic.Proofs.Token.Spacing
import TinyBasic.Proofs.Tree.Shape

/-!
# Source — trees as text

The canonical text of a tree: its words with a space between any two, and parentheses only where
the tree would be read differently without them. That is around a left operand that binds less
tightly than its operator, and around a right operand that does not bind tighter.

A line must not begin with a number unless that is its line number. So an expression that stands
alone and begins with a number has a plus sign in front of it.
-/

namespace TinyBasic
namespace Source

open Grammar Lexicon

/-! ## Words -/

def keyword (k : Keyword) : Lexeme :=
  ⟨.keyword, k.spelling⟩

def number (n : Nat) : Lexeme :=
  ⟨.num, Decimal.ofNat n⟩

def letter (x : String) : Lexeme :=
  ⟨.var, x⟩

def quoted (s : String) : Lexeme :=
  ⟨.str, "\"" ++ s ++ "\""⟩

def plus : Lexeme :=
  ⟨.plus, "+"⟩

def minus : Lexeme :=
  ⟨.minus, "-"⟩

def comma : Lexeme :=
  ⟨.comma, ","⟩

def operator : ArithOp → Lexeme
  | .add => plus
  | .sub => minus
  | .mul => ⟨.times, "*"⟩
  | .div => ⟨.divide, "/"⟩

def comparison : Relop → Lexeme
  | .equal => ⟨.relop, "="⟩
  | .notEqual => ⟨.relop, "<>"⟩
  | .greaterThan => ⟨.relop, ">"⟩
  | .greaterOrEqual => ⟨.relop, ">="⟩
  | .lessThan => ⟨.relop, "<"⟩
  | .lessOrEqual => ⟨.relop, "<="⟩

/-! ## Expressions -/

/-- The level that the operator belongs to, which is that of its left operand. -/
def level : ArithOp → Level
  | .add | .sub => .expr
  | .mul | .div => .term

/-- The level of the right operand, one tighter. -/
def rightLevel : ArithOp → Level
  | .add | .sub => .term
  | .mul | .div => .factor

/-- Whether an operation with the operator can stand at a level without parentheses. -/
def fits : Level → ArithOp → Bool
  | .expr, _ => true
  | .term, op => level op = .term
  | .factor, _ => false

def parenthesized (ws : List Lexeme) : List Lexeme :=
  ⟨.lparen, "("⟩ :: (ws ++ [⟨.rparen, ")"⟩])

/-- The words of an expression that stands at a level. -/
def expression : Level → Tree → List Lexeme
  | _, .num n =>
      if n.toInt < 0 then [minus, number n.toInt.natAbs] else [number n.toInt.natAbs]
  | _, .var x => [letter x]
  | _, .neg a => minus :: expression .factor a
  | l, .arith op a b =>
      let ws := expression (level op) a ++ operator op :: expression (rightLevel op) b
      if fits l op then ws else parenthesized ws
  -- the other trees are no expressions
  | _, _ => []

/-! ## Statements and lines -/

/-- The words of an item of `PRINT`. -/
def item : Tree → List Lexeme
  | .text s => [quoted s]
  | a => expression .expr a

/-- The words of the condition of `IF`. -/
def condition : Tree → List Lexeme
  | .compare op a b => expression .expr a ++ comparison op :: expression .expr b
  -- nothing else is a condition
  | _ => []

/-- The words of a statement. -/
def statement : Tree → List Lexeme
  | .print items => keyword .print :: [comma].intercalate (items.map item)
  | .ifThen a b => keyword .ifKw :: (condition a ++ keyword .thenKw :: statement b)
  | .goto a => keyword .goto :: expression .expr a
  | .gosub a => keyword .gosub :: expression .expr a
  | .input xs => keyword .input :: [comma].intercalate (xs.map fun x => [letter x])
  | .assign x a => keyword .letKw :: letter x :: comparison .equal :: expression .expr a
  | .ret => [keyword .returnKw]
  | .clear => [keyword .clear]
  | .listAll => [keyword .list]
  | .listLine a => keyword .list :: expression .expr a
  | .run => [keyword .run]
  | .finish => [keyword .endKw]
  | a => expression .expr a

/-- The words with a plus sign in front if the first of them is a number. -/
def unnumbered : List Lexeme → List Lexeme
  | [] => []
  | w :: ws => if w.kind = .num then plus :: w :: ws else w :: ws

/-- The words of a line. -/
def line : Tree → List Lexeme
  | .numbered n a => number n.toInt.natAbs :: statement a
  | a => unnumbered (statement a)

/-! ## Words are spelled -/

theorem valid_keyword (k : Keyword) : (keyword k).Valid :=
  Spells.keyword k

theorem valid_number (n : Nat) : (number n).Valid :=
  Spells.whole (Decimal.toList_ofNat_ne_nil n) fun _ => Decimal.isDigit_of_mem_ofNat

theorem valid_letter {x : String} (h : Shape.IsLetter x) : (letter x).Valid := by
  rcases h with ⟨c, hc, hx⟩
  rw [Lexeme.Valid, letter, hx]
  exact .var hc

theorem valid_quoted {s : String} (h : '"' ∉ s.toList) : (quoted s).Valid := by
  have htext : (quoted s).text.toList = '"' :: (s.toList ++ ['"']) := by
    simp [quoted]
  rw [Lexeme.Valid, htext]
  exact .str h

theorem valid_operator (op : ArithOp) : (operator op).Valid := by
  cases op <;> exact .mark (by decide)

theorem valid_comparison (op : Relop) : (comparison op).Valid := by
  cases op <;> exact .relop (by decide)

theorem valid_comma : comma.Valid :=
  .mark (by decide)

theorem valid_minus : minus.Valid :=
  .mark (by decide)

theorem valid_singleton {w : Lexeme} (h : w.Valid) : ∀ v ∈ [w], v.Valid :=
  List.forall_mem_singleton.2 h

theorem valid_append_cons {ws vs : List Lexeme} {w : Lexeme} (hws : ∀ v ∈ ws, v.Valid)
    (hw : w.Valid) (hvs : ∀ v ∈ vs, v.Valid) : ∀ v ∈ ws ++ w :: vs, v.Valid :=
  List.forall_mem_append.2 ⟨hws, List.forall_mem_cons.2 ⟨hw, hvs⟩⟩

theorem valid_parenthesized {ws : List Lexeme} (h : ∀ w ∈ ws, w.Valid) :
    ∀ w ∈ parenthesized ws, w.Valid :=
  List.forall_mem_cons.2 ⟨.mark (by decide), valid_append_cons h (.mark (by decide)) nofun⟩

theorem valid_expression {a : Tree} (h : Shape.Expr a) (l : Level) :
    ∀ w ∈ expression l a, w.Valid := by
  induction h generalizing l with
  | num n =>
      have hnumber := valid_singleton (valid_number n.toInt.natAbs)
      rw [expression]
      split
      case isTrue => exact List.forall_mem_cons.2 ⟨valid_minus, hnumber⟩
      case isFalse => exact hnumber
  | var hx => exact valid_singleton (valid_letter hx)
  | neg hx => exact List.forall_mem_cons.2 ⟨valid_minus, valid_singleton (valid_letter hx)⟩
  | arith op _ _ iha ihb =>
      have hall := valid_append_cons (iha (level op)) (valid_operator op) (ihb (rightLevel op))
      simp only [expression]
      split
      case isTrue => exact hall
      case isFalse => exact valid_parenthesized hall

theorem valid_item {a : Tree} (h : Shape.Item a) : ∀ w ∈ item a, w.Valid := by
  cases h with
  | text hs => exact valid_singleton (valid_quoted hs)
  | expr ha =>
      have hall := valid_expression ha .expr
      cases ha <;> exact hall

theorem valid_commas {wss : List (List Lexeme)} (h : ∀ ws ∈ wss, ∀ w ∈ ws, w.Valid) :
    ∀ w ∈ [comma].intercalate wss, w.Valid := by
  induction wss with
  | nil => nofun
  | cons ws wss ih =>
      have hws := h ws (by simp)
      have hmore := ih fun vs hvs => h vs (by simp [hvs])
      cases wss with
      | nil =>
          rw [List.intercalate_singleton]
          exact hws
      | cons vs wss =>
          rw [List.intercalate_cons_cons, List.append_assoc]
          exact valid_append_cons hws valid_comma hmore

theorem statement_expr {a : Tree} (h : Shape.Expr a) : statement a = expression .expr a := by
  cases h <;> rfl

theorem valid_statement {a : Tree} (h : Shape.Statement a) : ∀ w ∈ statement a, w.Valid := by
  induction h with
  | expr ha =>
      rw [statement_expr ha]
      exact valid_expression ha .expr
  | print hitems =>
      refine List.forall_mem_cons.2 ⟨valid_keyword .print, valid_commas ?_⟩
      refine List.forall_mem_map.2 ?_
      intro a ha
      exact valid_item (hitems a ha)
  | ifThen op ha hb _ ih =>
      have hcondition := valid_append_cons (valid_expression ha .expr) (valid_comparison op)
        (valid_expression hb .expr)
      refine List.forall_mem_cons.2 ⟨valid_keyword .ifKw, ?_⟩
      exact valid_append_cons hcondition (valid_keyword .thenKw) ih
  | goto ha => exact List.forall_mem_cons.2 ⟨valid_keyword .goto, valid_expression ha .expr⟩
  | gosub ha => exact List.forall_mem_cons.2 ⟨valid_keyword .gosub, valid_expression ha .expr⟩
  | input _ hxs =>
      refine List.forall_mem_cons.2 ⟨valid_keyword .input, valid_commas ?_⟩
      refine List.forall_mem_map.2 ?_
      intro x hx
      exact valid_singleton (valid_letter (hxs x hx))
  | assign hx ha =>
      refine List.forall_mem_cons.2 ⟨valid_keyword .letKw, ?_⟩
      refine List.forall_mem_cons.2 ⟨valid_letter hx, ?_⟩
      exact List.forall_mem_cons.2 ⟨valid_comparison .equal, valid_expression ha .expr⟩
  | listLine _ =>
      exact List.forall_mem_cons.2 ⟨valid_keyword .list, valid_expression (.num _) .expr⟩
  | ret | clear | listAll | run | finish => exact valid_singleton (valid_keyword _)

theorem valid_unnumbered {ws : List Lexeme} (h : ∀ w ∈ ws, w.Valid) :
    ∀ w ∈ unnumbered ws, w.Valid := by
  cases ws with
  | nil => exact h
  | cons w ws =>
      rw [unnumbered]
      split
      case isTrue => exact List.forall_mem_cons.2 ⟨valid_operator .add, h⟩
      case isFalse => exact h

theorem line_statement {a : Tree} (h : Shape.Statement a) : line a = unnumbered (statement a) := by
  cases h with
  | expr ha => cases ha <;> rfl
  | _ => rfl

theorem valid_line {a : Tree} (h : Shape.Line a) : ∀ w ∈ line a, w.Valid := by
  cases h with
  | plain ha =>
      rw [line_statement ha]
      exact valid_unnumbered (valid_statement ha)
  | numbered _ ha => exact List.forall_mem_cons.2 ⟨valid_number _, valid_statement ha⟩

end Source

/-- The canonical text of a tree. -/
def Tree.source (a : Tree) : String :=
  Lexicon.spaced (Source.line a)

end TinyBasic
