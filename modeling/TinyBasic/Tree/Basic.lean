import TinyBasic.Tree.Operator
import TinyBasic.Word

/-!
# Tree — statements and expressions

One type holds statements and expressions alike, because a tree may be put together by hand with
a statement where an expression is usual. Trees compare structurally; `Tree.same` decides it.
-/

namespace TinyBasic

/-- The tree of a statement or an expression. -/
inductive Tree where
  | num (value : Word)
  | var (name : String)
  /-- A string, without its quotes. -/
  | text (contents : String)
  | neg (operand : Tree)
  | arith (op : ArithOp) (left right : Tree)
  | compare (op : Relop) (left right : Tree)
  | print (items : List Tree)
  | ifThen (condition consequence : Tree)
  | goto (target : Tree)
  | gosub (target : Tree)
  | input (names : List String)
  | assign (name : String) (value : Tree)
  | ret
  | clear
  /-- A listing of everything. -/
  | listAll
  /-- A listing of one line. -/
  | listLine (line : Tree)
  | run
  | finish
  /-- A statement with a line number. -/
  | numbered (number : Word) (statement : Tree)
  deriving Repr

namespace Tree

/-- Whether the tree is a comparison, the only thing an `IF` can test. -/
def isComparison : Tree → Bool
  | compare .. => true
  | _ => false

/-! ## Equality -/

mutual

/-- Structural equality. -/
def same : Tree → Tree → Bool
  | num m, num n => m == n
  | var x, var y => x == y
  | text s, text t => s == t
  | neg a, neg b => a.same b
  | arith o a b, arith p c d => o == p && a.same c && b.same d
  | compare o a b, compare p c d => o == p && a.same c && b.same d
  | print xs, print ys => sameItems xs ys
  | ifThen a b, ifThen c d => a.same c && b.same d
  | goto a, goto b => a.same b
  | gosub a, gosub b => a.same b
  | input xs, input ys => xs == ys
  | assign x a, assign y b => x == y && a.same b
  | ret, ret => true
  | clear, clear => true
  | listAll, listAll => true
  | listLine a, listLine b => a.same b
  | run, run => true
  | finish, finish => true
  | numbered m a, numbered n b => m == n && a.same b
  | _, _ => false

/-- Structural equality of lists of trees. -/
def sameItems : List Tree → List Tree → Bool
  | [], [] => true
  | a :: as, b :: bs => a.same b && sameItems as bs
  | _, _ => false

end

mutual

theorem eq_of_same : ∀ {a b : Tree}, a.same b = true → a = b := by
  intro a b h
  match a with
  | num _ | var _ | text _ | input _ => cases b <;> simp_all [same]
  | ret | clear | listAll | run | finish => cases b <;> simp_all [same]
  | neg a =>
      cases b <;> simp only [same, Bool.false_eq_true] at h
      case neg b => rw [eq_of_same h]
  | goto a =>
      cases b <;> simp only [same, Bool.false_eq_true] at h
      case goto b => rw [eq_of_same h]
  | gosub a =>
      cases b <;> simp only [same, Bool.false_eq_true] at h
      case gosub b => rw [eq_of_same h]
  | listLine a =>
      cases b <;> simp only [same, Bool.false_eq_true] at h
      case listLine b => rw [eq_of_same h]
  | arith o a₁ a₂ =>
      cases b <;> simp only [same, Bool.false_eq_true, Bool.and_eq_true, beq_iff_eq] at h
      case arith p b₁ b₂ => rw [h.1.1, eq_of_same h.1.2, eq_of_same h.2]
  | compare o a₁ a₂ =>
      cases b <;> simp only [same, Bool.false_eq_true, Bool.and_eq_true, beq_iff_eq] at h
      case compare p b₁ b₂ => rw [h.1.1, eq_of_same h.1.2, eq_of_same h.2]
  | ifThen a₁ a₂ =>
      cases b <;> simp only [same, Bool.false_eq_true, Bool.and_eq_true] at h
      case ifThen b₁ b₂ => rw [eq_of_same h.1, eq_of_same h.2]
  | assign x a =>
      cases b <;> simp only [same, Bool.false_eq_true, Bool.and_eq_true, beq_iff_eq] at h
      case assign y b => rw [h.1, eq_of_same h.2]
  | numbered n a =>
      cases b <;> simp only [same, Bool.false_eq_true, Bool.and_eq_true, beq_iff_eq] at h
      case numbered m b => rw [h.1, eq_of_same h.2]
  | print as =>
      cases b <;> simp only [same, Bool.false_eq_true] at h
      case print bs => rw [eq_of_sameItems h]

theorem eq_of_sameItems : ∀ {as bs : List Tree}, sameItems as bs = true → as = bs := by
  intro as bs h
  match as, bs with
  | [], [] => rfl
  | a :: as, b :: bs =>
      simp only [sameItems, Bool.and_eq_true] at h
      rw [eq_of_same h.1, eq_of_sameItems h.2]
  | [], _ :: _ => simp [sameItems] at h
  | _ :: _, [] => simp [sameItems] at h

end

mutual

theorem same_self : ∀ a : Tree, a.same a = true := by
  intro a
  match a with
  | num _ | var _ | text _ | input _ => simp [same]
  | ret | clear | listAll | run | finish => simp [same]
  | neg a | goto a | gosub a | listLine a => simp [same, same_self a]
  | assign _ a | numbered _ a => simp [same, same_self a]
  | arith _ a b | compare _ a b | ifThen a b => simp [same, same_self a, same_self b]
  | print as => simp [same, sameItems_self as]

theorem sameItems_self : ∀ as : List Tree, sameItems as as = true := by
  intro as
  match as with
  | [] => simp [sameItems]
  | a :: as => simp [sameItems, same_self a, sameItems_self as]

end

/-- The test for structural equality decides equality. -/
theorem same_iff {a b : Tree} : a.same b = true ↔ a = b :=
  ⟨eq_of_same, fun h => h ▸ same_self a⟩

instance : DecidableEq Tree :=
  fun a b => decidable_of_iff (a.same b = true) same_iff

end Tree
end TinyBasic
