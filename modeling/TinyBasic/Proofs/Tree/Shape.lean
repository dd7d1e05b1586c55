import TinyBasic.Proofs.Grammar.Reading

/-!
# Shape — the trees of lines

A tree can hold a statement where an expression is usual, or any text for a name. The trees of
lines are far fewer: `Shape.Line` says which they are, and every tree that is read is one of them.
Strings occur only in `PRINT`, comparisons only in `IF`, and names are single capital letters.
-/

namespace TinyBasic
namespace Shape

/-! ## Well-shaped trees -/

/-- The name is one capital letter. -/
def IsLetter (name : String) : Prop :=
  ∃ c : Char, c.isUpper = true ∧ name.toList = [c]

/-- The tree is an expression. -/
inductive Expr : Tree → Prop where
  | num (n : Word) : Expr (.num n)
  | var {x : String} : IsLetter x → Expr (.var x)
  | neg {x : String} : IsLetter x → Expr (.neg (.var x))
  | arith {a b : Tree} (op : ArithOp) : Expr a → Expr b → Expr (.arith op a b)

/-- The tree is an item of `PRINT`. -/
inductive Item : Tree → Prop where
  | text {s : String} : '"' ∉ s.toList → Item (.text s)
  | expr {a : Tree} : Expr a → Item a

/-- The tree is a statement. -/
inductive Statement : Tree → Prop where
  | expr {a : Tree} : Expr a → Statement a
  | print {items : List Tree} : (∀ a ∈ items, Item a) → Statement (.print items)
  | ifThen {a b c : Tree} (op : Relop) :
      Expr a → Expr b → Statement c → Statement (.ifThen (.compare op a b) c)
  | goto {a : Tree} : Expr a → Statement (.goto a)
  | gosub {a : Tree} : Expr a → Statement (.gosub a)
  | input {xs : List String} : xs ≠ [] → (∀ x ∈ xs, IsLetter x) → Statement (.input xs)
  | assign {x : String} {a : Tree} : IsLetter x → Expr a → Statement (.assign x a)
  | ret : Statement .ret
  | clear : Statement .clear
  | listAll : Statement .listAll
  | listLine {n : Word} : 0 ≤ n.toInt → Statement (.listLine (.num n))
  | run : Statement .run
  | finish : Statement .finish

/-- The tree is a line. -/
inductive Line : Tree → Prop where
  | plain {a : Tree} : Statement a → Line a
  | numbered {n : Word} {a : Tree} : 0 ≤ n.toInt → Statement a → Line (.numbered n a)

/-! ## Derived trees are well-shaped -/

open Grammar Lexicon

theorem isLetter_of_spelled {t : Token} (h : Spelled t) (hkind : t.kind = .var) :
    IsLetter t.text :=
  letter_of_spelled h hkind

theorem noQuote_of_spelled {t : Token} {s : String} (h : Spelled t) (hkind : t.kind = .str)
    (htext : t.text = "\"" ++ s ++ "\"") : '"' ∉ s.toList := by
  rw [Spelled, hkind, htext] at h
  generalize hcs : ("\"" ++ s ++ "\"").toList = cs at h
  cases h with
  | @str body hbody =>
      have hs : s.toList = body := by
        simpa using hcs
      rw [hs]
      exact hbody
  | mark hmem => simp [marks] at hmem

theorem nonneg_of_literal {t : Token} {n : Word} (h : Literal false t n) : 0 ≤ n.toInt := by
  rw [h.2]
  simp

theorem expr_of_derives {level : Level} {ts : List Token} {a : Tree} (h : Derives level ts a) :
    (∀ t ∈ ts, Spelled t) → Expr a := by
  induction h with
  | literal => exact fun _ => .num _
  | var hkind => exact fun hts => .var (isLetter_of_spelled (hts _ (by simp)) hkind)
  | signedLiteral => exact fun _ => .num _
  | plusVar _ hkind => exact fun hts => .var (isLetter_of_spelled (hts _ (by simp)) hkind)
  | minusVar _ hkind => exact fun hts => .neg (isLetter_of_spelled (hts _ (by simp)) hkind)
  | paren _ _ _ ih =>
      intro hts
      apply ih
      intro t ht
      exact hts t (by simp [ht])
  | factor _ ih => exact ih
  | term _ ih => exact ih
  | product _ _ _ iha ihb | sum _ _ _ iha ihb =>
      intro hts
      refine .arith _ (iha ?_) (ihb ?_)
      · intro t ht
        exact hts t (by simp [ht])
      · intro t ht
        exact hts t (by simp [ht])

theorem item_of_item {ts : List Token} {a : Tree} (h : Grammar.Item ts a)
    (hts : ∀ t ∈ ts, Spelled t) : Item a := by
  cases h with
  | text hkind htext => exact .text (noQuote_of_spelled (hts _ (by simp)) hkind htext)
  | expr hexpr => exact .expr (expr_of_derives hexpr hts)

theorem items_of_items {ts : List Token} {as : List Tree} (h : Items ts as) :
    (∀ t ∈ ts, Spelled t) → ∀ a ∈ as, Item a := by
  induction h with
  | last hitem =>
      intro hts a ha
      rw [List.mem_singleton.1 ha]
      exact item_of_item hitem hts
  | more hitem _ _ ih =>
      intro hts a ha
      rcases List.mem_cons.1 ha with rfl | ha
      · exact item_of_item hitem fun t ht => hts t (by simp [ht])
      · exact ih (fun t ht => hts t (by simp [ht])) a ha

theorem letters_of_names {ts : List Token} {xs : List String} (h : Names ts xs) :
    (∀ t ∈ ts, Spelled t) → xs ≠ [] ∧ ∀ x ∈ xs, IsLetter x := by
  induction h with
  | last hv =>
      intro hts
      refine ⟨by simp, ?_⟩
      intro x hx
      rw [List.mem_singleton.1 hx]
      exact isLetter_of_spelled (hts _ (by simp)) hv
  | more hv _ _ ih =>
      intro hts
      refine ⟨by simp, ?_⟩
      intro x hx
      rcases List.mem_cons.1 hx with rfl | hx
      · exact isLetter_of_spelled (hts _ (by simp)) hv
      · exact (ih fun t ht => hts t (by simp [ht])).2 x hx

theorem statement_of_alone {k : Keyword} {a : Tree} (h : Alone k a) : Statement a := by
  cases h with
  | print => exact .print (by simp)
  | list => exact .listAll
  | ret => exact .ret
  | clear => exact .clear
  | run => exact .run
  | finish => exact .finish

theorem statement_of_statement {ts : List Token} {a : Tree} (h : Grammar.Statement ts a) :
    (∀ t ∈ ts, Spelled t) → Statement a := by
  induction h with
  | expr hexpr => exact fun hts => .expr (expr_of_derives hexpr hts)
  | alone halone => exact fun _ => statement_of_alone halone
  | print _ hitems =>
      intro hts
      exact .print (items_of_items hitems fun t ht => hts t (by simp [ht]))
  | ifThen _ hleft _ hright _ _ ih =>
      intro hts
      refine .ifThen _ (expr_of_derives hleft ?_) (expr_of_derives hright ?_) (ih ?_)
      · intro t ht
        exact hts t (by simp [ht])
      · intro t ht
        exact hts t (by simp [ht])
      · intro t ht
        exact hts t (by simp [ht])
  | goto _ hexpr => exact fun hts => .goto (expr_of_derives hexpr fun t ht => hts t (by simp [ht]))
  | gosub _ hexpr =>
      exact fun hts => .gosub (expr_of_derives hexpr fun t ht => hts t (by simp [ht]))
  | input _ hnames =>
      intro hts
      have hletters := letters_of_names hnames fun t ht => hts t (by simp [ht])
      exact .input hletters.1 hletters.2
  | assign _ hv _ _ hexpr =>
      intro hts
      have hletter := isLetter_of_spelled (hts _ (by simp)) hv
      exact .assign hletter (expr_of_derives hexpr fun t ht => hts t (by simp [ht]))
  | listLine _ hlit => exact fun _ => .listLine (nonneg_of_literal hlit)

theorem line_of_line {ts : List Token} {a : Tree} (h : Grammar.Line ts a)
    (hts : ∀ t ∈ ts, Spelled t) : Line a := by
  cases h with
  | numbered hlit hstatement =>
      have hshape := statement_of_statement hstatement fun t ht => hts t (by simp [ht])
      exact .numbered (nonneg_of_literal hlit) hshape
  | plain hstatement _ => exact .plain (statement_of_statement hstatement hts)

/-- Every tree that is read is well-shaped. -/
theorem line_of_ofText {text : String} {a : Tree} (h : Tree.ofText text = .ok a) : Line a := by
  rcases ofText_eq_ok_iff.1 h with ⟨ts, hresult, hline⟩
  rcases result_eq_ok_iff.1 hresult with ⟨rfl, -⟩
  exact line_of_line hline spelled_of_mem_ofText

end Shape
end TinyBasic
