import TinyBasic.Proofs.Grammar.Completeness

/-!
# Extent — how far a production reads

A production reads as many tokens as it can, and to know where to stop it looks at one token more.
What comes behind that token, and how the scan ends, is nothing to it:

* `Alike t u` — the tokens differ at most in value and place, so that no production chooses its way
  by the difference;
* `Settled p` — a production that has read some tokens would have read the same before any other
  rest that begins alike.
-/

namespace TinyBasic
namespace Grammar

open Parse

/-- A reader of tokens, which gives a result and the number of tokens that it read. -/
abbrev Production (α : Type) : Type :=
  Ending → List Token → Except ParseError (α × Nat)

/-- The tokens are of one kind, and the same keyword if they are keywords. -/
def Alike (t u : Token) : Prop :=
  u.kind = t.kind ∧ u.keyword? = t.keyword?

theorem Alike.refl (t : Token) : Alike t t :=
  ⟨rfl, rfl⟩

/-- What the production reads of these tokens it also reads in front of any others that go on
alike. -/
def SettledAt {α : Type} (p : Production α) (fin : Ending) (ts : List Token) : Prop :=
  ∀ a n, p fin ts = .ok (a, n) → ∀ t ∈ (ts.drop n).head?, ∀ u, Alike t u →
    ∀ fin' more, p fin' (ts.take n ++ u :: more) = .ok (a, n)

/-- The production depends on no more than the tokens it reads and the one behind them. -/
def Settled {α : Type} (p : Production α) : Prop :=
  ∀ fin ts, SettledAt p fin ts

theorem Settled.append {α : Type} {p : Production α} (hp : Settled p) {fin : Ending}
    {us rest : List Token} {a : α} (h : p fin (us ++ rest) = .ok (a, us.length)) {t u : Token}
    (ht : t ∈ rest.head?) (hu : Alike t u) (fin' : Ending) (more : List Token) :
    p fin' (us ++ u :: more) = .ok (a, us.length) := by
  have hdrop : (us ++ rest).drop us.length = rest := List.drop_left
  rw [← hdrop] at ht
  have hread := hp fin (us ++ rest) a us.length h t ht u hu fin' more
  rwa [List.take_left] at hread

theorem drop_one_add {α : Type} (a : α) (as : List α) (n : Nat) :
    (a :: as).drop (1 + n) = as.drop n := by
  rw [Nat.add_comm, List.drop_succ_cons]

theorem take_one_add {α : Type} (a : α) (as : List α) (n : Nat) :
    (a :: as).take (1 + n) = a :: as.take n := by
  rw [Nat.add_comm, List.take_succ_cons]

theorem drop_past {α : Type} (as bs : List α) (a : α) (n : Nat) :
    (as ++ a :: bs).drop (as.length + (1 + n)) = bs.drop n := by
  rw [List.drop_length_add_append, drop_one_add]

theorem take_past {α : Type} (as bs : List α) (a : α) (n : Nat) :
    (as ++ a :: bs).take (as.length + (1 + n)) = as ++ a :: bs.take n := by
  rw [List.take_length_add_append, take_one_add]

/-! ## Expressions -/

theorem NoOperator.alike {level : Level} {ts : List Token} (h : NoOperator level ts) {t u : Token}
    (ht : t ∈ ts.head?) (hu : Alike t u) (more : List Token) : NoOperator level (u :: more) := by
  refine noOperator_cons more ?_
  rw [hu.1]
  exact h t ht

/-- The loop over factors leaves no operator of its own behind. -/
theorem noOperator_of_termTail {fin : Ending} {left a : Tree} {ts : List Token} {n : Nat}
    (h : termTail fin left ts = .ok (a, n)) : NoOperator .term (ts.drop n) := by
  -- on the length: the operand takes tokens before the loop goes on
  induction hlen : ts.length using Nat.strong_induction_on generalizing left ts n with
  | _ len ih =>
      cases ts with
      | nil =>
          rw [List.drop_nil]
          exact noOperator_nil .term
      | cons t rest =>
          cases hop : t.kind.multiplicative? with
          | none =>
              simp only [termTail, hop] at h
              cases h
              refine noOperator_cons rest ?_
              intro op hjoins
              rw [multiplicative?_eq_some_iff.2 hjoins] at hop
              cases hop
          | some op =>
              simp only [termTail, hop] at h
              rcases ok_of_bind h with ⟨⟨right, k⟩, -, h⟩
              rcases ok_of_bind h with ⟨⟨tree, m⟩, htail, h⟩
              cases h
              have hmore := ih (rest.drop k).length (by simp at hlen ⊢; omega) htail rfl
              rwa [Nat.add_assoc, drop_one_add, ← List.drop_drop]

theorem noOperator_of_term {fin : Ending} {a : Tree} {ts : List Token} {n : Nat}
    (h : term fin ts = .ok (a, n)) : NoOperator .term (ts.drop n) := by
  rw [term] at h
  rcases ok_of_bind h with ⟨⟨left, k⟩, -, h⟩
  rcases ok_of_bind h with ⟨⟨tree, m⟩, htail, h⟩
  cases h
  rw [← List.drop_drop]
  exact noOperator_of_termTail htail

/-- The loop over terms leaves no operator behind, if it starts behind a term. -/
theorem noOperator_of_exprTail {fin : Ending} {left a : Tree} {ts : List Token} {n : Nat}
    (hterm : NoOperator .term ts) (h : exprTail fin left ts = .ok (a, n)) :
    ∀ level, NoOperator level (ts.drop n) := by
  induction hlen : ts.length using Nat.strong_induction_on generalizing left ts n with
  | _ len ih =>
      cases ts with
      | nil =>
          rw [List.drop_nil]
          exact noOperator_nil
      | cons t rest =>
          cases hop : t.kind.additive? with
          | none =>
              simp only [exprTail, hop] at h
              cases h
              intro level
              refine noOperator_cons rest ?_
              intro op hjoins
              cases level with
              | expr =>
                  rw [additive?_eq_some_iff.2 hjoins] at hop
                  cases hop
              -- the term in front has taken all operators of its own level
              | term => exact hterm t rfl op hjoins
              | factor => cases hjoins
          | some op =>
              simp only [exprTail, hop] at h
              rcases ok_of_bind h with ⟨⟨right, k⟩, hright, h⟩
              rcases ok_of_bind h with ⟨⟨tree, m⟩, htail, h⟩
              cases h
              have hmore := ih (rest.drop k).length (by simp at hlen ⊢; omega)
                (noOperator_of_term hright) htail rfl
              rwa [Nat.add_assoc, drop_one_add, ← List.drop_drop]

theorem noOperator_of_expr {fin : Ending} {a : Tree} {ts : List Token} {n : Nat}
    (h : Parse.expr fin ts = .ok (a, n)) : ∀ level, NoOperator level (ts.drop n) := by
  rw [Parse.expr] at h
  rcases ok_of_bind h with ⟨⟨left, k⟩, hterm, h⟩
  rcases ok_of_bind h with ⟨⟨tree, m⟩, htail, h⟩
  cases h
  rw [← List.drop_drop]
  exact noOperator_of_exprTail (noOperator_of_term hterm) htail

theorem settled_factor : Settled factor := by
  intro fin ts a n h t ht u hu fin' more
  rcases (expression_sound fin).2.2.2.2 ts a n h with ⟨us, rest, rfl, rfl, hderives⟩
  rw [List.take_left]
  exact reads_of_derives hderives (u :: more)

theorem settled_term : Settled term := by
  intro fin ts a n h t ht u hu fin' more
  have hstop := noOperator_of_term h
  rcases (expression_sound fin).2.2.1 _ a _ h with ⟨us, rest, rfl, rfl, hderives⟩
  rw [List.drop_left] at hstop ht
  rw [List.take_left]
  exact (reads_of_derives hderives).term_stop (hstop.alike ht hu more)

theorem settled_expr : Settled Parse.expr := by
  intro fin ts a n h t ht u hu fin' more
  have hstop := noOperator_of_expr h
  rcases expr_sound h with ⟨us, rest, rfl, rfl, hderives⟩
  rw [List.drop_left] at hstop ht
  rw [List.take_left]
  exact expr_complete fin' hderives (u :: more) fun level => (hstop level).alike ht hu more

/-! ## Parts of statements -/

/-- An expression is not read as nothing. -/
theorem expr_ne_zero {fin : Ending} {ts : List Token} {a : Tree} {n : Nat}
    (h : Parse.expr fin ts = .ok (a, n)) : ∃ m, n = 1 + m := by
  rcases expr_sound h with ⟨us, rest, -, rfl, hderives⟩
  rcases hderives.head with ⟨t, vs, rfl, -⟩
  exact ⟨vs.length, Nat.add_comm _ _⟩

theorem settled_printItem : Settled printItem := by
  intro fin ts a n h t ht u hu fin' more
  cases ts with
  | nil =>
      rw [List.drop_nil] at ht
      cases ht
  | cons w rest =>
      by_cases hstr : w.kind = .str
      · simp only [printItem, hstr, if_true] at h
        cases h
        simp [printItem, hstr]
      · simp only [printItem, hstr, if_false] at h
        have hread := settled_expr fin _ a n h t ht u hu fin' more
        rcases expr_ne_zero h with ⟨m, rfl⟩
        rw [take_one_add, List.cons_append] at hread ⊢
        simpa only [printItem, hstr, if_false] using hread

/-- The items of `PRINT` reach to the end. -/
theorem drop_of_printItems {fin : Ending} {ts : List Token} {as : List Tree} {n : Nat}
    (h : printItems fin ts = .ok (as, n)) : ts.drop n = [] := by
  induction ts using printItems.induct generalizing as n with
  | case1 ts ih =>
      rw [printItems] at h
      rcases ok_of_bind h with ⟨⟨item, k⟩, -, h⟩
      dsimp only at h
      split at h
      case h_1 hdrop =>
        cases h
        exact hdrop
      case h_2 t rest hdrop =>
        split at h
        case isTrue => cases h
        case isFalse =>
          split at h
          case isTrue => cases h
          case isFalse =>
            rcases ok_of_bind h with ⟨⟨items, m⟩, hitems, h⟩
            cases h
            have hrest := ih k t rest hdrop hitems
            rw [Nat.add_assoc, ← List.drop_drop, hdrop, drop_one_add, hrest]

theorem settled_moreNames : Settled moreNames := by
  intro fin ts
  induction ts using moreNames.induct with
  | case1 =>
      intro xs n h t ht
      rw [List.drop_nil] at ht
      cases ht
  | case2 w ws hcomma ih =>
      intro xs n h t ht u hu fin' more
      simp only [moreNames, hcomma] at h
      rcases ok_of_bind h with ⟨v, hv, h⟩
      rcases ok_of_bind h with ⟨⟨names, m⟩, hnames, h⟩
      cases h
      rcases expect_eq_ok_iff.1 hv with ⟨hvar, vs, rfl⟩
      rw [List.drop_one, List.tail_cons] at hnames ih
      rw [Nat.add_assoc, drop_one_add, drop_one_add] at ht
      have hread := ih names m hnames t ht u hu fin' more
      have hnext : ∀ rest, expect fin' .var .var (v :: rest) = .ok v :=
        fun rest => expect_eq_ok_iff.2 ⟨hvar, rest, rfl⟩
      rw [Nat.add_assoc, take_one_add, take_one_add]
      simp only [List.cons_append, moreNames, hcomma, hnext, bind, Except.bind, List.drop_one,
        List.tail_cons, hread]
      rw [Nat.add_assoc]
      rfl
  | case3 w ws hvar =>
      intro xs n h
      simp only [moreNames, hvar] at h
      cases h
  | case4 w ws hcomma hvar =>
      intro xs n h t ht u hu fin' more
      simp only [moreNames] at h
      cases h
      cases ht
      have hkind := hu.1
      have hcomma' : ¬ u.kind = .comma := by
        rw [hkind]
        exact hcomma
      have hvar' : ¬ u.kind = .var := by
        rw [hkind]
        exact hvar
      simp only [List.take_zero, List.nil_append, moreNames]
      rfl

/-! ## Statements -/

theorem settled_printStatement : Settled printStatement := by
  intro fin ts a n h t ht
  -- the statement takes the whole line, so nothing follows it
  simp only [printStatement] at h
  split at h
  case isTrue hnil =>
    subst hnil
    rw [List.drop_nil] at ht
    cases ht
  case isFalse =>
    rcases ok_of_bind h with ⟨⟨items, m⟩, hitems, h⟩
    cases h
    rw [drop_of_printItems hitems] at ht
    cases ht

/-- A production that reads an expression if there is anything at all. -/
theorem settled_target {p : Production Tree} {wrap : Tree → Tree}
    (hp : ∀ fin t ts, p fin (t :: ts) = do
      let (a, n) ← Parse.expr fin (t :: ts)
      return (wrap a, n)) : Settled p := by
  intro fin ts a n h t ht u hu fin' more
  cases ts with
  | nil =>
      rw [List.drop_nil] at ht
      cases ht
  | cons w rest =>
      rw [hp] at h
      rcases ok_of_bind h with ⟨⟨target, m⟩, hexpr, h⟩
      cases h
      have hread := settled_expr fin _ target n hexpr t ht u hu fin' more
      rcases expr_ne_zero hexpr with ⟨k, rfl⟩
      rw [take_one_add, List.cons_append] at hread ⊢
      rw [hp, hread]
      rfl

theorem settled_gotoStatement : Settled gotoStatement :=
  settled_target fun _ _ _ => rfl

theorem settled_gosubStatement : Settled gosubStatement :=
  settled_target fun _ _ _ => rfl

theorem settled_inputStatement : Settled inputStatement := by
  intro fin ts a n h t ht u hu fin' more
  simp only [inputStatement] at h
  rcases ok_of_bind h with ⟨v, hv, h⟩
  rcases ok_of_bind h with ⟨⟨names, m⟩, hnames, h⟩
  cases h
  rcases expect_eq_ok_iff.1 hv with ⟨hvar, rest, rfl⟩
  rw [List.drop_one, List.tail_cons] at hnames
  rw [drop_one_add] at ht
  have hread := settled_moreNames fin rest names m hnames t ht u hu fin' more
  have hname : expect fin' .var .var (v :: (rest.take m ++ u :: more)) = .ok v :=
    expect_eq_ok_iff.2 ⟨hvar, _, rfl⟩
  rw [take_one_add, List.cons_append]
  simp only [inputStatement, hname, bind, Except.bind, List.drop_one, List.tail_cons, hread]
  rfl

theorem settled_letStatement : Settled letStatement := by
  intro fin ts a n h t ht u hu fin' more
  simp only [letStatement] at h
  rcases ok_of_bind h with ⟨v, hv, h⟩
  rcases ok_of_bind h with ⟨op, hop, h⟩
  rcases expect_eq_ok_iff.1 hv with ⟨hvar, rest, rfl⟩
  rcases expect_eq_ok_iff.1 hop with ⟨hrelop, ts, hrest⟩
  rw [List.drop_one, List.tail_cons] at hrest
  subst hrest
  split at h
  case isTrue => cases h
  case isFalse htext =>
    rcases ok_of_bind h with ⟨⟨value, m⟩, hvalue, h⟩
    cases h
    rw [Nat.add_assoc 1 1, drop_one_add, drop_one_add] at ht
    have hread := settled_expr fin ts value m hvalue t ht u hu fin' more
    have hname : expect fin' .var .var (v :: op :: (ts.take m ++ u :: more)) = .ok v :=
      expect_eq_ok_iff.2 ⟨hvar, _, rfl⟩
    have hequals : expect fin' .relop .relop (op :: (ts.take m ++ u :: more)) = .ok op :=
      expect_eq_ok_iff.2 ⟨hrelop, _, rfl⟩
    rw [Nat.add_assoc 1 1, take_one_add, take_one_add]
    simp only [List.cons_append, letStatement, hname, bind, Except.bind, List.drop_succ_cons,
      List.drop_zero, hequals, htext, if_false, hread]
    rw [Nat.add_assoc 1 1]
    rfl

theorem settled_listStatement : Settled listStatement := by
  intro fin ts a n h t ht u hu fin' more
  cases ts with
  | nil =>
      rw [List.drop_nil] at ht
      cases ht
  | cons w rest =>
      simp only [listStatement] at h
      split at h
      case isTrue hkind =>
        rcases ok_of_bind h with ⟨m, hm, h⟩
        cases h
        have hlit := (number_eq_ok_iff hkind).1 hm
        have hnumber := number_of_literal hlit fin' (u :: more)
        simp only [List.take_succ_cons, List.take_zero, List.cons_append, List.nil_append,
          listStatement, hkind, if_true, hnumber]
        rfl
      case isFalse => cases h

/-- The productions for what follows a keyword. The statement of `IF` holds another one and is not
among them. -/
inductive Follows : Keyword → Production Tree → Prop where
  | print : Follows .print printStatement
  | goto : Follows .goto gotoStatement
  | gosub : Follows .gosub gosubStatement
  | input : Follows .input inputStatement
  | assign : Follows .letKw letStatement
  | list : Follows .list listStatement
  | ret : Follows .returnKw fun _ _ => .ok (.ret, 0)
  | clear : Follows .clear fun _ _ => .ok (.clear, 0)
  | run : Follows .run fun _ _ => .ok (.run, 0)
  | finish : Follows .endKw fun _ _ => .ok (.finish, 0)

theorem Follows.statement_eq {k : Keyword} {p : Production Tree} (h : Follows k p) {w : Token}
    (hw : w.keyword? = some k) (fin : Ending) (ts : List Token) :
    statement fin (w :: ts) = afterKeyword (p fin ts) := by
  cases h <;> simp only [statement, hw] <;> rfl

/-- Induction on the statements that a statement holds, one case for each way to begin. -/
theorem statement_induction {motive : List Token → Prop} (nil : motive [])
    (bare : ∀ t rest, t.keyword? = none → motive (t :: rest))
    (led : ∀ k p t rest, Follows k p → t.keyword? = some k → motive (t :: rest))
    (ifThen : ∀ t rest, t.keyword? = some .ifKw → (∀ n, motive (rest.drop n)) → motive (t :: rest))
    (stray : ∀ t rest, t.keyword? = some .thenKw ∨ t.keyword? = some .quit → motive (t :: rest))
    (ts : List Token) : motive ts := by
  induction hlen : ts.length using Nat.strong_induction_on generalizing ts with
  | _ len ih =>
      cases ts with
      | nil => exact nil
      | cons t rest =>
          cases hk : t.keyword? with
          | none => exact bare t rest hk
          | some k =>
              cases k with
              | print => exact led _ _ t rest .print hk
              | ifKw =>
                  refine ifThen t rest hk ?_
                  intro n
                  exact ih (rest.drop n).length (by simp at hlen ⊢; omega) _ rfl
              | thenKw => exact stray t rest (.inl hk)
              | goto => exact led _ _ t rest .goto hk
              | input => exact led _ _ t rest .input hk
              | letKw => exact led _ _ t rest .assign hk
              | gosub => exact led _ _ t rest .gosub hk
              | returnKw => exact led _ _ t rest .ret hk
              | clear => exact led _ _ t rest .clear hk
              | list => exact led _ _ t rest .list hk
              | run => exact led _ _ t rest .run hk
              | endKw => exact led _ _ t rest .finish hk
              | quit => exact stray t rest (.inr hk)

theorem Follows.settled {k : Keyword} {p : Production Tree} (h : Follows k p) : Settled p := by
  cases h with
  | print => exact settled_printStatement
  | goto => exact settled_gotoStatement
  | gosub => exact settled_gosubStatement
  | input => exact settled_inputStatement
  | assign => exact settled_letStatement
  | list => exact settled_listStatement
  | ret | clear | run | finish =>
      intro fin ts a n h t ht u hu fin' more
      cases h
      rfl

/-- The parts of an `IF` that is read: an expression, an operator, an expression, `THEN` and the
statement it holds. -/
theorem ifStatement_parts {fin : Ending} {i : Token} {ts : List Token} {a : Tree} {n : Nat}
    (hi : IsWord .ifKw i) (h : statement fin (i :: ts) = .ok (a, n)) :
    ∃ ls r rs w vs left right body m, ts = ls ++ r :: (rs ++ w :: vs) ∧
      Derives .expr ls left ∧ r.kind = .relop ∧ Derives .expr rs right ∧ IsWord .thenKw w ∧
      statement fin vs = .ok (body, m) ∧
      a = .ifThen (.compare (.ofText r.text) left right) body ∧
      n = 1 + (ls.length + 1 + rs.length + 1 + m) := by
  rcases ifStatement_cases hi h with
    ⟨left, j, r, right, k, body, m, hleft, hop, hright, hthen, hbody, rfl, rfl⟩
  rcases expr_sound hleft with ⟨ls, rest, rfl, rfl, hls⟩
  rw [List.drop_left] at hop
  rcases expect_eq_ok_iff.1 hop with ⟨hr, rest, rfl⟩
  rw [drop_past ls rest r 0, List.drop_zero] at hright
  rcases expr_sound hright with ⟨rs, rest, rfl, rfl, hrs⟩
  rw [Nat.add_assoc, drop_past, List.drop_left] at hthen
  rcases expectThen_eq_ok_iff.1 hthen with ⟨w, vs, hw, rfl⟩
  rw [Nat.add_assoc, Nat.add_assoc, drop_past, drop_past rs vs w 0, List.drop_zero] at hbody
  exact ⟨ls, r, rs, w, vs, left, right, body, m, rfl, hls, hr, hrs, hw, hbody, rfl, rfl⟩

/-- What is read of a statement is settled by its tokens and the one behind them. -/
theorem settled_statement : Settled statement := by
  intro fin ts
  induction ts using statement_induction with
  | nil =>
      intro a n h t ht
      rw [List.drop_nil] at ht
      cases ht
  | bare w rest hk =>
      intro a n h t ht u hu fin' more
      simp only [statement, hk] at h
      split at h
      case isTrue => cases h
      case isFalse hstr =>
        have hread := settled_expr fin _ a n h t ht u hu fin' more
        rcases expr_ne_zero h with ⟨m, rfl⟩
        rw [take_one_add, List.cons_append] at hread ⊢
        simpa only [statement, hk, hstr, if_false] using hread
  | led k p w rest hp hk =>
      intro a n h t ht u hu fin' more
      rw [hp.statement_eq hk] at h
      rcases ok_of_bind h with ⟨⟨tree, m⟩, htree, h⟩
      cases h
      rw [drop_one_add] at ht
      have hread := hp.settled fin rest a m htree t ht u hu fin' more
      rw [take_one_add, List.cons_append, hp.statement_eq hk, hread]
      rfl
  | ifThen i rest hk ih =>
      intro a n h t ht u hu fin' more
      have hi := keyword?_eq_some_iff.1 hk
      rcases ifStatement_parts hi h with
        ⟨ls, r, rs, w, vs, left, right, body, m, rfl, hls, hr, hrs, hw, hbody, rfl, rfl⟩
      have hlen : ls.length + 1 + rs.length + 1 + m =
          ls.length + (1 + (rs.length + (1 + m))) := by
        omega
      rw [hlen, drop_one_add, drop_past, drop_past] at ht
      -- the body is the last part, so it is in front of what follows the whole
      have hsettled : SettledAt statement fin vs := by
        have hmore := ih (ls.length + (1 + (rs.length + (1 + 0))))
        rwa [drop_past, drop_past, List.drop_zero] at hmore
      have hread := hsettled body m hbody t ht u hu fin' more
      have hif := ifStatement_complete fin' hi hls hr hrs hw hread
      rw [hlen] at hif ⊢
      rw [take_one_add, take_past, take_past]
      simpa using hif
  | stray w rest hk =>
      intro a n h
      rcases hk with hk | hk <;> simp only [statement, hk] at h <;> cases h

end Grammar
end TinyBasic
