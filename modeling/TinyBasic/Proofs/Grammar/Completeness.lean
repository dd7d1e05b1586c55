import TinyBasic.Proofs.Grammar.Soundness

/-!
# Completeness — what is derived is read

Whatever the grammar derives is read by the production for it, with the same tree. Productions for
expressions read as much as they can, so a derived expression is read as far as it goes only if no
operator follows it.
-/

namespace TinyBasic
namespace Grammar

open Parse

/-! ## Expressions -/

/-- No operator of the level stands in front of the tokens. -/
def NoOperator (level : Level) (ts : List Token) : Prop :=
  ∀ t ∈ ts.head?, ∀ op, ¬ Joins level t.kind op

theorem noOperator_nil (level : Level) : NoOperator level [] := by
  intro t ht
  cases ht

theorem noOperator_cons {level : Level} {t : Token} (ts : List Token)
    (h : ∀ op, ¬ Joins level t.kind op) : NoOperator level (t :: ts) := by
  intro u hu
  cases hu
  exact h

/-- The kinds of token that may follow an expression inside a line. -/
def delimiters : List Token.Kind :=
  [.rparen, .relop, .comma, .keyword]

theorem noOperator_delimiter {t : Token} (h : t.kind ∈ delimiters) (level : Level)
    (ts : List Token) : NoOperator level (t :: ts) := by
  refine noOperator_cons ts ?_
  intro op hop
  generalize t.kind = kind at h hop
  cases hop <;> simp [delimiters] at h

theorem exprTail_stop {fin : Ending} {left : Tree} {ts : List Token} (h : NoOperator .expr ts) :
    exprTail fin left ts = .ok (left, 0) := by
  cases ts with
  | nil => rw [exprTail]; rfl
  | cons t rest =>
      have hop : t.kind.additive? = none := by
        refine Option.eq_none_iff_forall_ne_some.2 ?_
        intro op hsome
        exact h t rfl op (additive?_eq_some_iff.1 hsome)
      simp only [exprTail, hop]
      rfl

theorem termTail_stop {fin : Ending} {left : Tree} {ts : List Token} (h : NoOperator .term ts) :
    termTail fin left ts = .ok (left, 0) := by
  cases ts with
  | nil => rw [termTail]; rfl
  | cons t rest =>
      have hop : t.kind.multiplicative? = none := by
        refine Option.eq_none_iff_forall_ne_some.2 ?_
        intro op hsome
        exact h t rfl op (multiplicative?_eq_some_iff.1 hsome)
      simp only [termTail, hop]
      rfl

/-- What the production of a level does with tokens that are derived at the level, whatever `rest`
follows them: a factor is read as it is, while a term or an expression is read as the beginning of
what the loop makes of it. -/
def Reads (fin : Ending) (level : Level) (ts : List Token) (a : Tree) : Prop :=
  match level with
  | .factor => ∀ rest, factor fin (ts ++ rest) = .ok (a, ts.length)
  | .term => ∀ rest b m, termTail fin a rest = .ok (b, m) →
      term fin (ts ++ rest) = .ok (b, ts.length + m)
  | .expr => ∀ rest b m, NoOperator .term rest → exprTail fin a rest = .ok (b, m) →
      Parse.expr fin (ts ++ rest) = .ok (b, ts.length + m)

theorem Reads.term_stop {fin : Ending} {ts rest : List Token} {a : Tree}
    (h : Reads fin .term ts a) (hrest : NoOperator .term rest) :
    term fin (ts ++ rest) = .ok (a, ts.length) :=
  h rest a 0 (termTail_stop hrest)

theorem Reads.expr_stop {fin : Ending} {ts rest : List Token} {a : Tree}
    (h : Reads fin .expr ts a) (hrest : ∀ level, NoOperator level rest) :
    Parse.expr fin (ts ++ rest) = .ok (a, ts.length) :=
  h rest a 0 (hrest .term) (exprTail_stop (hrest .expr))

theorem number_of_literal {negative : Bool} {t : Token} {n : Word} (h : Literal negative t n)
    (fin : Ending) (rest : List Token) : number fin negative t rest = .ok n :=
  (number_eq_ok_iff h.1).2 h

theorem reads_signed {fin : Ending} {s t : Token} {negative : Bool} {a : Tree}
    (hs : Sign s.kind negative)
    (h : ∀ rest, signedOperand fin negative (t :: rest) = .ok (a, 1)) :
    Reads fin .factor [s, t] a := by
  intro rest
  have hrest := h rest
  generalize hkind : s.kind = kind at hs
  cases hs with
  | plus =>
      simp only [factor, hkind, List.cons_append, List.nil_append, hrest]
      rfl
  | minus =>
      simp only [factor, hkind, List.cons_append, List.nil_append, hrest]
      rfl

/-- The operators of expressions are no operators of terms. -/
theorem Joins.not_term {kind : Token.Kind} {op : ArithOp} (h : Joins .expr kind op) :
    ∀ op', ¬ Joins .term kind op' := by
  intro op' h'
  cases h <;> cases h'

theorem length_join (ts us : List Token) (o : Token) :
    (ts ++ o :: us).length = ts.length + 1 + us.length := by
  simp only [List.length_append, List.length_cons]
  omega

theorem reads_of_derives {fin : Ending} {level : Level} {ts : List Token} {a : Tree}
    (h : Derives level ts a) : Reads fin level ts a := by
  induction h with
  | @literal t n hlit =>
      intro rest
      have hnumber := number_of_literal hlit fin rest
      simp only [factor, hlit.1, List.cons_append, List.nil_append, hnumber]
      rfl
  | @var t hkind =>
      intro rest
      simp only [factor, hkind, List.cons_append, List.nil_append]
      rfl
  | @signedLiteral s t negative n hs hlit =>
      refine reads_signed hs ?_
      intro rest
      have hnumber := number_of_literal hlit fin rest
      simp only [signedOperand, hlit.1, hnumber]
      rfl
  | @plusVar s t hs hkind =>
      refine reads_signed hs ?_
      intro rest
      simp only [signedOperand, hkind]
      rfl
  | @minusVar s t hs hkind =>
      refine reads_signed hs ?_
      intro rest
      simp only [signedOperand, hkind]
      rfl
  | @paren l r ts a hl _ hr ih =>
      intro rest
      have hdelimiter : r.kind ∈ delimiters := by
        simp [hr, delimiters]
      -- the closing parenthesis ends the expression
      have hinner := ih.expr_stop fun level => noOperator_delimiter hdelimiter level rest
      have hclose : expect fin .rparen .rparen (r :: rest) = .ok r :=
        expect_eq_ok_iff.2 ⟨hr, rest, rfl⟩
      simp only [factor, hl, List.cons_append, List.append_assoc, List.nil_append, hinner]
      simp only [bind, Except.bind, List.drop_left, hclose]
      simp [pure, Except.pure, Nat.add_comm]
  | @factor ts a _ ih =>
      intro rest b m htail
      rw [Parse.term, ih rest]
      simp only [bind, Except.bind, List.drop_left, htail]
      rfl
  | @product ts us o op a b _ hop _ ihterm ihfactor =>
      intro rest c m htail
      -- one round of the loop: it reads the operator and the factor, and goes on with the product
      have htail' : termTail fin a (o :: (us ++ rest)) = .ok (c, 1 + us.length + m) := by
        simp only [termTail, multiplicative?_eq_some_iff.2 hop, ihfactor rest]
        simp only [bind, Except.bind, List.drop_left, htail]
        rfl
      have hread := ihterm (o :: (us ++ rest)) c (1 + us.length + m) htail'
      have hlen : ts.length + (1 + us.length + m) = (ts ++ o :: us).length + m := by
        simp only [length_join, Nat.add_assoc]
      simpa [hlen] using hread
  | @term ts a _ ih =>
      intro rest b m hrest htail
      rw [Parse.expr, ih.term_stop hrest]
      simp only [bind, Except.bind, List.drop_left, htail]
      rfl
  | @sum ts us o op a b _ hop _ ihexpr ihterm =>
      intro rest c m hrest htail
      have htail' : exprTail fin a (o :: (us ++ rest)) = .ok (c, 1 + us.length + m) := by
        simp only [exprTail, additive?_eq_some_iff.2 hop, ihterm.term_stop hrest]
        simp only [bind, Except.bind, List.drop_left, htail]
        rfl
      -- the left operand ends here, because no operator of terms follows
      have hnext : NoOperator .term (o :: (us ++ rest)) := noOperator_cons _ hop.not_term
      have hread := ihexpr (o :: (us ++ rest)) c (1 + us.length + m) hnext htail'
      have hlen : ts.length + (1 + us.length + m) = (ts ++ o :: us).length + m := by
        simp only [length_join, Nat.add_assoc]
      simpa [hlen] using hread

theorem expr_complete (fin : Ending) {ts : List Token} {a : Tree} (h : Derives .expr ts a)
    (rest : List Token) (hrest : ∀ level, NoOperator level rest) :
    Parse.expr fin (ts ++ rest) = .ok (a, ts.length) :=
  (reads_of_derives h).expr_stop hrest

theorem expr_complete_end (fin : Ending) {ts : List Token} {a : Tree} (h : Derives .expr ts a) :
    Parse.expr fin ts = .ok (a, ts.length) := by
  have hread := expr_complete fin h [] noOperator_nil
  rwa [List.append_nil] at hread

theorem expr_complete_before (fin : Ending) {ts : List Token} {a : Tree} {t : Token}
    (h : Derives .expr ts a) (ht : t.kind ∈ delimiters) (rest : List Token) :
    Parse.expr fin (ts ++ t :: rest) = .ok (a, ts.length) :=
  expr_complete fin h (t :: rest) fun level => noOperator_delimiter ht level rest

/-- The kinds of token that an expression may start with. -/
def openers : List Token.Kind :=
  [.num, .var, .plus, .minus, .lparen]

theorem Sign.mem_openers {kind : Token.Kind} {negative : Bool} (h : Sign kind negative) :
    kind ∈ openers := by
  cases h <;> simp [openers]

theorem Derives.head {level : Level} {ts : List Token} {a : Tree} (h : Derives level ts a) :
    ∃ t rest, ts = t :: rest ∧ t.kind ∈ openers := by
  induction h with
  | @literal t n hlit => exact ⟨t, [], rfl, by simp [openers, hlit.1]⟩
  | @var t hkind => exact ⟨t, [], rfl, by simp [openers, hkind]⟩
  | @signedLiteral s t negative n hs _ => exact ⟨s, [t], rfl, hs.mem_openers⟩
  | @plusVar s t hs _ => exact ⟨s, [t], rfl, hs.mem_openers⟩
  | @minusVar s t hs _ => exact ⟨s, [t], rfl, hs.mem_openers⟩
  | @paren l r ts a hl _ _ _ => exact ⟨l, ts ++ [r], rfl, by simp [openers, hl]⟩
  | factor _ ih => exact ih
  | term _ ih => exact ih
  | @product ts us o op a b _ _ _ ih _ =>
      rcases ih with ⟨t, rest, rfl, ht⟩
      exact ⟨t, rest ++ o :: us, rfl, ht⟩
  | @sum ts us o op a b _ _ _ ih _ =>
      rcases ih with ⟨t, rest, rfl, ht⟩
      exact ⟨t, rest ++ o :: us, rfl, ht⟩

theorem Derives.ne_nil {level : Level} {ts : List Token} {a : Tree} (h : Derives level ts a) :
    ts ≠ [] := by
  rcases h.head with ⟨t, rest, rfl, -⟩
  simp

/-! ## Parts of statements -/

theorem unquoted_of_text {t : Token} {s : String} (h : t.text = "\"" ++ s ++ "\"") :
    t.unquoted = s := by
  simp [Token.unquoted, h]

theorem printItem_complete (fin : Ending) {ts : List Token} {a : Tree} (h : Item ts a)
    (rest : List Token) (hrest : ∀ level, NoOperator level rest) :
    printItem fin (ts ++ rest) = .ok (a, ts.length) := by
  cases h with
  | text hkind htext =>
      simp [printItem, hkind, unquoted_of_text htext]
  | expr hexpr =>
      have hread := expr_complete fin hexpr rest hrest
      rcases hexpr.head with ⟨t, us, rfl, ht⟩
      have hstr : t.kind ≠ .str := by
        intro hkind
        simp [hkind, openers] at ht
      simpa [printItem, hstr] using hread

theorem Item.ne_nil {ts : List Token} {a : Tree} (h : Item ts a) : ts ≠ [] := by
  cases h with
  | text => simp
  | expr hexpr => exact hexpr.ne_nil

theorem Items.ne_nil {ts : List Token} {as : List Tree} (h : Items ts as) : ts ≠ [] := by
  cases h with
  | last hitem => exact hitem.ne_nil
  | more => simp

theorem printItems_complete (fin : Ending) {ts : List Token} {as : List Tree} (h : Items ts as) :
    printItems fin ts = .ok (as, ts.length) := by
  induction h with
  | @last ts a hitem =>
      have hread := printItem_complete fin hitem [] noOperator_nil
      rw [List.append_nil] at hread
      rw [printItems, hread]
      simp only [bind, Except.bind]
      split
      case h_1 => rfl
      case h_2 t rest hcons => simp at hcons
  | @more ts us c a as hitem hcomma hitems ih =>
      have hdelimiter : c.kind ∈ delimiters := by
        simp [hcomma, delimiters]
      have hread := printItem_complete fin hitem (c :: us) fun level =>
        noOperator_delimiter hdelimiter level us
      rw [printItems, hread]
      simp only [bind, Except.bind]
      split
      case h_1 hnil => simp at hnil
      case h_2 t rest hcons =>
        rw [List.drop_left] at hcons
        cases hcons
        rw [length_join]
        simp [hcomma, hitems.ne_nil, ih, pure, Except.pure]

theorem moreNames_complete (fin : Ending) {ts : List Token} {xs : List String} (h : Names ts xs) :
    ∃ v us ys, v.kind = .var ∧ ts = v :: us ∧ xs = v.text :: ys ∧
      moreNames fin us = .ok (ys, us.length) := by
  induction h with
  | @last v hv =>
      refine ⟨v, [], [], hv, rfl, rfl, ?_⟩
      rw [moreNames]
      rfl
  | @more v c ts xs hv hc _ ih =>
      rcases ih with ⟨u, us, ys, hu, rfl, rfl, hread⟩
      refine ⟨v, c :: u :: us, u.text :: ys, hv, rfl, rfl, ?_⟩
      have hexpect : expect fin .var .var (u :: us) = .ok u :=
        expect_eq_ok_iff.2 ⟨hu, us, rfl⟩
      have hlen : 1 + 1 + us.length = (c :: u :: us).length := by
        simp only [List.length_cons]
        omega
      rw [← hlen]
      simp only [moreNames, hc, hexpect, bind, Except.bind, List.drop_one, List.tail_cons, hread]
      rfl

/-! ## Statements, each behind its keyword -/

section Keywords

variable (fin : Ending) {ts : List Token} {a : Tree}

theorem printStatement_complete {as : List Tree} (h : Items ts as) :
    printStatement fin ts = .ok (.print as, ts.length) := by
  have hread := printItems_complete fin h
  simp only [printStatement, h.ne_nil, if_false, hread]
  rfl

theorem gotoStatement_complete (h : Derives .expr ts a) :
    gotoStatement fin ts = .ok (.goto a, ts.length) := by
  have hread := expr_complete_end fin h
  simp only [gotoStatement, h.ne_nil, if_false, hread]
  rfl

theorem gosubStatement_complete (h : Derives .expr ts a) :
    gosubStatement fin ts = .ok (.gosub a, ts.length) := by
  have hread := expr_complete_end fin h
  simp only [gosubStatement, h.ne_nil, if_false, hread]
  rfl

theorem inputStatement_complete {xs : List String} (h : Names ts xs) :
    inputStatement fin ts = .ok (.input xs, ts.length) := by
  rcases moreNames_complete fin h with ⟨v, us, ys, hv, rfl, rfl, hread⟩
  have hexpect : expect fin .var .var (v :: us) = .ok v :=
    expect_eq_ok_iff.2 ⟨hv, us, rfl⟩
  rw [List.length_cons, Nat.add_comm]
  simp only [inputStatement, hexpect, bind, Except.bind, List.drop_one, List.tail_cons, hread]
  rfl

theorem letStatement_complete {v e : Token} (hv : v.kind = .var) (he : e.kind = .relop)
    (htext : e.text = "=") (h : Derives .expr ts a) :
    letStatement fin (v :: e :: ts) = .ok (.assign v.text a, (v :: e :: ts).length) := by
  have hname : expect fin .var .var (v :: e :: ts) = .ok v :=
    expect_eq_ok_iff.2 ⟨hv, e :: ts, rfl⟩
  have hequals : expect fin .relop .relop (e :: ts) = .ok e :=
    expect_eq_ok_iff.2 ⟨he, ts, rfl⟩
  have hread := expr_complete_end fin h
  have hlen : (v :: e :: ts).length = 2 + ts.length := by
    simp only [List.length_cons]
    omega
  rw [hlen]
  simp only [letStatement, hname, bind, Except.bind, List.drop_succ_cons, List.drop_zero, hequals,
    htext, ne_eq, not_true_eq_false, if_false, hread]
  rfl

theorem listStatement_complete {t : Token} {n : Word} (h : Literal false t n) :
    listStatement fin [t] = .ok (.listLine (.num n), 1) := by
  have hnumber := number_of_literal h fin []
  simp only [listStatement, h.1, if_true, hnumber]
  rfl

theorem afterKeyword_complete {reading : Except ParseError (Tree × Nat)} (w : Token)
    (h : reading = .ok (a, ts.length)) : afterKeyword reading = .ok (a, (w :: ts).length) := by
  rw [h, List.length_cons, Nat.add_comm]
  rfl

end Keywords

/-! ## Statements and lines -/

theorem ifStatement_complete (fin : Ending) {i r w : Token} {ts us vs : List Token}
    {a b c : Tree} {n : Nat} (hi : IsWord .ifKw i) (hleft : Derives .expr ts a)
    (hr : r.kind = .relop) (hright : Derives .expr us b) (hw : IsWord .thenKw w)
    (hbody : statement fin vs = .ok (c, n)) :
    statement fin (i :: (ts ++ r :: (us ++ w :: vs))) =
      .ok (.ifThen (.compare (.ofText r.text) a b) c,
        1 + (ts.length + 1 + us.length + 1 + n)) := by
  have hrelop : r.kind ∈ delimiters := by
    simp [hr, delimiters]
  have hthen : w.kind ∈ delimiters := by
    simp [hw.1, delimiters]
  have hreadleft := expr_complete_before fin hleft hrelop (us ++ w :: vs)
  have hreadright := expr_complete_before fin hright hthen vs
  have hop : expect fin .relop .relop (r :: (us ++ w :: vs)) = .ok r :=
    expect_eq_ok_iff.2 ⟨hr, us ++ w :: vs, rfl⟩
  have hword : expectThen fin (w :: vs) = .ok () :=
    expectThen_eq_ok_iff.2 ⟨w, vs, hw, rfl⟩
  -- what is left behind each part
  have hdrop₁ : (ts ++ r :: (us ++ w :: vs)).drop ts.length = r :: (us ++ w :: vs) :=
    List.drop_left
  have hdrop₂ : (ts ++ r :: (us ++ w :: vs)).drop (ts.length + 1) = us ++ w :: vs := by
    rw [← List.drop_drop, hdrop₁, List.drop_one, List.tail_cons]
  have hdrop₃ : (ts ++ r :: (us ++ w :: vs)).drop (ts.length + 1 + us.length) = w :: vs := by
    rw [← List.drop_drop, hdrop₂, List.drop_left]
  have hdrop₄ : (ts ++ r :: (us ++ w :: vs)).drop (ts.length + 1 + us.length + 1) = vs := by
    rw [← List.drop_drop, hdrop₃, List.drop_one, List.tail_cons]
  rw [statement]
  simp only [keyword?_eq_some_iff.2 hi, hreadleft, bind, Except.bind, hdrop₁, hop, hdrop₂,
    hreadright, hdrop₃, hword, hdrop₄, hbody]
  rfl

theorem length_ifThen (i r w : Token) (ts us vs : List Token) :
    (i :: (ts ++ r :: (us ++ w :: vs))).length =
      1 + (ts.length + 1 + us.length + 1 + vs.length) := by
  simp only [List.length_cons, List.length_append]
  omega

theorem statement_complete (fin : Ending) {ts : List Token} {a : Tree} (h : Statement ts a) :
    statement fin ts = .ok (a, ts.length) := by
  induction h with
  | @expr ts a hexpr =>
      have hread := expr_complete_end fin hexpr
      -- the first token of an expression sends the reader to no other production
      rcases hexpr.head with ⟨t, us, rfl, ht⟩
      have hkeyword : t.keyword? = none := by
        cases hk : t.keyword? with
        | none => rfl
        | some k =>
            have hkind := (keyword?_eq_some_iff.1 hk).1
            simp [hkind, openers] at ht
      have hstr : t.kind ≠ .str := by
        intro hkind
        simp [hkind, openers] at ht
      simpa [statement, hkeyword, hstr] using hread
  | @alone k w a halone hw =>
      have hk := keyword?_eq_some_iff.2 hw
      cases halone <;> simp only [statement, hk] <;> rfl
  | @print w ts as hw hitems =>
      simp only [statement, keyword?_eq_some_iff.2 hw]
      exact afterKeyword_complete w (printStatement_complete fin hitems)
  | ifThen hi hleft hr hright hw _ ih =>
      rw [length_ifThen]
      exact ifStatement_complete fin hi hleft hr hright hw ih
  | @goto w ts a hw hexpr =>
      simp only [statement, keyword?_eq_some_iff.2 hw]
      exact afterKeyword_complete w (gotoStatement_complete fin hexpr)
  | @gosub w ts a hw hexpr =>
      simp only [statement, keyword?_eq_some_iff.2 hw]
      exact afterKeyword_complete w (gosubStatement_complete fin hexpr)
  | @input w ts xs hw hnames =>
      simp only [statement, keyword?_eq_some_iff.2 hw]
      exact afterKeyword_complete w (inputStatement_complete fin hnames)
  | @assign w v e ts a hw hv he htext hexpr =>
      simp only [statement, keyword?_eq_some_iff.2 hw]
      exact afterKeyword_complete w (letStatement_complete fin hv he htext hexpr)
  | @listLine w t n hw hlit =>
      simp only [statement, keyword?_eq_some_iff.2 hw]
      exact afterKeyword_complete w (listStatement_complete fin hlit)

theorem wholeStatement_complete {ts : List Token} {a : Tree} (h : Statement ts a) (length : Nat) :
    wholeStatement (.complete length) ts = .ok a := by
  have hread := statement_complete (.complete length) h
  simp only [wholeStatement, hread, bind, Except.bind, List.drop_length, endOfLine]
  rfl

/-- A line that is derived is read, if its scan did not fail. -/
theorem line_complete {ts : List Token} {a : Tree} (h : Line ts a) (length : Nat) :
    Parse.line (.complete length) ts = .ok a := by
  cases h with
  | @numbered t ts n a hlit hstatement =>
      have hnumber := number_of_literal hlit (.complete length) ts
      have hwhole := wholeStatement_complete hstatement length
      rw [Parse.line, if_pos hlit.1, hnumber]
      simp only [bind, Except.bind, hwhole]
      rfl
  | plain hstatement hhead =>
      have hwhole := wholeStatement_complete hstatement length
      cases ts with
      | nil => exact hwhole
      | cons t rest =>
          have hkind : t.kind ≠ .num := hhead t rfl
          simp only [Parse.line, hkind, if_false, hwhole]

end Grammar
end TinyBasic
