import TinyBasic.Proofs.Tree.Source

/-!
# Round trip — canonical texts are read back

The tokens of a tree's canonical text derive the tree. So reading the text gives the tree back, for
exactly the trees that reading can give.
-/

namespace TinyBasic
namespace Source

open Grammar Lexicon

/-! ## Words are derived

What the grammar says of tokens depends on their kinds and texts only, so it can be shown of any
tokens that are the words of a tree. -/

theorem kind_of_lexeme {t : Token} {w : Lexeme} (h : lexeme t = w) : t.kind = w.kind := by
  rw [← h]
  rfl

theorem text_of_lexeme {t : Token} {w : Lexeme} (h : lexeme t = w) : t.text = w.text := by
  rw [← h]
  rfl

theorem isWord_of_lexeme {t : Token} {k : Keyword} (h : lexeme t = keyword k) : IsWord k t :=
  ⟨kind_of_lexeme h, text_of_lexeme h⟩

theorem isWord_keyword (k : Keyword) : IsWord k (keyword k).token :=
  isWord_of_lexeme (lexeme_token (keyword k))

theorem wholePart_of_lexeme {t : Token} {n : Nat} (h : lexeme t = number n) : wholePart t = n := by
  -- digits hold no point, so the whole part is the whole text
  have hdigits : ∀ c ∈ (Decimal.ofNat n).toList, (c ≠ '.' : Bool) = true := by
    intro c hc
    have hdigit := Decimal.isDigit_of_mem_ofNat hc
    refine decide_eq_true ?_
    rintro rfl
    cases hdigit
  have htake : (Decimal.ofNat n).toList.takeWhile (· ≠ '.') = (Decimal.ofNat n).toList :=
    List.takeWhile_eq_self_iff.2 hdigits
  rw [wholePart, text_of_lexeme h, number, htake, Decimal.toNat_ofNat]

theorem literal_of_lexeme {t : Token} {n : Word} (h : lexeme t = number n.toInt.natAbs)
    (hn : 0 ≤ n.toInt) : Literal false t n := by
  refine ⟨kind_of_lexeme h, ?_⟩
  rw [wholePart_of_lexeme h]
  simp only [Bool.false_eq_true, if_false]
  omega

theorem negative_literal_of_lexeme {t : Token} {n : Word} (h : lexeme t = number n.toInt.natAbs)
    (hn : n.toInt < 0) : Literal true t n := by
  refine ⟨kind_of_lexeme h, ?_⟩
  rw [wholePart_of_lexeme h]
  simp only [if_true]
  omega

theorem sign_of_plus {s : Token} (h : lexeme s = plus) : Sign s.kind false := by
  rw [kind_of_lexeme h]
  exact .plus

theorem sign_of_minus {s : Token} (h : lexeme s = minus) : Sign s.kind true := by
  rw [kind_of_lexeme h]
  exact .minus

theorem joins_level (op : ArithOp) : Joins (level op) (operator op).kind op := by
  cases op with
  | add => exact .plus
  | sub => exact .minus
  | mul => exact .times
  | div => exact .divide

/-- An operation takes its right operand one level tighter than its left one. -/
theorem derives_arith {ts us : List Token} {o : Token} {op : ArithOp} {a b : Tree}
    (ha : Derives (level op) ts a) (ho : lexeme o = operator op)
    (hb : Derives (rightLevel op) us b) : Derives (level op) (ts ++ o :: us) (.arith op a b) := by
  have hjoins := joins_level op
  rw [← kind_of_lexeme ho] at hjoins
  cases op with
  | add | sub => exact .sum ha hjoins hb
  | mul | div => exact .product ha hjoins hb

theorem derives_of_factor {l : Level} {ts : List Token} {a : Tree} (h : Derives .factor ts a) :
    Derives l ts a := by
  cases l with
  | expr => exact .term (.factor h)
  | term => exact .factor h
  | factor => exact h

theorem derives_of_fits {l : Level} {op : ArithOp} {ts : List Token} {a : Tree}
    (hfits : fits l op = true) (h : Derives (level op) ts a) : Derives l ts a := by
  cases l with
  | expr =>
      cases op with
      | add | sub => exact h
      | mul | div => exact .term h
  | term =>
      have hlevel : level op = .term := by simpa [fits] using hfits
      rwa [hlevel] at h
  | factor => cases hfits

theorem derives_parenthesized {l : Level} {ws : List Lexeme} {ts : List Token} {a : Tree}
    (hts : ts.map lexeme = parenthesized ws)
    (h : ∀ us, us.map lexeme = ws → Derives .expr us a) : Derives l ts a := by
  rcases List.map_eq_cons_iff.1 hts with ⟨t, us, rfl, ht, hus⟩
  rcases List.map_eq_append_iff.1 hus with ⟨vs, rs, rfl, hvs, hrs⟩
  rcases List.map_eq_singleton_iff.1 hrs with ⟨r, rfl, hr⟩
  exact derives_of_factor (.paren (kind_of_lexeme ht) (h vs hvs) (kind_of_lexeme hr))

theorem derives_num {n : Word} {ts : List Token} {l : Level}
    (hts : ts.map lexeme = expression l (.num n)) : Derives .factor ts (.num n) := by
  rw [expression] at hts
  split at hts
  case isTrue hn =>
    rcases List.map_eq_cons_iff.1 hts with ⟨s, us, rfl, hs, hus⟩
    rcases List.map_eq_singleton_iff.1 hus with ⟨t, rfl, ht⟩
    exact .signedLiteral (sign_of_minus hs) (negative_literal_of_lexeme ht hn)
  case isFalse hn =>
    rcases List.map_eq_singleton_iff.1 hts with ⟨t, rfl, ht⟩
    exact .literal (literal_of_lexeme ht (Int.not_lt.1 hn))

/-- Tokens that are the words of an expression derive it. -/
theorem derives_expression {a : Tree} (h : Shape.Expr a) {l : Level} {ts : List Token}
    (hts : ts.map lexeme = expression l a) : Derives l ts a := by
  induction h generalizing l ts with
  | num n => exact derives_of_factor (derives_num hts)
  | @var x hx =>
      rcases List.map_eq_singleton_iff.1 hts with ⟨t, rfl, ht⟩
      have htext : t.text = x := text_of_lexeme ht
      rw [← htext]
      exact derives_of_factor (.var (kind_of_lexeme ht))
  | @neg x hx =>
      rcases List.map_eq_cons_iff.1 hts with ⟨s, us, rfl, hs, hus⟩
      rcases List.map_eq_singleton_iff.1 hus with ⟨t, rfl, ht⟩
      have htext : t.text = x := text_of_lexeme ht
      rw [← htext]
      exact derives_of_factor (.minusVar (sign_of_minus hs) (kind_of_lexeme ht))
  | @arith a b op _ _ iha ihb =>
      -- the words without parentheses, which derive the operation at its own level
      have hbare : ∀ us : List Token,
          us.map lexeme = expression (level op) a ++ operator op :: expression (rightLevel op) b →
            Derives (level op) us (.arith op a b) := by
        intro us hus
        rcases List.map_eq_append_iff.1 hus with ⟨vs, os, rfl, hvs, hos⟩
        rcases List.map_eq_cons_iff.1 hos with ⟨o, rs, rfl, ho, hrs⟩
        exact derives_arith (iha hvs) ho (ihb hrs)
      simp only [expression] at hts
      split at hts
      case isTrue hfits => exact derives_of_fits hfits (hbare ts hts)
      case isFalse =>
        refine derives_parenthesized hts ?_
        intro us hus
        exact derives_of_fits rfl (hbare us hus)

theorem item_of_words {a : Tree} (h : Shape.Item a) {ts : List Token}
    (hts : ts.map lexeme = item a) : Grammar.Item ts a := by
  cases h with
  | text hs =>
      rcases List.map_eq_singleton_iff.1 hts with ⟨t, rfl, ht⟩
      exact .text (kind_of_lexeme ht) (text_of_lexeme ht)
  | expr ha =>
      have hwords : item a = expression .expr a := by
        cases ha <;> rfl
      rw [hwords] at hts
      exact .expr (derives_expression ha hts)

theorem items_of_words {as : List Tree} (hne : as ≠ []) (h : ∀ a ∈ as, Shape.Item a)
    {ts : List Token} (hts : ts.map lexeme = [comma].intercalate (as.map item)) : Items ts as := by
  induction as generalizing ts with
  | nil => exact absurd rfl hne
  | cons a as ih =>
      have ha := h a (by simp)
      cases as with
      | nil =>
          rw [List.map_singleton, List.intercalate_singleton] at hts
          exact .last (item_of_words ha hts)
      | cons b as =>
          rw [List.map_cons, List.map_cons, List.intercalate_cons_cons, List.append_assoc] at hts
          rcases List.map_eq_append_iff.1 hts with ⟨us, cs, rfl, hus, hcs⟩
          rcases List.map_eq_cons_iff.1 hcs with ⟨c, vs, rfl, hc, hvs⟩
          have hmore := ih (by simp) (fun d hd => h d (by simp [hd])) hvs
          exact .more (item_of_words ha hus) (kind_of_lexeme hc) hmore

theorem names_of_words {xs : List String} (hne : xs ≠ []) {ts : List Token}
    (hts : ts.map lexeme = [comma].intercalate (xs.map fun x => [letter x])) : Names ts xs := by
  induction xs generalizing ts with
  | nil => exact absurd rfl hne
  | cons x xs ih =>
      cases xs with
      | nil =>
          rcases List.map_eq_singleton_iff.1 hts with ⟨t, rfl, ht⟩
          have hx : t.text = x := text_of_lexeme ht
          rw [← hx]
          exact .last (kind_of_lexeme ht)
      | cons y xs =>
          rcases List.map_eq_cons_iff.1 hts with ⟨t, us, rfl, ht, hus⟩
          rcases List.map_eq_cons_iff.1 hus with ⟨c, vs, rfl, hc, hvs⟩
          have hx : t.text = x := text_of_lexeme ht
          rw [← hx]
          exact .more (kind_of_lexeme ht) (kind_of_lexeme hc) (ih (by simp) hvs)

theorem ofText_comparison (op : Relop) : Relop.ofText (comparison op).text = op := by
  cases op <;> decide

theorem alone_of_words {k : Keyword} {a : Tree} (h : Alone k a) {ts : List Token}
    (hts : ts.map lexeme = [keyword k]) : Grammar.Statement ts a := by
  rcases List.map_eq_singleton_iff.1 hts with ⟨w, rfl, hw⟩
  exact .alone h (isWord_of_lexeme hw)

theorem ifThen_of_words {op : Relop} {a b c : Tree} (ha : Shape.Expr a) (hb : Shape.Expr b)
    (hc : ∀ vs : List Token, vs.map lexeme = statement c → Grammar.Statement vs c)
    {ts : List Token} (hts : ts.map lexeme = statement (.ifThen (.compare op a b) c)) :
    Grammar.Statement ts (.ifThen (.compare op a b) c) := by
  simp only [statement, condition, List.append_assoc, List.cons_append] at hts
  rcases List.map_eq_cons_iff.1 hts with ⟨i, us, rfl, hi, hus⟩
  rcases List.map_eq_append_iff.1 hus with ⟨ls, rs, rfl, hls, hrs⟩
  rcases List.map_eq_cons_iff.1 hrs with ⟨r, vs, rfl, hr, hvs⟩
  rcases List.map_eq_append_iff.1 hvs with ⟨ms, ws, rfl, hms, hws⟩
  rcases List.map_eq_cons_iff.1 hws with ⟨w, xs, rfl, hw, hxs⟩
  have hkind : r.kind = .relop := by
    rw [kind_of_lexeme hr]
    cases op <;> rfl
  have hop : Relop.ofText r.text = op := by
    rw [text_of_lexeme hr]
    exact ofText_comparison op
  rw [← hop]
  exact .ifThen (isWord_of_lexeme hi) (derives_expression ha hls) hkind
    (derives_expression hb hms) (isWord_of_lexeme hw) (hc xs hxs)

/-- Tokens that are the words of a statement derive it. -/
theorem statement_of_words {a : Tree} (h : Shape.Statement a) {ts : List Token}
    (hts : ts.map lexeme = statement a) : Grammar.Statement ts a := by
  induction h generalizing ts with
  | expr ha =>
      rw [statement_expr ha] at hts
      exact .expr (derives_expression ha hts)
  | @print items hitems =>
      -- `PRINT` with no items has a rule of its own
      by_cases hnil : items = []
      · subst hnil
        exact alone_of_words .print hts
      · rcases List.map_eq_cons_iff.1 hts with ⟨w, us, rfl, hw, hus⟩
        exact .print (isWord_of_lexeme hw) (items_of_words hnil hitems hus)
  | ifThen op ha hb _ ih => exact ifThen_of_words ha hb (fun _ => ih) hts
  | goto ha =>
      rcases List.map_eq_cons_iff.1 hts with ⟨w, us, rfl, hw, hus⟩
      exact .goto (isWord_of_lexeme hw) (derives_expression ha hus)
  | gosub ha =>
      rcases List.map_eq_cons_iff.1 hts with ⟨w, us, rfl, hw, hus⟩
      exact .gosub (isWord_of_lexeme hw) (derives_expression ha hus)
  | input hne _ =>
      rcases List.map_eq_cons_iff.1 hts with ⟨w, us, rfl, hw, hus⟩
      exact .input (isWord_of_lexeme hw) (names_of_words hne hus)
  | @assign x a _ ha =>
      rcases List.map_eq_cons_iff.1 hts with ⟨w, us, rfl, hw, hus⟩
      rcases List.map_eq_cons_iff.1 hus with ⟨v, vs, rfl, hv, hvs⟩
      rcases List.map_eq_cons_iff.1 hvs with ⟨e, es, rfl, he, hes⟩
      have hx : v.text = x := text_of_lexeme hv
      rw [← hx]
      exact .assign (isWord_of_lexeme hw) (kind_of_lexeme hv) (kind_of_lexeme he)
        (text_of_lexeme he) (derives_expression ha hes)
  | @listLine n hn =>
      rcases List.map_eq_cons_iff.1 hts with ⟨w, us, rfl, hw, hus⟩
      rw [expression, if_neg (Int.not_lt.2 hn)] at hus
      rcases List.map_eq_singleton_iff.1 hus with ⟨t, rfl, ht⟩
      exact .listLine (isWord_of_lexeme hw) (literal_of_lexeme ht hn)
  | ret => exact alone_of_words .ret hts
  | clear => exact alone_of_words .clear hts
  | listAll => exact alone_of_words .list hts
  | run => exact alone_of_words .run hts
  | finish => exact alone_of_words .finish hts

/-! ## Lines -/

theorem sign_ne_num {kind : Token.Kind} {negative : Bool} (h : Sign kind negative) :
    kind ≠ .num := by
  cases h <;> decide

/-- A plus sign in front of an expression that begins with a number changes nothing. -/
theorem derives_plus {s : Token} (hs : Sign s.kind false) {l : Level} {ts : List Token} {a : Tree}
    (h : Derives l ts a) : (∀ t ∈ ts.head?, t.kind = .num) → Derives l (s :: ts) a := by
  -- the number is the first factor, found by going down the left operands
  induction h with
  | literal hlit => exact fun _ => .signedLiteral hs hlit
  | var hkind => exact fun hhead => absurd (hhead _ rfl) (by simp [hkind])
  | signedLiteral hsign _ => exact fun hhead => absurd (hhead _ rfl) (sign_ne_num hsign)
  | plusVar hsign _ => exact fun hhead => absurd (hhead _ rfl) (sign_ne_num hsign)
  | minusVar hsign _ => exact fun hhead => absurd (hhead _ rfl) (sign_ne_num hsign)
  | paren hl _ _ _ => exact fun hhead => absurd (hhead _ rfl) (by simp [hl])
  | factor _ ih => exact fun hhead => .factor (ih hhead)
  | term _ ih => exact fun hhead => .term (ih hhead)
  | product ha hjoins hb ih _ =>
      intro hhead
      rcases ha.head with ⟨t, us, rfl, -⟩
      exact .product (ih hhead) hjoins hb
  | sum ha hjoins hb ih _ =>
      intro hhead
      rcases ha.head with ⟨t, us, rfl, -⟩
      exact .sum (ih hhead) hjoins hb

theorem isWord_ne_num {k : Keyword} {w : Token} (h : IsWord k w) : w.kind ≠ .num := by
  rw [h.1]
  decide

/-- Of the statements only an expression can begin with a number. -/
theorem statement_plus {s t : Token} (hs : Sign s.kind false) (ht : t.kind = .num)
    {ts : List Token} {a : Tree} (h : Grammar.Statement (t :: ts) a) :
    Grammar.Statement (s :: t :: ts) a := by
  cases h with
  | expr hexpr =>
      refine .expr (derives_plus hs hexpr ?_)
      intro u hu
      cases hu
      exact ht
  | alone _ hw | print hw _ | ifThen hw _ _ _ _ _ | goto hw _ | gosub hw _ | input hw _
  | assign hw _ _ _ _ | listLine hw _ => exact absurd ht (isWord_ne_num hw)

theorem plain_of_words {a : Tree} (h : Shape.Statement a) {ts : List Token}
    (hts : ts.map lexeme = unnumbered (statement a)) : Grammar.Line ts a := by
  have hstatement : ∀ us : List Token, us.map lexeme = statement a → Grammar.Statement us a :=
    fun _ => statement_of_words h
  -- from here on only the first word matters
  generalize statement a = ws at hts hstatement
  cases ws with
  | nil =>
      refine .plain (hstatement ts hts) ?_
      rw [List.map_eq_nil_iff.1 hts]
      nofun
  | cons w ws =>
      rw [unnumbered] at hts
      split at hts
      case isTrue hnum =>
        rcases List.map_eq_cons_iff.1 hts with ⟨s, us, rfl, hs, hus⟩
        have hsign := sign_of_plus hs
        have hrest := hstatement us hus
        rcases List.map_eq_cons_iff.1 hus with ⟨t, vs, rfl, ht, -⟩
        refine .plain (statement_plus hsign (by rw [kind_of_lexeme ht, hnum]) hrest) ?_
        intro u hu
        cases hu
        exact sign_ne_num hsign
      case isFalse hnum =>
        have hrest := hstatement ts hts
        rcases List.map_eq_cons_iff.1 hts with ⟨t, vs, rfl, ht, -⟩
        refine .plain hrest ?_
        intro u hu
        cases hu
        rwa [kind_of_lexeme ht]

/-- Tokens that are the words of a line derive it. -/
theorem line_of_words {a : Tree} (h : Shape.Line a) {ts : List Token}
    (hts : ts.map lexeme = line a) : Grammar.Line ts a := by
  cases h with
  | plain ha =>
      rw [line_statement ha] at hts
      exact plain_of_words ha hts
  | numbered hn ha =>
      rcases List.map_eq_cons_iff.1 hts with ⟨t, us, rfl, ht, hus⟩
      exact .numbered (literal_of_lexeme ht hn) (statement_of_words ha hus)

/-! ## The round trip -/

theorem ofText_source {a : Tree} (h : Shape.Line a) : Tree.ofText a.source = .ok a := by
  rcases ofText_spaced (valid_line h) with ⟨ts, hscan, hts⟩
  exact ofText_eq_ok_iff.2 ⟨ts, hscan, line_of_words h hts⟩

/-- The trees that can be read are exactly the well-shaped ones, and exactly these are read back
from their canonical text. -/
theorem read_source_iff (a : Tree) :
    ((∃ text, Tree.ofText text = .ok a) ↔ Shape.Line a) ∧
      (Tree.ofText a.source = .ok a ↔ Shape.Line a) := by
  refine ⟨⟨?_, ?_⟩, ⟨?_, ?_⟩⟩
  · rintro ⟨text, htext⟩
    exact Shape.line_of_ofText htext
  · intro h
    exact ⟨a.source, ofText_source h⟩
  · intro h
    exact Shape.line_of_ofText h
  · intro h
    exact ofText_source h

example :
    (Tree.arith .mul (.arith .add (.num 1) (.num (-5))) (.arith .mul (.var "X") (.var "Y"))).source =
      "( 1 + - 5 ) * ( X * Y )" := by
  decide

example :
    (Tree.arith .sub (.arith .sub (.num 1) (.num 2)) (.arith .mul (.neg (.var "X")) (.num 3))).source =
      "+ 1 - 2 - - X * 3" := by
  decide

end Source
end TinyBasic
