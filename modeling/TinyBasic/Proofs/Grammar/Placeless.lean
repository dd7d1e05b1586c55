import TinyBasic.Proofs.Grammar.Extent
import TinyBasic.Proofs.Token.Composition

/-!
# Placeless — reading does not look at places

A production chooses its way by the kinds and the texts of tokens. It takes their spans over into its
errors, and that is all it does with them. So if the tokens are sent to other places, then the
production reads what it read before, or fails as it did before, at the place where its token or the
end of the line has gone.

`Relocated f r r'` says this of the two readings, and is kept when readings are put together.
-/

namespace TinyBasic

/-- The error at another place. -/
def ParseError.relocate (f : Nat → Nat) : ParseError → ParseError
  | unexpected expected found s => .unexpected expected found (s.relocate f)
  | scan e => .scan (e.relocate f)

namespace Grammar

open Parse

/-- The second reading is the first one, with its error sent to another place. -/
def Relocated {α : Type} (f : Nat → Nat) (r r' : Except ParseError α) : Prop :=
  r' = r.mapError (ParseError.relocate f)

section Relocated

variable {α β : Type} {f : Nat → Nat}

theorem Relocated.pure (a : α) : Relocated f (.ok a) (.ok a) := rfl

theorem Relocated.error {e e' : ParseError} (h : e' = e.relocate f) :
    Relocated f (.error e : Except ParseError α) (.error e') :=
  congrArg Except.error h

theorem Relocated.bind {x x' : Except ParseError α} {k k' : α → Except ParseError β}
    (hx : Relocated f x x') (hk : ∀ a, Relocated f (k a) (k' a)) :
    Relocated f (x >>= k) (x' >>= k') := by
  cases hx
  cases x with
  | ok a => exact hk a
  | error e => rfl

end Relocated

section Readings

variable {f : Nat → Nat} {fin : Ending}

theorem reject_relocate (expected : Expected) (t : Token) (rest : List Token) :
    (fin.relocate f).reject expected (t.relocate f) (rest.map (Token.relocate f)) =
      (fin.reject expected t rest).relocate f := by
  cases rest <;> cases fin <;> rfl

theorem relocated_number (negative : Bool) (t : Token) (rest : List Token) :
    Relocated f (number fin negative t rest)
      (number (fin.relocate f) negative (t.relocate f) (rest.map (Token.relocate f))) := by
  have hvalue : (t.relocate f).value? negative = t.value? negative := rfl
  simp only [Parse.number, hvalue]
  cases t.value? negative with
  | some n => exact .pure n
  | none => exact .error (reject_relocate .num t rest)

/-! From here on the end of the line goes where `f` sends its offset. -/

variable (hend : ∀ expected, (fin.relocate f).atEnd expected = (fin.atEnd expected).relocate f)
include hend

/-- A token that must be there is the same one at its new place. -/
theorem relocated_expect {β : Type} {kind : Token.Kind} {expected : Expected} {ts : List Token}
    {k k' : Token → Except ParseError β} (hk : ∀ t, Relocated f (k t) (k' (t.relocate f))) :
    Relocated f (expect fin kind expected ts >>= k)
      (expect (fin.relocate f) kind expected (ts.map (Token.relocate f)) >>= k') := by
  cases ts with
  | nil => exact Relocated.error (hend expected)
  | cons t rest =>
      simp only [List.map_cons, expect, Token.kind_relocate]
      split
      case isTrue => exact hk t
      case isFalse => exact .error rfl

/-! ## Expressions -/

theorem relocated_signedOperand (negative : Bool) (ts : List Token) :
    Relocated f (signedOperand fin negative ts)
      (signedOperand (fin.relocate f) negative (ts.map (Token.relocate f))) := by
  cases ts with
  | nil => exact .error (hend .numOrVar)
  | cons t rest =>
      simp only [List.map_cons, signedOperand, Token.kind_relocate]
      split
      case h_1 => exact (relocated_number negative t rest).bind fun n => .pure _
      case h_2 => exact .pure _
      case h_3 => exact .error rfl

theorem relocated_expression :
    (∀ ts, Relocated f (Parse.expr fin ts)
      (Parse.expr (fin.relocate f) (ts.map (Token.relocate f)))) ∧
    (∀ left ts, Relocated f (exprTail fin left ts)
      (exprTail (fin.relocate f) left (ts.map (Token.relocate f)))) ∧
    (∀ ts, Relocated f (term fin ts) (term (fin.relocate f) (ts.map (Token.relocate f)))) ∧
    (∀ left ts, Relocated f (termTail fin left ts)
      (termTail (fin.relocate f) left (ts.map (Token.relocate f)))) ∧
    (∀ ts, Relocated f (factor fin ts)
      (factor (fin.relocate f) (ts.map (Token.relocate f)))) := by
  refine Parse.expr.mutual_induct
    (fun ts => Relocated f (Parse.expr fin ts)
      (Parse.expr (fin.relocate f) (ts.map (Token.relocate f))))
    (fun left ts => Relocated f (exprTail fin left ts)
      (exprTail (fin.relocate f) left (ts.map (Token.relocate f))))
    (fun ts => Relocated f (term fin ts) (term (fin.relocate f) (ts.map (Token.relocate f))))
    (fun left ts => Relocated f (termTail fin left ts)
      (termTail (fin.relocate f) left (ts.map (Token.relocate f))))
    (fun ts => Relocated f (factor fin ts) (factor (fin.relocate f) (ts.map (Token.relocate f))))
    ?expr ?exprEnd ?exprStop ?exprMore ?term ?termEnd ?termStop ?termMore
    ?factorEnd ?factorPlus ?factorMinus ?factorNum ?factorVar ?factorParen ?factorOther
  case expr =>
    intro ts ihterm ihtail
    rw [Parse.expr, Parse.expr]
    -- both readings pass the same number of tokens, so what is left corresponds, too
    refine ihterm.bind ?_
    rintro ⟨left, n⟩
    have htail := ihtail left n
    rw [List.map_drop] at htail
    exact htail.bind fun x => .pure _
  case exprEnd =>
    intro left
    rw [List.map_nil, exprTail, exprTail]
    exact .pure _
  case exprStop =>
    intro left t rest hop
    simp only [List.map_cons, exprTail, Token.kind_relocate, hop]
    exact .pure _
  case exprMore =>
    intro left t rest op hop ihterm ihtail
    simp only [List.map_cons, exprTail, Token.kind_relocate, hop]
    refine ihterm.bind ?_
    rintro ⟨right, n⟩
    have htail := ihtail right n
    rw [List.map_drop] at htail
    exact htail.bind fun x => .pure _
  case term =>
    intro ts ihfactor ihtail
    rw [term, term]
    refine ihfactor.bind ?_
    rintro ⟨left, n⟩
    have htail := ihtail left n
    rw [List.map_drop] at htail
    exact htail.bind fun x => .pure _
  case termEnd =>
    intro left
    rw [List.map_nil, termTail, termTail]
    exact .pure _
  case termStop =>
    intro left t rest hop
    simp only [List.map_cons, termTail, Token.kind_relocate, hop]
    exact .pure _
  case termMore =>
    intro left t rest op hop ihfactor ihtail
    simp only [List.map_cons, termTail, Token.kind_relocate, hop]
    refine ihfactor.bind ?_
    rintro ⟨right, n⟩
    have htail := ihtail right n
    rw [List.map_drop] at htail
    exact htail.bind fun x => .pure _
  case factorEnd =>
    rw [List.map_nil, factor, factor]
    exact .error (hend .numberOrParen)
  case factorPlus =>
    intro t rest hkind
    simp only [List.map_cons, factor, Token.kind_relocate, hkind]
    exact (relocated_signedOperand hend false rest).bind fun x => .pure _
  case factorMinus =>
    intro t rest hkind
    simp only [List.map_cons, factor, Token.kind_relocate, hkind]
    exact (relocated_signedOperand hend true rest).bind fun x => .pure _
  case factorNum =>
    intro t rest hkind
    simp only [List.map_cons, factor, Token.kind_relocate, hkind]
    exact (relocated_number false t rest).bind fun n => .pure _
  case factorVar =>
    intro t rest hkind
    simp only [List.map_cons, factor, Token.kind_relocate, hkind]
    exact .pure _
  case factorParen =>
    intro t rest hkind ihexpr
    simp only [List.map_cons, factor, Token.kind_relocate, hkind]
    refine ihexpr.bind ?_
    rintro ⟨inner, n⟩
    rw [← List.map_drop]
    exact relocated_expect hend fun r => .pure _
  case factorOther =>
    intro t rest hplus hminus hnum hvar hparen
    simp only [List.map_cons, factor, Token.kind_relocate]
    exact .error rfl

theorem relocated_expr (ts : List Token) :
    Relocated f (Parse.expr fin ts) (Parse.expr (fin.relocate f) (ts.map (Token.relocate f))) :=
  (relocated_expression hend).1 ts

/-! ## Parts of statements -/

theorem relocated_printItem (ts : List Token) :
    Relocated f (printItem fin ts) (printItem (fin.relocate f) (ts.map (Token.relocate f))) := by
  cases ts with
  | nil => exact relocated_expr hend []
  | cons t rest =>
      simp only [List.map_cons, printItem, Token.kind_relocate]
      split
      case isTrue => exact .pure _
      case isFalse => exact relocated_expr hend (t :: rest)

theorem relocated_printItems (ts : List Token) :
    Relocated f (printItems fin ts) (printItems (fin.relocate f) (ts.map (Token.relocate f))) := by
  induction ts using printItems.induct with
  | case1 ts ih =>
      rw [printItems, printItems]
      refine (relocated_printItem hend ts).bind ?_
      rintro ⟨item, n⟩
      dsimp only
      -- both lists end behind the item, or go on with the same token
      generalize hdrop' : (ts.map (Token.relocate f)).drop n = us
      rw [← List.map_drop] at hdrop'
      cases hdrop : ts.drop n with
      | nil =>
          rw [hdrop] at hdrop'
          subst hdrop'
          exact .pure _
      | cons t rest =>
          rw [hdrop, List.map_cons] at hdrop'
          subst hdrop'
          by_cases hcomma : t.kind = .comma
          · by_cases hnil : rest = []
            · simp only [Token.kind_relocate, hcomma, hnil, List.map_nil, ne_eq, not_true_eq_false,
                if_false, if_true]
              exact .error (hend .expression)
            · simp only [Token.kind_relocate, hcomma, hnil, List.map_eq_nil_iff, ne_eq,
                not_true_eq_false, if_false]
              exact (ih n t rest hdrop).bind fun x => .pure _
          · simp only [Token.kind_relocate, hcomma, ne_eq, not_false_eq_true, if_true]
            exact .error rfl

theorem relocated_moreNames (ts : List Token) :
    Relocated f (moreNames fin ts) (moreNames (fin.relocate f) (ts.map (Token.relocate f))) := by
  induction ts using moreNames.induct with
  | case1 =>
      rw [List.map_nil, moreNames, moreNames]
      exact .pure _
  | case2 t rest hcomma ih =>
      simp only [List.map_cons, moreNames, Token.kind_relocate, hcomma]
      refine relocated_expect hend ?_
      intro v
      rw [← List.map_drop]
      exact ih.bind fun x => .pure _
  | case3 t rest hvar =>
      simp only [List.map_cons, moreNames, Token.kind_relocate, hvar]
      exact .error rfl
  | case4 t rest hcomma hvar =>
      simp only [List.map_cons, moreNames, Token.kind_relocate]
      exact .pure _

theorem relocated_expectThen (ts : List Token) :
    Relocated f (expectThen fin ts) (expectThen (fin.relocate f) (ts.map (Token.relocate f))) := by
  cases ts with
  | nil => exact .error (hend .thenKw)
  | cons t rest =>
      simp only [List.map_cons, expectThen, Token.keyword?_relocate]
      split
      case isTrue => exact .pure ()
      case isFalse => exact .error rfl

/-! ## Statements and lines -/

/-- A production that reads an expression if there is anything at all. -/
theorem relocated_target {p : Production Tree} {wrap : Tree → Tree} {expected : Expected}
    (hnil : ∀ fin, p fin [] = .error (fin.unexpected expected []))
    (hcons : ∀ fin t ts, p fin (t :: ts) = do
      let (a, n) ← Parse.expr fin (t :: ts)
      return (wrap a, n)) (ts : List Token) :
    Relocated f (p fin ts) (p (fin.relocate f) (ts.map (Token.relocate f))) := by
  cases ts with
  | nil =>
      rw [List.map_nil, hnil, hnil]
      exact .error (hend expected)
  | cons t rest =>
      have hexpr := relocated_expr hend (t :: rest)
      rw [List.map_cons] at hexpr
      rw [List.map_cons, hcons, hcons]
      exact hexpr.bind fun x => .pure _

theorem relocated_printStatement (ts : List Token) :
    Relocated f (printStatement fin ts)
      (printStatement (fin.relocate f) (ts.map (Token.relocate f))) := by
  simp only [printStatement, List.map_eq_nil_iff]
  split
  case isTrue => exact .pure _
  case isFalse => exact (relocated_printItems hend ts).bind fun x => .pure _

theorem relocated_inputStatement (ts : List Token) :
    Relocated f (inputStatement fin ts)
      (inputStatement (fin.relocate f) (ts.map (Token.relocate f))) := by
  refine relocated_expect hend ?_
  intro v
  rw [← List.map_drop]
  exact (relocated_moreNames hend (ts.drop 1)).bind fun x => .pure _

theorem relocated_letStatement (ts : List Token) :
    Relocated f (letStatement fin ts)
      (letStatement (fin.relocate f) (ts.map (Token.relocate f))) := by
  refine relocated_expect hend ?_
  intro v
  rw [← List.map_drop]
  refine relocated_expect hend ?_
  intro op
  rw [← List.map_drop]
  have htext := op.text_relocate f
  by_cases hequals : op.text ≠ "="
  · rw [if_pos hequals, if_pos (htext ▸ hequals)]
    exact .error (reject_relocate .equal op (ts.drop 2))
  · rw [if_neg hequals, if_neg (htext ▸ hequals)]
    exact (relocated_expr hend (ts.drop 2)).bind fun x => .pure _

omit hend in
theorem relocated_listStatement (ts : List Token) :
    Relocated f (listStatement fin ts)
      (listStatement (fin.relocate f) (ts.map (Token.relocate f))) := by
  cases ts with
  | nil => exact .pure _
  | cons t rest =>
      simp only [List.map_cons, listStatement, Token.kind_relocate]
      split
      case isTrue => exact (relocated_number false t rest).bind fun n => .pure _
      case isFalse => exact .error rfl

theorem Follows.relocated {k : Keyword} {p : Production Tree} (h : Follows k p) (ts : List Token) :
    Relocated f (p fin ts) (p (fin.relocate f) (ts.map (Token.relocate f))) := by
  cases h with
  | print => exact relocated_printStatement hend ts
  | goto => exact relocated_target hend (fun _ => rfl) (fun _ _ _ => rfl) ts
  | gosub => exact relocated_target hend (fun _ => rfl) (fun _ _ _ => rfl) ts
  | input => exact relocated_inputStatement hend ts
  | assign => exact relocated_letStatement hend ts
  | list => exact relocated_listStatement ts
  | ret | clear | run | finish => exact .pure _

theorem relocated_statement (ts : List Token) :
    Relocated f (Parse.statement fin ts)
      (Parse.statement (fin.relocate f) (ts.map (Token.relocate f))) := by
  induction ts using statement_induction with
  | nil =>
      rw [List.map_nil, Parse.statement, Parse.statement]
      exact relocated_expr hend []
  | bare t rest hk =>
      by_cases hstr : t.kind = .str
      · simp only [List.map_cons, Parse.statement, Token.keyword?_relocate, hk, Token.kind_relocate,
          hstr, if_true]
        exact .error rfl
      · simp only [List.map_cons, Parse.statement, Token.keyword?_relocate, hk, Token.kind_relocate,
          hstr, if_false]
        exact relocated_expr hend (t :: rest)
  | led k p t rest hp hk =>
      have hk' : (t.relocate f).keyword? = some k := hk
      rw [List.map_cons, hp.statement_eq hk, hp.statement_eq hk']
      exact (hp.relocated hend rest).bind fun x => .pure _
  | ifThen t rest hk ih =>
      simp only [List.map_cons, Parse.statement, Token.keyword?_relocate, hk]
      refine (relocated_expr hend rest).bind ?_
      rintro ⟨left, n⟩
      simp only [← List.map_drop]
      refine relocated_expect hend ?_
      intro op
      refine (relocated_expr hend _).bind ?_
      rintro ⟨right, m⟩
      refine (relocated_expectThen hend _).bind ?_
      intro _
      exact (ih _).bind fun x => .pure _
  | stray t rest hk =>
      rcases hk with hk | hk <;>
        simp only [List.map_cons, Parse.statement, Token.keyword?_relocate, hk] <;>
        exact .error rfl

theorem relocated_endOfLine (ts : List Token) :
    Relocated f (endOfLine fin ts) (endOfLine (fin.relocate f) (ts.map (Token.relocate f))) := by
  cases ts with
  | nil =>
      cases fin with
      | complete n => exact .pure ()
      | failed e => exact .error rfl
  | cons t rest => cases fin <;> exact .error rfl

theorem relocated_wholeStatement (ts : List Token) :
    Relocated f (wholeStatement fin ts)
      (wholeStatement (fin.relocate f) (ts.map (Token.relocate f))) := by
  refine (relocated_statement hend ts).bind ?_
  rintro ⟨tree, n⟩
  simp only [← List.map_drop]
  exact (relocated_endOfLine hend _).bind fun _ => .pure _

theorem relocated_line (ts : List Token) :
    Relocated f (Parse.line fin ts) (Parse.line (fin.relocate f) (ts.map (Token.relocate f))) := by
  cases ts with
  | nil => exact relocated_wholeStatement hend []
  | cons t rest =>
      simp only [List.map_cons, Parse.line, Token.kind_relocate]
      split
      case isTrue =>
        refine (relocated_number false t rest).bind ?_
        intro n
        exact (relocated_wholeStatement hend rest).bind fun a => .pure _
      case isFalse => exact relocated_wholeStatement hend (t :: rest)

theorem relocated_command (ts : List Token) :
    Relocated f (Parse.command fin ts)
      (Parse.command (fin.relocate f) (ts.map (Token.relocate f))) := by
  cases ts with
  | nil => exact (relocated_line hend []).bind fun a => .pure _
  | cons t rest =>
      simp only [List.map_cons, Parse.command, Token.keyword?_relocate]
      split
      case isTrue => exact (relocated_endOfLine hend rest).bind fun _ => .pure _
      case isFalse => exact (relocated_line hend (t :: rest)).bind fun a => .pure _

end Readings

end Grammar
end TinyBasic
