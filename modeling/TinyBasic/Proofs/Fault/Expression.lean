import TinyBasic.Proofs.Fault.Basic

/-!
# Faults of expressions

Each of the productions for expressions has a fault where it fails. Tokens that begin an expression
can be completed: with an operand behind a sign, an operator or an opening parenthesis, and with as
many closing parentheses as are open.
-/

namespace TinyBasic
namespace Grammar

open Parse Lexicon Source

theorem exists_literal_one (negative : Bool) :
    ∃ n, Literal negative (Source.number 1).token n := by
  cases negative with
  | false => exact ⟨1, literal_of_lexeme rfl (by decide)⟩
  | true => exact ⟨-1, negative_literal_of_lexeme rfl (by decide)⟩

theorem fault_signedOperand {fin : Ending} {negative : Bool} {s : Token} {ts : List Token}
    {e : ParseError} (hs : Sign s.kind negative) (h : signedOperand fin negative ts = .error e) :
    Fault (fun fin ts => signedOperand fin negative ts)
      (fun expected us => Awaits (Derives .factor) expected (s :: us)) fin ts e := by
  have hvar : Awaits (Derives .factor) .numOrVar [s] := by
    cases negative with
    | false => exact .word rfl (.plusVar hs rfl)
    | true => exact .word rfl (.minusVar hs rfl)
  cases ts with
  | nil =>
      cases h
      exact .here hvar nofun
  | cons t rest =>
      simp only [signedOperand] at h
      split at h
      case h_1 hkind =>
        rcases exists_literal_one negative with ⟨n, hn⟩
        rcases error_of_bind h with h | ⟨m, _, h⟩
        · refine .number hkind h (.word rfl (.signedLiteral hs hn)) ?_
          intro fin' more a ha
          simp only [signedOperand, hkind] at ha
          exact exists_ok_of_bind ha
        · cases h
      case h_2 => cases h
      case h_3 =>
        cases h
        refine .here hvar ?_
        intro t' ht u hu fin' more a ha
        cases ht
        simp only [signedOperand, hu.1] at ha
        cases ha

theorem fault_signed {fin : Ending} {negative : Bool} {s : Token} {ts : List Token} {e : ParseError}
    (hs : Sign s.kind negative) (h : factor fin (s :: ts) = .error e) :
    Fault factor (Awaits (Derives .factor)) fin (s :: ts) e := by
  have hfactor : ∀ fin ts, factor fin (s :: ts) = do
      let x ← signedOperand fin negative ts
      return (x.1, 1 + x.2) := by
    intro fin ts
    generalize hkind : s.kind = kind at hs
    cases hs <;> simp only [factor, hkind]
  rw [hfactor] at h
  rcases error_of_bind h with h | ⟨⟨tree, n⟩, _, h⟩
  · refine (fault_signedOperand hs h).behind [s] (fun _ _ _ hus => hus) ?_
    intro t ht u hu fin' more a ha
    rw [List.cons_append, List.nil_append, hfactor] at ha
    exact exists_ok_of_bind ha
  · cases h

theorem awaits_factor : Awaits (Derives .factor) .numberOrParen [] := by
  refine ⟨⟨.lparen, "("⟩, [letter "A", ⟨.rparen, ")"⟩], .var "A", rfl, ?_, ?_⟩
  · refine List.forall_mem_cons.2 ⟨?_, ?_⟩
    · exact valid_letter_A
    · exact valid_singleton (.mark (by decide))
  · exact .paren rfl (.term (.factor (.var rfl))) rfl

/-- What goes wrong in an expression. A loop that starts with the tree `left` goes on from tokens
`us` that stand for it. -/
theorem fault_expression (fin : Ending) :
    (∀ ts e, Parse.expr fin ts = .error e →
      Fault Parse.expr (Awaits (Derives .expr)) fin ts e) ∧
    (∀ left ts us e, Derives .expr us left → exprTail fin left ts = .error e →
      Fault (fun fin ts => exprTail fin left ts)
        (fun expected vs => Awaits (Derives .expr) expected (us ++ vs)) fin ts e) ∧
    (∀ ts e, term fin ts = .error e → Fault term (Awaits (Derives .term)) fin ts e) ∧
    (∀ left ts us e, Derives .term us left → termTail fin left ts = .error e →
      Fault (fun fin ts => termTail fin left ts)
        (fun expected vs => Awaits (Derives .term) expected (us ++ vs)) fin ts e) ∧
    (∀ ts e, factor fin ts = .error e → Fault factor (Awaits (Derives .factor)) fin ts e) := by
  -- the induction is on the calls of the productions, one case for each of their branches
  refine Parse.expr.mutual_induct
    (fun ts => ∀ e, Parse.expr fin ts = .error e →
      Fault Parse.expr (Awaits (Derives .expr)) fin ts e)
    (fun left ts => ∀ us e, Derives .expr us left → exprTail fin left ts = .error e →
      Fault (fun fin ts => exprTail fin left ts)
        (fun expected vs => Awaits (Derives .expr) expected (us ++ vs)) fin ts e)
    (fun ts => ∀ e, term fin ts = .error e → Fault term (Awaits (Derives .term)) fin ts e)
    (fun left ts => ∀ us e, Derives .term us left → termTail fin left ts = .error e →
      Fault (fun fin ts => termTail fin left ts)
        (fun expected vs => Awaits (Derives .term) expected (us ++ vs)) fin ts e)
    (fun ts => ∀ e, factor fin ts = .error e → Fault factor (Awaits (Derives .factor)) fin ts e)
    ?expr ?exprEnd ?exprStop ?exprMore ?term ?termEnd ?termStop ?termMore
    ?factorEnd ?factorPlus ?factorMinus ?factorNum ?factorVar ?factorParen ?factorOther
  case expr =>
    intro ts ihterm ihtail e
    refine Fault.chain (r := fun left fin ts => exprTail fin left ts)
      (f := fun x y => (y.1, x.2 + y.2)) [] ?_
      settled_term ((expression_sound fin).2.2.1 ts) ihterm ?_ ?_
    · intro fin' ts'
      rw [List.nil_append, Parse.expr]
    · intro expected us
      exact .imp [] fun ts a hts => ⟨a, .term hts⟩
    · intro left us hus
      exact ihtail left us.length us e (.term hus)
  case exprEnd =>
    intro left us e hus h
    rw [exprTail] at h
    cases h
  case exprStop =>
    intro left t rest hop us e hus h
    simp only [exprTail, hop] at h
    cases h
  case exprMore =>
    intro left t rest op hop ihterm ihtail us e hus
    have hjoins := additive?_eq_some_iff.1 hop
    refine Fault.chain (p := fun fin ts => exprTail fin left ts)
      (r := fun right fin ts => exprTail fin (.arith op left right) ts)
      (f := fun x y => (y.1, 1 + x.2 + y.2)) [t] ?_
      settled_term ((expression_sound fin).2.2.1 rest) ihterm ?_ ?_
    · intro fin' ts'
      simp only [List.cons_append, List.nil_append, exprTail, hop]
    · intro expected vs hvs
      rw [← List.append_assoc]
      refine hvs.imp (us ++ [t]) ?_
      intro ws b hws
      rw [List.append_assoc]
      exact ⟨.arith op left b, .sum hus hjoins hws⟩
    -- the loop goes on from the sum so far
    · intro right ws hws
      have htail := ihtail right ws.length (us ++ t :: ws) e (.sum hus hjoins hws)
      simpa only [List.append_assoc, List.cons_append, List.nil_append] using htail
  case term =>
    intro ts ihfactor ihtail e
    refine Fault.chain (r := fun left fin ts => termTail fin left ts)
      (f := fun x y => (y.1, x.2 + y.2)) [] ?_
      settled_factor ((expression_sound fin).2.2.2.2 ts) ihfactor ?_ ?_
    · intro fin' ts'
      rw [List.nil_append, Parse.term]
    · intro expected us
      exact .imp [] fun ts a hts => ⟨a, .factor hts⟩
    · intro left us hus
      exact ihtail left us.length us e (.factor hus)
  case termEnd =>
    intro left us e hus h
    rw [termTail] at h
    cases h
  case termStop =>
    intro left t rest hop us e hus h
    simp only [termTail, hop] at h
    cases h
  case termMore =>
    intro left t rest op hop ihfactor ihtail us e hus
    have hjoins := multiplicative?_eq_some_iff.1 hop
    refine Fault.chain (p := fun fin ts => termTail fin left ts)
      (r := fun right fin ts => termTail fin (.arith op left right) ts)
      (f := fun x y => (y.1, 1 + x.2 + y.2)) [t] ?_
      settled_factor ((expression_sound fin).2.2.2.2 rest) ihfactor ?_ ?_
    · intro fin' ts'
      simp only [List.cons_append, List.nil_append, termTail, hop]
    · intro expected vs hvs
      rw [← List.append_assoc]
      refine hvs.imp (us ++ [t]) ?_
      intro ws b hws
      rw [List.append_assoc]
      exact ⟨.arith op left b, .product hus hjoins hws⟩
    -- likewise from the product so far
    · intro right ws hws
      have htail := ihtail right ws.length (us ++ t :: ws) e (.product hus hjoins hws)
      simpa only [List.append_assoc, List.cons_append, List.nil_append] using htail
  case factorEnd =>
    intro e h
    simp only [factor] at h
    cases h
    refine .here awaits_factor ?_
    intro t ht
    cases ht
  case factorPlus =>
    intro t rest hkind e h
    have hs : Sign t.kind false := hkind ▸ .plus
    exact fault_signed hs h
  case factorMinus =>
    intro t rest hkind e h
    have hs : Sign t.kind true := hkind ▸ .minus
    exact fault_signed hs h
  case factorNum =>
    intro t rest hkind e h
    rcases exists_literal_one false with ⟨n, hn⟩
    simp only [factor, hkind] at h
    rcases error_of_bind h with h | ⟨m, _, h⟩
    · refine .number hkind h (.word rfl (.literal hn)) ?_
      intro fin' more a ha
      simp only [factor, hkind] at ha
      exact exists_ok_of_bind ha
    · cases h
  case factorVar =>
    intro t rest hkind e h
    simp only [factor, hkind] at h
    cases h
  case factorParen =>
    intro t rest hkind ihexpr e
    refine Fault.chain (r := fun _ fin ts => expect fin .rparen .rparen ts)
      (f := fun x _ => (x.1, 1 + x.2 + 1)) [t] ?_
      settled_expr ((expression_sound fin).1 rest) ihexpr ?_ ?_
    · intro fin' ts'
      simp only [List.cons_append, List.nil_append, factor, hkind]
    -- a parenthesis that is open is closed behind the expression
    · intro expected us
      refine .imp_append [t] [⟨.rparen, ")"⟩] (valid_singleton (.mark (by decide))) ?_
      intro ws a hws
      exact ⟨a, .paren hkind hws rfl⟩
    · intro a us hus h
      refine .expect [] h (.word (a := a) rfl ?_) ?_
      · rw [List.append_nil]
        exact .paren hkind hus rfl
      · intro fin' more r hr
        exact ⟨r, hr⟩
  case factorOther =>
    intro t rest h1 h2 h3 h4 h5 e h
    simp only [factor] at h
    cases h
    refine .here awaits_factor ?_
    intro t' ht u hu fin' more a ha
    cases ht
    simp only [factor, hu.1] at ha
    cases ha

theorem fault_expr {fin : Ending} {ts : List Token} {e : ParseError} :
    Parse.expr fin ts = .error e → Fault Parse.expr (Awaits (Derives .expr)) fin ts e :=
  (fault_expression fin).1 ts e

end Grammar
end TinyBasic
