import TinyBasic.Proofs.Grammar.Trace

/-!
# Faithful — runs give what the productions give

A run differs from its production only by the account it keeps. With the account left out the two
agree on every list of tokens, whether they end well or with an error: `reading_expr`,
`reading_statement` and, for whole lines, `result_line`.

The induction for each production is the recursion of the production itself.
-/

namespace TinyBasic
namespace Trace

open Run

section

variable {α : Type} {fin : Ending} {ts : List Token} {m : Nat}

/-- The reading goes on behind a token of the kind expected. -/
theorem readingAfter_expect {kind : Token.Kind} {expected : Expected}
    {next : Token → (us : List Token) → us <:+ ts → Run us α}
    {k : Token → Except ParseError (α × Nat)}
    (hnext : ∀ t us hus, us = ts.drop 1 → (next t us hus).readingAfter (m + 1) = k t) :
    ((expect fin kind expected ts).andThen next).readingAfter m =
      Parse.expect fin kind expected ts >>= k := by
  cases ts with
  | nil => rfl
  | cons t rest =>
      rw [expect, Parse.expect]
      split
      case isTrue =>
        rw [taking_andThen, still_andThen, readingAfter_taking]
        exact hnext t rest _ rfl
      case isFalse => rfl

/-- The reading goes on behind the word `THEN`. -/
theorem readingAfter_expectThen {next : Unit → (us : List Token) → us <:+ ts → Run us α}
    {k : Unit → Except ParseError (α × Nat)}
    (hnext : ∀ us hus, us = ts.drop 1 → (next () us hus).readingAfter (m + 1) = k ()) :
    ((expectThen fin ts).andThen next).readingAfter m = Parse.expectThen fin ts >>= k := by
  cases ts with
  | nil => rfl
  | cons t rest =>
      rw [expectThen, Parse.expectThen]
      split
      case isTrue =>
        rw [taking_andThen, still_andThen, readingAfter_taking]
        exact hnext rest _ rfl
      case isFalse => rfl

end

/-! ## Expressions -/

theorem reading_signedOperand (fin : Ending) (negative : Bool) (ts : List Token) :
    (signedOperand fin negative ts).reading = Parse.signedOperand fin negative ts := by
  cases ts with
  | nil => rfl
  | cons t rest =>
      rw [← readingAfter_zero]
      cases hkind : t.kind <;>
        simp only [signedOperand, Parse.signedOperand, hkind, readingAfter_taking,
          readingAfter_still, bind_assoc, pure_bind] <;> rfl

mutual

theorem reading_expr (fin : Ending) (ts : List Token) :
    (expr fin ts).reading = Parse.expr fin ts := by
  rw [expr, Parse.expr, ← readingAfter_zero]
  refine readingAfter_andThen (reading_call (reading_term fin ts)) ?_
  -- the tokens left by the first term are those that the production drops to
  rintro left n us - rfl
  rw [Nat.zero_add]
  exact readingAfter_of_reading (reading_call (reading_exprTail fin left (ts.drop n))) n
termination_by 3 * ts.length + 2
decreasing_by
  · omega
  · simp only [List.length_drop]
    omega

theorem reading_exprTail (fin : Ending) (left : Tree) (ts : List Token) :
    (exprTail fin left ts).reading = Parse.exprTail fin left ts := by
  cases ts with
  | nil =>
      rw [exprTail, Parse.exprTail, ← readingAfter_zero, readingAfter_still]
      rfl
  | cons t rest =>
      rw [← readingAfter_zero]
      cases hop : t.kind.additive? with
      | none =>
          simp only [exprTail, Parse.exprTail, hop, readingAfter_still]
          rfl
      | some op =>
          simp only [exprTail, Parse.exprTail, hop, readingAfter_taking]
          refine readingAfter_andThen (reading_call (reading_term fin rest)) ?_
          rintro right n us - rfl
          have htail := reading_exprTail fin (.arith op left right) (rest.drop n)
          exact readingAfter_of_reading (reading_call htail) _
termination_by 3 * ts.length
decreasing_by
  all_goals
    simp only [List.length_drop, List.length_cons]
    omega

theorem reading_term (fin : Ending) (ts : List Token) :
    (term fin ts).reading = Parse.term fin ts := by
  rw [term, Parse.term, ← readingAfter_zero]
  refine readingAfter_andThen (reading_call (reading_factor fin ts)) ?_
  rintro left n us - rfl
  rw [Nat.zero_add]
  exact readingAfter_of_reading (reading_call (reading_termTail fin left (ts.drop n))) n
termination_by 3 * ts.length + 1
decreasing_by
  · omega
  · simp only [List.length_drop]
    omega

theorem reading_termTail (fin : Ending) (left : Tree) (ts : List Token) :
    (termTail fin left ts).reading = Parse.termTail fin left ts := by
  cases ts with
  | nil =>
      rw [termTail, Parse.termTail, ← readingAfter_zero, readingAfter_still]
      rfl
  | cons t rest =>
      rw [← readingAfter_zero]
      cases hop : t.kind.multiplicative? with
      | none =>
          simp only [termTail, Parse.termTail, hop, readingAfter_still]
          rfl
      | some op =>
          simp only [termTail, Parse.termTail, hop, readingAfter_taking]
          refine readingAfter_andThen (reading_call (reading_factor fin rest)) ?_
          rintro right n us - rfl
          have htail := reading_termTail fin (.arith op left right) (rest.drop n)
          exact readingAfter_of_reading (reading_call htail) _
termination_by 3 * ts.length
decreasing_by
  all_goals
    simp only [List.length_drop, List.length_cons]
    omega

theorem reading_factor (fin : Ending) (ts : List Token) :
    (factor fin ts).reading = Parse.factor fin ts := by
  cases ts with
  | nil =>
      rw [factor, Parse.factor]
      rfl
  | cons t rest =>
      rw [← readingAfter_zero]
      cases hkind : t.kind <;> simp only [factor, Parse.factor, hkind, readingAfter_taking]
      case plus => exact readingAfter_of_reading (reading_call (reading_signedOperand ..)) 1
      case minus => exact readingAfter_of_reading (reading_call (reading_signedOperand ..)) 1
      case num =>
        rw [readingAfter_still, bind_assoc]
        rfl
      case var =>
        rw [readingAfter_still]
        rfl
      case lparen =>
        refine readingAfter_andThen (reading_call (reading_expr fin rest)) ?_
        rintro inner n us - rfl
        refine readingAfter_expect ?_
        rintro r us - rfl
        rw [readingAfter_still, Nat.zero_add]
        rfl
      all_goals rfl
termination_by 3 * ts.length
decreasing_by
  simp only [List.length_cons]
  omega

end

/-! ## Statements -/

theorem reading_printItem (fin : Ending) (ts : List Token) :
    (printItem fin ts).reading = Parse.printItem fin ts := by
  cases ts with
  | nil =>
      rw [printItem, Parse.printItem]
      exact reading_call (reading_expr fin [])
  | cons t rest =>
      rw [printItem, Parse.printItem]
      split
      case isTrue =>
        rw [← readingAfter_zero, readingAfter_taking, readingAfter_still]
        rfl
      case isFalse => exact reading_call (reading_expr fin (t :: rest))

theorem reading_printItems (fin : Ending) (ts : List Token) :
    (printItems fin ts).reading = Parse.printItems fin ts := by
  rw [printItems, Parse.printItems, ← readingAfter_zero]
  refine readingAfter_andThen (reading_call (reading_printItem fin ts)) ?_
  intro item n us h hus
  rw [Nat.zero_add]
  dsimp only
  -- the production looks at the tokens it drops to, the run at those that are left
  generalize ts.drop n = vs at hus ⊢
  subst hus
  cases us with
  | nil =>
      rw [readingAfter_still]
      rfl
  | cons t rest =>
      dsimp only
      split
      case isTrue => rfl
      case isFalse =>
        split
        case isTrue => rfl
        case isFalse =>
          rw [readingAfter_taking]
          exact readingAfter_map (reading_call (reading_printItems fin rest)) _ _
termination_by ts.length
decreasing_by
  have hlen := List.IsSuffix.length_le h
  simp only [List.length_cons] at hlen
  omega

theorem reading_moreNames (fin : Ending) (ts : List Token) :
    (moreNames fin ts).reading = Parse.moreNames fin ts := by
  cases ts with
  | nil =>
      rw [moreNames, Parse.moreNames, ← readingAfter_zero, readingAfter_still]
      rfl
  | cons t rest =>
      rw [← readingAfter_zero]
      cases hkind : t.kind <;> simp only [moreNames, Parse.moreNames, hkind]
      case comma =>
        rw [readingAfter_taking]
        refine readingAfter_expect ?_
        rintro v us - rfl
        exact readingAfter_map (reading_call (reading_moreNames fin (rest.drop 1))) _ _
      case var => rfl
      all_goals
        rw [readingAfter_still]
        rfl
termination_by ts.length
decreasing_by
  simp only [List.length_drop, List.length_cons]
  omega

theorem reading_printStatement (fin : Ending) (ts : List Token) :
    (printStatement fin ts).reading = Parse.printStatement fin ts := by
  rw [printStatement, Parse.printStatement, ← readingAfter_zero]
  split
  case isTrue =>
    rw [readingAfter_still]
    rfl
  case isFalse =>
    rw [readingAfter_map (reading_call (reading_printItems fin ts))]
    simp only [Nat.zero_add]

/-- A production that reads an expression if there is anything at all. -/
theorem reading_target {p : Ending → List Token → Except ParseError (Tree × Nat)}
    {expected : Expected} {wrap : Tree → Tree}
    (hp : ∀ fin ts, p fin ts =
      if ts = [] then
        .error (fin.unexpected expected ts)
      else
        Parse.expr fin ts >>= fun x => pure (wrap x.1, x.2))
    (routine : Routine) (fin : Ending) (ts : List Token) :
    (target routine expected wrap fin ts).reading = p fin ts := by
  rw [target, hp, ← readingAfter_zero]
  split
  case isTrue => rfl
  case isFalse =>
    rw [readingAfter_map (reading_call (reading_expr fin ts))]
    simp only [Nat.zero_add]

theorem reading_gotoStatement (fin : Ending) (ts : List Token) :
    (target .gotoStatement .num .goto fin ts).reading = Parse.gotoStatement fin ts :=
  reading_target (fun _ _ => rfl) .gotoStatement fin ts

theorem reading_gosubStatement (fin : Ending) (ts : List Token) :
    (target .gosubStatement .expression .gosub fin ts).reading = Parse.gosubStatement fin ts :=
  reading_target (fun _ _ => rfl) .gosubStatement fin ts

theorem reading_inputStatement (fin : Ending) (ts : List Token) :
    (inputStatement fin ts).reading = Parse.inputStatement fin ts := by
  rw [inputStatement, Parse.inputStatement, ← readingAfter_zero]
  refine readingAfter_expect ?_
  rintro v us - rfl
  exact readingAfter_map (reading_call (reading_moreNames fin (ts.drop 1))) _ _

theorem reading_letStatement (fin : Ending) (ts : List Token) :
    (letStatement fin ts).reading = Parse.letStatement fin ts := by
  rw [letStatement, Parse.letStatement, ← readingAfter_zero]
  refine readingAfter_expect ?_
  rintro v us - rfl
  refine readingAfter_expect ?_
  rintro op us - rfl
  rw [List.drop_drop]
  dsimp only
  split
  case isTrue => rfl
  case isFalse => exact readingAfter_map (reading_call (reading_expr fin (ts.drop 2))) _ _

theorem reading_listStatement (fin : Ending) (ts : List Token) :
    (listStatement fin ts).reading = Parse.listStatement fin ts := by
  cases ts with
  | nil => rfl
  | cons t rest =>
      rw [listStatement, Parse.listStatement, ← readingAfter_zero]
      split
      case isTrue =>
        rw [readingAfter_taking, readingAfter_still, bind_assoc]
        rfl
      case isFalse => rfl

theorem reading_statement (fin : Ending) (ts : List Token) :
    (statement fin ts).reading = Parse.statement fin ts := by
  cases ts with
  | nil =>
      rw [statement, Parse.statement]
      exact reading_call (reading_expr fin [])
  | cons t rest =>
      cases hk : t.keyword? with
      | none =>
          simp only [statement, Parse.statement, hk]
          split
          case isTrue => rfl
          case isFalse => exact reading_call (reading_expr fin (t :: rest))
      | some k =>
          rw [← readingAfter_zero]
          cases k <;> simp only [statement, Parse.statement, hk, readingAfter_taking]
          case ifKw =>
            refine readingAfter_andThen (reading_call (reading_expr fin rest)) ?_
            rintro left n us - rfl
            refine readingAfter_expect ?_
            rintro op us - rfl
            -- each part goes on from the first token: what has been dropped is added up
            rw [List.drop_drop]
            refine readingAfter_andThen (reading_call (reading_expr fin (rest.drop (n + 1)))) ?_
            rintro right m us - rfl
            rw [List.drop_drop]
            refine readingAfter_expectThen ?_
            rintro us - rfl
            rw [List.drop_drop]
            have hbody := reading_statement fin (rest.drop (n + 1 + m + 1))
            rw [readingAfter_map (reading_call hbody)]
            simp only [Nat.zero_add, Nat.add_assoc]
          case print =>
            exact readingAfter_of_reading (reading_call (reading_printStatement fin rest)) 1
          case goto =>
            exact readingAfter_of_reading (reading_call (reading_gotoStatement fin rest)) 1
          case input =>
            exact readingAfter_of_reading (reading_call (reading_inputStatement fin rest)) 1
          case letKw =>
            exact readingAfter_of_reading (reading_call (reading_letStatement fin rest)) 1
          case gosub =>
            exact readingAfter_of_reading (reading_call (reading_gosubStatement fin rest)) 1
          case list =>
            exact readingAfter_of_reading (reading_call (reading_listStatement fin rest)) 1
          case thenKw | quit => rfl
          all_goals
            rw [readingAfter_still]
            rfl
termination_by ts.length
decreasing_by
  simp only [List.length_drop, List.length_cons]
  omega

/-! ## Lines -/

theorem result_wholeStatement (fin : Ending) (ts : List Token) :
    (wholeStatement fin ts).result = Parse.wholeStatement fin ts := by
  rw [wholeStatement, Parse.wholeStatement, ← reading_statement]
  cases hr : (statement fin ts).result with
  | error e =>
      simp only [andThen, call, reading, hr]
      rfl
  | ok tree =>
      simp only [andThen, call, reading, still, hr]
      exact congrArg (fun us => Parse.endOfLine fin us >>= fun _ => pure tree)
        (statement fin ts).left_eq_drop

theorem result_line (fin : Ending) (ts : List Token) :
    (line fin ts).result = Parse.line fin ts := by
  cases ts with
  | nil => exact result_wholeStatement fin []
  | cons t rest =>
      rw [line, Parse.line]
      split
      case isTrue =>
        cases Parse.number fin false t rest with
        | error e => rfl
        | ok n =>
            rw [still_andThen, ← result_wholeStatement]
            rfl
      case isFalse => exact result_wholeStatement fin (t :: rest)

end Trace
end TinyBasic
