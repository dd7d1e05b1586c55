import Mathlib
import TinyBasic.Parse.Command

/-!
# Trace — a reading with its calls

The productions once more, in a form that keeps account of how they read. A `Run` from the tokens
`ts` holds the result, the tokens that are left, and the calls that were made on the way:

* `Run.taking` is the only way past a token, and it passes the first one;
* `Run.call` notes a call: who calls, who is called, and the tokens that each of them started with;
* `Run.andThen` goes on where a run ended well, while an error ends the whole.

`Run.reading` leaves the account out and counts the tokens, as the productions do.
-/

namespace TinyBasic
namespace Trace

/-! ## Calls -/

/-- The productions. -/
inductive Routine where
  | line
  | wholeStatement
  | statement
  | printStatement
  | printItems
  | printItem
  | gotoStatement
  | gosubStatement
  | inputStatement
  | moreNames
  | letStatement
  | listStatement
  | expr
  | exprTail
  | term
  | termTail
  | factor
  | signedOperand
  deriving DecidableEq, Repr

/-- A production and the tokens from its place on. -/
structure Start where
  routine : Routine
  tokens : List Token
  deriving DecidableEq, Repr

/-- A call of one production by another, each with the tokens that it started with. -/
structure Call where
  caller : Start
  callee : Start
  deriving DecidableEq, Repr

namespace Call

/-- The call takes a loop round again. -/
def isRound (c : Call) : Bool :=
  match c.caller.routine, c.callee.routine with
  | .exprTail, .exprTail | .termTail, .termTail => true
  | .printItems, .printItems | .moreNames, .moreNames => true
  | _, _ => false

/-- The call is for an expression in parentheses or for the statement behind `THEN`: a production
that is still at work is entered again. -/
def isNested (c : Call) : Bool :=
  match c.caller.routine, c.callee.routine with
  | .factor, .expr | .statement, .statement => true
  | _, _ => false

end Call

/-! ## Runs -/

/-- A run of a production from the tokens `ts`, which ended well or with an error. -/
structure Run (ts : List Token) (α : Type) where
  result : Except ParseError α
  /-- The tokens that were not read. -/
  left : List Token
  /-- The calls, in the order in which they were made. -/
  calls : List Call
  /-- How many nested calls were open at the same time. -/
  nesting : Nat
  left_suffix : left <:+ ts

namespace Run

variable {α β : Type} {ts us : List Token}

/-- A result for which nothing is read. -/
def still (x : Except ParseError α) : Run ts α where
  result := x
  left := ts
  calls := []
  nesting := 0
  left_suffix := List.suffix_rfl

/-- The run passes the token `t` and goes on with the next one. -/
def taking (t : Token) (r : Run ts α) : Run (t :: ts) α where
  result := r.result
  left := r.left
  calls := r.calls
  nesting := r.nesting
  left_suffix := r.left_suffix.trans (List.suffix_cons t ts)

/-- The run is that of a production, which `caller` calls. -/
def call (caller : Start) (routine : Routine) (r : Run ts α) : Run ts α :=
  let c : Call := ⟨caller, ⟨routine, ts⟩⟩
  { r with
    calls := c :: r.calls
    nesting := if c.isNested then r.nesting + 1 else r.nesting }

/-- The second run goes on where the first one ended well. -/
def andThen (r : Run ts α) (next : α → (us : List Token) → us <:+ ts → Run us β) : Run ts β :=
  match r.result with
  | .error e => { r with result := .error e }
  | .ok a =>
      let more := next a r.left r.left_suffix
      { result := more.result
        left := more.left
        calls := r.calls ++ more.calls
        nesting := max r.nesting more.nesting
        left_suffix := more.left_suffix.trans r.left_suffix }

/-- The same run with its result changed by `f`. -/
def map (f : α → β) (r : Run ts α) : Run ts β :=
  { r with result := f <$> r.result }

/-- What the run gives as a production does: its result and the number of tokens it read. -/
def reading (r : Run ts α) : Except ParseError (α × Nat) :=
  (·, ts.length - r.left.length) <$> r.result

/-- The reading of a run that goes on behind `m` tokens read before. -/
def readingAfter (m : Nat) (r : Run ts α) : Except ParseError (α × Nat) :=
  (fun p => (p.1, m + p.2)) <$> r.reading

end Run

open Run

/-! ## Runs of expressions -/

/-- The first token, if it is of the given kind. -/
def expect (fin : Ending) (kind : Token.Kind) (expected : Expected) (ts : List Token) :
    Run ts Token :=
  match ts with
  | [] => still (.error (fin.unexpected expected []))
  | t :: rest =>
      if t.kind = kind then
        taking t (still (.ok t))
      else
        still (.error (fin.unexpected expected (t :: rest)))

/-- What follows a sign. -/
def signedOperand (fin : Ending) (negative : Bool) (ts : List Token) : Run ts Tree :=
  match ts with
  | [] => still (.error (fin.unexpected .numOrVar []))
  | t :: rest =>
      match t.kind with
      -- the token has been read by the time its value is looked at
      | .num => taking t (still (do return .num (← Parse.number fin negative t rest)))
      | .var => taking t (still (.ok (if negative then .neg (.var t.text) else .var t.text)))
      | _ => still (.error (fin.unexpected .numOrVar (t :: rest)))

mutual

/-- An expression. -/
def expr (fin : Ending) (ts : List Token) : Run ts Tree :=
  (call ⟨.expr, ts⟩ .term (term fin ts)).andThen fun left us _ =>
    call ⟨.expr, ts⟩ .exprTail (exprTail fin left us)
termination_by 3 * ts.length + 2
decreasing_by
  · omega
  · have hlen := List.IsSuffix.length_le ‹us <:+ ts›
    omega

/-- The rest of an expression that starts with `left`. -/
def exprTail (fin : Ending) (left : Tree) (ts : List Token) : Run ts Tree :=
  match ts with
  | [] => still (.ok left)
  | t :: rest =>
      match t.kind.additive? with
      | none => still (.ok left)
      | some op =>
          taking t ((call ⟨.exprTail, t :: rest⟩ .term (term fin rest)).andThen fun right us _ =>
            call ⟨.exprTail, t :: rest⟩ .exprTail (exprTail fin (.arith op left right) us))
termination_by 3 * ts.length
decreasing_by
  · simp only [List.length_cons]
    omega
  · have hlen := List.IsSuffix.length_le ‹us <:+ rest›
    simp only [List.length_cons]
    omega

/-- A term. -/
def term (fin : Ending) (ts : List Token) : Run ts Tree :=
  (call ⟨.term, ts⟩ .factor (factor fin ts)).andThen fun left us _ =>
    call ⟨.term, ts⟩ .termTail (termTail fin left us)
termination_by 3 * ts.length + 1
decreasing_by
  · omega
  · have hlen := List.IsSuffix.length_le ‹us <:+ ts›
    omega

/-- The rest of a term that starts with `left`. -/
def termTail (fin : Ending) (left : Tree) (ts : List Token) : Run ts Tree :=
  match ts with
  | [] => still (.ok left)
  | t :: rest =>
      match t.kind.multiplicative? with
      | none => still (.ok left)
      | some op =>
          taking t ((call ⟨.termTail, t :: rest⟩ .factor (factor fin rest)).andThen
            fun right us _ =>
              call ⟨.termTail, t :: rest⟩ .termTail (termTail fin (.arith op left right) us))
termination_by 3 * ts.length
decreasing_by
  · simp only [List.length_cons]
    omega
  · have hlen := List.IsSuffix.length_le ‹us <:+ rest›
    simp only [List.length_cons]
    omega

/-- A factor. -/
def factor (fin : Ending) (ts : List Token) : Run ts Tree :=
  match ts with
  | [] => still (.error (fin.unexpected .numberOrParen []))
  | t :: rest =>
      match t.kind with
      | .plus =>
          taking t (call ⟨.factor, t :: rest⟩ .signedOperand (signedOperand fin false rest))
      | .minus =>
          taking t (call ⟨.factor, t :: rest⟩ .signedOperand (signedOperand fin true rest))
      | .num => taking t (still (do return .num (← Parse.number fin false t rest)))
      | .var => taking t (still (.ok (.var t.text)))
      | .lparen =>
          taking t ((call ⟨.factor, t :: rest⟩ .expr (expr fin rest)).andThen fun inner us _ =>
            (expect fin .rparen .rparen us).andThen fun _ _ _ => still (.ok inner))
      | _ => still (.error (fin.unexpected .numberOrParen (t :: rest)))
termination_by 3 * ts.length
decreasing_by
  simp only [List.length_cons]
  omega

end

/-! ## Runs of statements and lines -/

/-- An item of `PRINT`. -/
def printItem (fin : Ending) (ts : List Token) : Run ts Tree :=
  match ts with
  | [] => call ⟨.printItem, []⟩ .expr (expr fin [])
  | t :: rest =>
      if t.kind = .str then
        taking t (still (.ok (.text t.unquoted)))
      else
        call ⟨.printItem, t :: rest⟩ .expr (expr fin (t :: rest))

/-- The items of `PRINT`, of which there is at least one. -/
def printItems (fin : Ending) (ts : List Token) : Run ts (List Tree) :=
  (call ⟨.printItems, ts⟩ .printItem (printItem fin ts)).andThen fun item us _ =>
    match us with
    | [] => still (.ok [item])
    | t :: rest =>
        if t.kind ≠ .comma then
          still (.error (fin.unexpected .comma (t :: rest)))
        else if rest = [] then
          -- the comma has been read, and there is nothing behind it
          taking t (still (.error (fin.unexpected .expression rest)))
        else
          taking t ((call ⟨.printItems, ts⟩ .printItems (printItems fin rest)).map (item :: ·))
termination_by ts.length
decreasing_by
  have hlen := List.IsSuffix.length_le ‹t :: rest <:+ ts›
  simp only [List.length_cons] at hlen
  omega

/-- The names of `INPUT` after the first. -/
def moreNames (fin : Ending) (ts : List Token) : Run ts (List String) :=
  match ts with
  | [] => still (.ok [])
  | t :: rest =>
      match t.kind with
      | .comma =>
          taking t ((expect fin .var .var rest).andThen fun v us _ =>
            (call ⟨.moreNames, t :: rest⟩ .moreNames (moreNames fin us)).map (v.text :: ·))
      | .var => still (.error (fin.unexpected .comma (t :: rest)))
      | _ => still (.ok [])
termination_by ts.length
decreasing_by
  have hlen := List.IsSuffix.length_le ‹us <:+ rest›
  simp only [List.length_cons]
  omega

/-- The word `THEN`. -/
def expectThen (fin : Ending) (ts : List Token) : Run ts Unit :=
  match ts with
  | [] => still (.error (fin.unexpected .thenKw []))
  | t :: rest =>
      if t.keyword? = some .thenKw then
        taking t (still (.ok ()))
      else
        still (.error (fin.unexpected .thenKw (t :: rest)))

/-- What follows `PRINT`. -/
def printStatement (fin : Ending) (ts : List Token) : Run ts Tree :=
  if ts = [] then
    still (.ok (.print []))
  else
    (call ⟨.printStatement, ts⟩ .printItems (printItems fin ts)).map .print

/-- What follows `GOTO` or `GOSUB`: an expression, of which `wrap` makes the statement. -/
def target (routine : Routine) (expected : Expected) (wrap : Tree → Tree) (fin : Ending)
    (ts : List Token) : Run ts Tree :=
  if ts = [] then
    still (.error (fin.unexpected expected ts))
  else
    (call ⟨routine, ts⟩ .expr (expr fin ts)).map wrap

/-- What follows `INPUT`. -/
def inputStatement (fin : Ending) (ts : List Token) : Run ts Tree :=
  (expect fin .var .var ts).andThen fun v us _ =>
    (call ⟨.inputStatement, ts⟩ .moreNames (moreNames fin us)).map fun names =>
      .input (v.text :: names)

/-- What follows `LET`. -/
def letStatement (fin : Ending) (ts : List Token) : Run ts Tree :=
  (expect fin .var .var ts).andThen fun v us _ =>
    (expect fin .relop .relop us).andThen fun op vs _ =>
      -- the operator has been read, whichever it is
      if op.text ≠ "=" then
        still (.error (fin.reject .equal op vs))
      else
        (call ⟨.letStatement, ts⟩ .expr (expr fin vs)).map (.assign v.text)

/-- What follows `LIST`. -/
def listStatement (fin : Ending) (ts : List Token) : Run ts Tree :=
  match ts with
  | [] => still (.ok .listAll)
  | t :: rest =>
      if t.kind = .num then
        taking t (still (do return .listLine (.num (← Parse.number fin false t rest))))
      else
        still (.error (fin.unexpected .num (t :: rest)))

/-- A statement. -/
def statement (fin : Ending) (ts : List Token) : Run ts Tree :=
  match ts with
  | [] => call ⟨.statement, []⟩ .expr (expr fin [])
  | t :: rest =>
      -- what a statement calls is called by its start, however far it has read
      let here : Start := ⟨.statement, t :: rest⟩
      match t.keyword? with
      | none =>
          if t.kind = .str then
            still (.error (fin.unexpected .expression (t :: rest)))
          else
            call here .expr (expr fin (t :: rest))
      | some .print => taking t (call here .printStatement (printStatement fin rest))
      | some .ifKw =>
          taking t ((call here .expr (expr fin rest)).andThen fun left us _ =>
            (expect fin .relop .relop us).andThen fun op vs _ =>
              (call here .expr (expr fin vs)).andThen fun right ws _ =>
                (expectThen fin ws).andThen fun _ xs _ =>
                  (call here .statement (statement fin xs)).map fun body =>
                    .ifThen (.compare (.ofText op.text) left right) body)
      | some .goto =>
          taking t (call here .gotoStatement (target .gotoStatement .num .goto fin rest))
      | some .input => taking t (call here .inputStatement (inputStatement fin rest))
      | some .letKw => taking t (call here .letStatement (letStatement fin rest))
      | some .gosub =>
          taking t (call here .gosubStatement (target .gosubStatement .expression .gosub fin rest))
      | some .returnKw => taking t (still (.ok .ret))
      | some .clear => taking t (still (.ok .clear))
      | some .list => taking t (call here .listStatement (listStatement fin rest))
      | some .run => taking t (still (.ok .run))
      | some .endKw => taking t (still (.ok .finish))
      | some .thenKw | some .quit => still (.error (fin.unexpected .statement (t :: rest)))
termination_by ts.length
decreasing_by
  have hlen : xs.length ≤ rest.length :=
    ((‹xs <:+ ws›.trans ‹ws <:+ vs›).trans (‹vs <:+ us›.trans ‹us <:+ rest›)).length_le
  simp only [List.length_cons]
  omega

/-- A statement that takes up the rest of the line. -/
def wholeStatement (fin : Ending) (ts : List Token) : Run ts Tree :=
  (call ⟨.wholeStatement, ts⟩ .statement (statement fin ts)).andThen fun tree us _ =>
    still (do
      Parse.endOfLine fin us
      return tree)

/-- A whole line. -/
def line (fin : Ending) (ts : List Token) : Run ts Tree :=
  match ts with
  | [] => call ⟨.line, []⟩ .wholeStatement (wholeStatement fin [])
  | t :: rest =>
      if t.kind = .num then
        taking t ((still (Parse.number fin false t rest)).andThen fun n us _ =>
          (call ⟨.line, t :: rest⟩ .wholeStatement (wholeStatement fin us)).map (.numbered n))
      else
        call ⟨.line, t :: rest⟩ .wholeStatement (wholeStatement fin (t :: rest))

/-- The run over a line of text. -/
def ofText (text : String) : Run (Scan.ofText text).tokens Tree :=
  line (Scan.ofText text).ending (Scan.ofText text).tokens

/-! ## Readings -/

namespace Run

variable {α β : Type} {ts : List Token}

theorem left_eq_drop (r : Run ts α) : r.left = ts.drop (ts.length - r.left.length) :=
  List.suffix_iff_eq_drop.1 r.left_suffix

theorem ok_of_reading {r : Run ts α} {a : α} {n : Nat} (h : r.reading = .ok (a, n)) :
    r.result = .ok a ∧ ts.length - r.left.length = n := by
  cases hr : r.result with
  | error e => simp [reading, hr, Functor.map, Except.map] at h
  | ok b =>
      rw [reading, hr] at h
      cases h
      exact ⟨rfl, rfl⟩

theorem readingAfter_zero (r : Run ts α) : r.readingAfter 0 = r.reading := by
  simp [readingAfter]

theorem readingAfter_still (m : Nat) (x : Except ParseError α) :
    (still x : Run ts α).readingAfter m = x >>= fun a => pure (a, m) := by
  cases x <;> simp [readingAfter, reading, still]

theorem readingAfter_taking (m : Nat) (t : Token) (r : Run ts α) :
    (taking t r).readingAfter m = r.readingAfter (m + 1) := by
  have hlen := r.left_suffix.length_le
  have hsum : m + (ts.length + 1 - r.left.length) = m + 1 + (ts.length - r.left.length) := by
    omega
  cases hr : r.result <;> simp [readingAfter, reading, taking, hr, hsum]

theorem readingAfter_of_reading {r : Run ts α} {y : Except ParseError (α × Nat)}
    (h : r.reading = y) (m : Nat) : r.readingAfter m = y >>= fun p => pure (p.1, m + p.2) := by
  rw [readingAfter, h]
  cases y <;> rfl

theorem reading_call {caller : Start} {routine : Routine} {r : Run ts α}
    {y : Except ParseError (α × Nat)} (h : r.reading = y) : (call caller routine r).reading = y :=
  h

theorem readingAfter_map {r : Run ts α} {y : Except ParseError (α × Nat)} (h : r.reading = y)
    (f : α → β) (m : Nat) : (r.map f).readingAfter m = y >>= fun p => pure (f p.1, m + p.2) := by
  subst h
  cases hr : r.result <;> simp [readingAfter, reading, map, hr]

theorem still_andThen (a : α) (next : α → (us : List Token) → us <:+ ts → Run us β) :
    (still (.ok a)).andThen next = next a ts List.suffix_rfl := by
  simp [still, andThen]

theorem taking_andThen (t : Token) (r : Run ts α)
    (next : α → (us : List Token) → us <:+ t :: ts → Run us β) :
    (taking t r).andThen next =
      taking t (r.andThen fun a us h => next a us (h.trans (List.suffix_cons t ts))) := by
  cases hr : r.result <;> simp [taking, andThen, hr]

/-- A run in two parts reads what the second part reads behind the first. -/
theorem readingAfter_andThen {r : Run ts α} {y : Except ParseError (α × Nat)} (h : r.reading = y)
    {next : α → (us : List Token) → us <:+ ts → Run us β} {m : Nat}
    {k : α × Nat → Except ParseError (β × Nat)}
    (hnext : ∀ a n us hus, us = ts.drop n → (next a us hus).readingAfter (m + n) = k (a, n)) :
    (r.andThen next).readingAfter m = y >>= k := by
  subst h
  cases hr : r.result with
  | error e =>
      simp only [readingAfter, reading, andThen, hr]
      rfl
  | ok a =>
      have hmore := hnext a _ r.left r.left_suffix r.left_eq_drop
      have hfirst := r.left_suffix.length_le
      have hsecond := (next a r.left r.left_suffix).left_suffix.length_le
      have hread : r.reading = .ok (a, ts.length - r.left.length) := by
        simp only [reading, hr]
        rfl
      -- what was read is counted up to where the first part ended, and from there
      have hsum : m + (ts.length - (next a r.left r.left_suffix).left.length) =
          m + (ts.length - r.left.length) +
            (r.left.length - (next a r.left r.left_suffix).left.length) := by
        omega
      rw [hread]
      refine Eq.trans ?_ hmore
      simp only [readingAfter, reading, andThen, hr]
      cases (next a r.left r.left_suffix).result with
      | error e => rfl
      | ok b => simp [hsum]

end Run

end Trace
end TinyBasic
