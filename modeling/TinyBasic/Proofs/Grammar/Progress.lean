import TinyBasic.Proofs.Grammar.Faithful

/-!
# Progress — every call has fewer tokens to read

The productions call each other in circles, and what stops them is that tokens are used up:

* `Call.Descends` — a call gets no token that its caller did not have; a loop has read two tokens
  before it goes round again, and a nested call has read one;
* `Steady r s e d` — the account of the run `r`. Each token that is read pays for seven calls, and
  of that `s` is left over if the run ends well, while a run that fails has spent `e` more at most.

A production that leaves anything over has read a token, so it is the surplus that shows progress.
-/

namespace TinyBasic
namespace Trace

open Run

/-- The callee starts with a part of the caller's tokens, and a circle of calls has made them
fewer. -/
structure Call.Descends (c : Call) : Prop where
  suffix : c.callee.tokens <:+ c.caller.tokens
  round : c.isRound = true → c.callee.tokens.length + 2 ≤ c.caller.tokens.length
  nested : c.isNested = true → c.callee.tokens.length < c.caller.tokens.length

/-- The account of a run, in which a token that is read is worth seven calls. If the run ends well,
then at least `s` is left over; however it ends, the calls are at most `e` more than all its tokens
are worth. Nested calls are no deeper than the tokens and `d` levels more. -/
structure Steady {α : Type} {ts : List Token} (r : Run ts α) (s e : Int) (d : Nat) : Prop where
  surplus : ∀ a, r.result = .ok a → r.calls.length + 7 * r.left.length + s ≤ 7 * (ts.length : Int)
  debt : (r.calls.length : Int) ≤ 7 * ts.length + e
  descends : ∀ c ∈ r.calls, c.Descends
  nesting_le : r.nesting ≤ ts.length + d

namespace Steady

variable {α β : Type} {ts : List Token} {r : Run ts α} {s s' e e' : Int} {d : Nat}

theorem weaken (h : Steady r s e d) (hs : s' ≤ s) (he : e ≤ e') : Steady r s' e' d where
  surplus := by
    intro a ha
    have hsurplus := h.surplus a ha
    omega
  debt := by
    have hdebt := h.debt
    omega
  descends := h.descends
  nesting_le := h.nesting_le

theorem ok (a : α) (hs : s ≤ 0) (he : 0 ≤ e) : Steady (Run.still (.ok a) : Run ts α) s e d where
  surplus := by
    intro _ _
    simp only [Run.still, List.length_nil]
    omega
  debt := by
    simp only [Run.still, List.length_nil]
    omega
  descends := by simp [Run.still]
  nesting_le := Nat.zero_le _

theorem error (x : ParseError) (he : 0 ≤ e) : Steady (Run.still (.error x) : Run ts α) s e d where
  surplus := by simp [Run.still]
  debt := by
    simp only [Run.still, List.length_nil]
    omega
  descends := by simp [Run.still]
  nesting_le := Nat.zero_le _

theorem still (x : Except ParseError α) (hs : s ≤ 0) (he : 0 ≤ e) :
    Steady (Run.still x : Run ts α) s e d := by
  cases x with
  | ok a => exact ok a hs he
  | error x => exact error x he

theorem map (h : Steady r s e d) (f : α → β) : Steady (r.map f) s e d where
  surplus := by
    intro b hb
    cases hr : r.result with
    | error x => simp [Run.map, hr, Functor.map, Except.map] at hb
    | ok a => exact h.surplus a hr
  debt := h.debt
  descends := h.descends
  nesting_le := h.nesting_le

/-- A token that is read pays for seven calls, and for one more level. -/
theorem taking {t : Token} (h : Steady r (s - 7) (e + 7) (d + 1)) :
    Steady (Run.taking t r) s e d where
  surplus := by
    intro a ha
    have hsurplus := h.surplus a ha
    simp only [Run.taking, List.length_cons]
    omega
  debt := by
    have hdebt := h.debt
    simp only [Run.taking, List.length_cons]
    omega
  descends := h.descends
  nesting_le := by
    have hnesting := h.nesting_le
    simp only [Run.taking, List.length_cons]
    omega

/-- What the first part leaves over is for the second. -/
theorem andThen {next : α → (us : List Token) → us <:+ ts → Run us β} (h : Steady r s e d)
    (hnext : ∀ a us hus, 7 * us.length + s ≤ 7 * (ts.length : Int) →
      Steady (next a us hus) (s' - s) (e' + s) d)
    (he : e ≤ e') : Steady (r.andThen next) s' e' d := by
  cases hr : r.result with
  | error x =>
      have hrun : r.andThen next = { r with result := .error x } := by
        simp only [Run.andThen, hr]
      have hdebt := h.debt
      rw [hrun]
      refine ⟨by simp, ?_, h.descends, h.nesting_le⟩
      dsimp only
      omega
  | ok a =>
      have hsurplus := h.surplus a hr
      have hmore := hnext a r.left r.left_suffix (by omega)
      have hdebt := hmore.debt
      have hlen := r.left_suffix.length_le
      have hnesting := h.nesting_le
      have hdeeper := hmore.nesting_le
      constructor
      · intro b hb
        simp only [Run.andThen, hr] at hb ⊢
        have hrest := hmore.surplus b hb
        rw [List.length_append]
        omega
      · simp only [Run.andThen, hr, List.length_append]
        omega
      · simp only [Run.andThen, hr, List.mem_append]
        rintro c (hc | hc)
        · exact h.descends c hc
        · exact hmore.descends c hc
      · simp only [Run.andThen, hr]
        omega

variable {caller : Start} {routine : Routine}

/-- A call costs one. -/
theorem call_of_descends {d' : Nat} (h : Steady r s e d)
    (hcall : Call.Descends ⟨caller, ⟨routine, ts⟩⟩)
    (hnesting : (Run.call caller routine r).nesting ≤ ts.length + d') :
    Steady (Run.call caller routine r) (s - 1) (e + 1) d' where
  surplus := by
    intro a ha
    have hsurplus := h.surplus a ha
    simp only [Run.call, List.length_cons]
    omega
  debt := by
    have hdebt := h.debt
    simp only [Run.call, List.length_cons]
    omega
  descends := by
    simp only [Run.call, List.forall_mem_cons]
    exact ⟨hcall, h.descends⟩
  nesting_le := hnesting

/-- A call that is no part of a circle need only have tokens of the caller. -/
theorem call (h : Steady r s e d) (hts : ts <:+ caller.tokens)
    (hround : Call.isRound ⟨caller, ⟨routine, ts⟩⟩ = false)
    (hnested : Call.isNested ⟨caller, ⟨routine, ts⟩⟩ = false) :
    Steady (Run.call caller routine r) (s - 1) (e + 1) d := by
  refine h.call_of_descends ⟨hts, ?_, ?_⟩ ?_
  · simp [hround]
  · simp [hnested]
  · simpa [Run.call, hnested] using h.nesting_le

/-- A call that takes a loop round again is two tokens behind its caller. -/
theorem round (h : Steady r s e d) (hts : ts <:+ caller.tokens)
    (hlen : ts.length + 2 ≤ caller.tokens.length)
    (hnested : Call.isNested ⟨caller, ⟨routine, ts⟩⟩ = false) :
    Steady (Run.call caller routine r) (s - 1) (e + 1) d := by
  refine h.call_of_descends ⟨hts, fun _ => hlen, ?_⟩ ?_
  · simp [hnested]
  · simpa [Run.call, hnested] using h.nesting_le

/-- A nested call is behind its caller, and one level deeper. -/
theorem nested (h : Steady r s e d) (hts : ts <:+ caller.tokens)
    (hlen : ts.length < caller.tokens.length)
    (hround : Call.isRound ⟨caller, ⟨routine, ts⟩⟩ = false) :
    Steady (Run.call caller routine r) (s - 1) (e + 1) (d + 1) := by
  refine h.call_of_descends ⟨hts, ?_, fun _ => hlen⟩ ?_
  · simp [hround]
  · have hnesting := h.nesting_le
    simp only [Run.call]
    split <;> omega

end Steady

/-! ## Expressions -/

theorem steady_expect (fin : Ending) (kind : Token.Kind) (expected : Expected) (ts : List Token)
    (d : Nat) : Steady (expect fin kind expected ts) 7 0 d := by
  cases ts with
  | nil => exact .error _ (by omega)
  | cons t rest =>
      rw [expect]
      split
      case isTrue => exact .taking (.ok t (by omega) (by omega))
      case isFalse => exact .error _ (by omega)

theorem steady_signedOperand (fin : Ending) (negative : Bool) (ts : List Token) (d : Nat) :
    Steady (signedOperand fin negative ts) 7 0 d := by
  cases ts with
  | nil => exact .error _ (by omega)
  | cons t rest =>
      rw [signedOperand]
      split
      case h_1 => exact .taking (.still _ (by omega) (by omega))
      case h_2 => exact .taking (.ok _ (by omega) (by omega))
      case h_3 => exact .error _ (by omega)

mutual

theorem steady_expr (fin : Ending) (ts : List Token) (d : Nat) : Steady (expr fin ts) 3 2 d := by
  rw [expr]
  refine .andThen ((steady_term fin ts d).call List.suffix_rfl rfl rfl) ?_ (by omega)
  -- the term has left four over behind its call, of which the call of the loop takes one
  intro left us hus _
  exact ((steady_exprTail fin left us d).call hus rfl rfl).weaken (by omega) (by omega)
termination_by 3 * ts.length + 2
decreasing_by
  all_goals omega

theorem steady_exprTail (fin : Ending) (left : Tree) (ts : List Token) (d : Nat) :
    Steady (exprTail fin left ts) 0 0 d := by
  cases ts with
  | nil =>
      rw [exprTail]
      exact .ok _ (by omega) (by omega)
  | cons t rest =>
      rw [exprTail]
      split
      case h_1 => exact .ok _ (by omega) (by omega)
      case h_2 op _ =>
        have hrest := List.suffix_cons t rest
        refine .taking (.andThen ((steady_term fin rest _).call hrest rfl rfl) ?_ (by omega))
        intro right us hus hlen
        -- the operator is one token, and the surplus of the term shows another
        have htail := steady_exprTail fin (.arith op left right) us (d + 1)
        refine (htail.round (hus.trans hrest) ?_ rfl).weaken (by omega) (by omega)
        simp only [List.length_cons]
        omega
termination_by 3 * ts.length
decreasing_by
  all_goals
    simp only [List.length_cons]
    omega

theorem steady_term (fin : Ending) (ts : List Token) (d : Nat) : Steady (term fin ts) 5 1 d := by
  rw [term]
  refine .andThen ((steady_factor fin ts d).call List.suffix_rfl rfl rfl) ?_ (by omega)
  intro left us hus _
  exact ((steady_termTail fin left us d).call hus rfl rfl).weaken (by omega) (by omega)
termination_by 3 * ts.length + 1
decreasing_by
  all_goals omega

theorem steady_termTail (fin : Ending) (left : Tree) (ts : List Token) (d : Nat) :
    Steady (termTail fin left ts) 0 0 d := by
  cases ts with
  | nil =>
      rw [termTail]
      exact .ok _ (by omega) (by omega)
  | cons t rest =>
      rw [termTail]
      split
      case h_1 => exact .ok _ (by omega) (by omega)
      case h_2 op _ =>
        have hrest := List.suffix_cons t rest
        refine .taking (.andThen ((steady_factor fin rest _).call hrest rfl rfl) ?_ (by omega))
        intro right us hus hlen
        have htail := steady_termTail fin (.arith op left right) us (d + 1)
        refine (htail.round (hus.trans hrest) ?_ rfl).weaken (by omega) (by omega)
        simp only [List.length_cons]
        omega
termination_by 3 * ts.length
decreasing_by
  all_goals
    simp only [List.length_cons]
    omega

theorem steady_factor (fin : Ending) (ts : List Token) (d : Nat) :
    Steady (factor fin ts) 7 0 d := by
  cases ts with
  | nil =>
      rw [factor]
      exact .error _ (by omega)
  | cons t rest =>
      have hrest := List.suffix_cons t rest
      cases hkind : t.kind <;> simp only [factor, hkind]
      case plus =>
        have hoperand := steady_signedOperand fin false rest (d + 1)
        exact .taking ((hoperand.call hrest rfl rfl).weaken (by omega) (by omega))
      case minus =>
        have hoperand := steady_signedOperand fin true rest (d + 1)
        exact .taking ((hoperand.call hrest rfl rfl).weaken (by omega) (by omega))
      case num => exact .taking (.still _ (by omega) (by omega))
      case var => exact .taking (.ok _ (by omega) (by omega))
      case lparen =>
        -- the parenthesis pays for one more level
        refine .taking (.andThen ((steady_expr fin rest d).nested hrest ?_ rfl) ?_ (by omega))
        · exact Nat.lt_succ_self rest.length
        · intro inner us hus _
          refine .andThen (steady_expect fin .rparen .rparen us _) ?_ (by omega)
          intro _ _ _ _
          exact .ok inner (by omega) (by omega)
      all_goals exact .error _ (by omega)
termination_by 3 * ts.length
decreasing_by
  simp only [List.length_cons]
  omega

end

/-! ## Statements -/

theorem steady_printItem (fin : Ending) (ts : List Token) (d : Nat) :
    Steady (printItem fin ts) 2 3 d := by
  cases ts with
  | nil => exact (steady_expr fin [] d).call List.suffix_rfl rfl rfl
  | cons t rest =>
      rw [printItem]
      split
      case isTrue => exact .taking (.ok _ (by omega) (by omega))
      case isFalse => exact (steady_expr fin (t :: rest) d).call List.suffix_rfl rfl rfl

theorem steady_printItems (fin : Ending) (ts : List Token) (d : Nat) :
    Steady (printItems fin ts) 1 4 d := by
  rw [printItems]
  refine .andThen ((steady_printItem fin ts d).call List.suffix_rfl rfl rfl) ?_ (by omega)
  intro item us hus hlen
  cases us with
  | nil => exact .ok _ (by omega) (by omega)
  | cons t rest =>
      dsimp only
      split
      case isTrue => exact .error _ (by omega)
      case isFalse =>
        split
        case isTrue => exact .taking (.error _ (by omega))
        case isFalse =>
          -- likewise the item and the comma behind it
          have hrest := (List.suffix_cons t rest).trans hus
          have hitems := steady_printItems fin rest (d + 1)
          refine .taking (.weaken (.map (hitems.round hrest ?_ rfl) _) (by omega) (by omega))
          simp only [List.length_cons] at hlen ⊢
          omega
termination_by ts.length
decreasing_by
  have hle := hus.length_le
  simp only [List.length_cons] at hle
  omega

theorem steady_moreNames (fin : Ending) (ts : List Token) (d : Nat) :
    Steady (moreNames fin ts) 0 0 d := by
  cases ts with
  | nil =>
      rw [moreNames]
      exact .ok _ (by omega) (by omega)
  | cons t rest =>
      rw [moreNames]
      split
      case h_1 =>
        have hrest := List.suffix_cons t rest
        refine .taking (.andThen (steady_expect fin .var .var rest _) ?_ (by omega))
        intro v us hus hlen
        -- the comma and the name
        have hnames := steady_moreNames fin us (d + 1)
        refine .weaken (.map (hnames.round (hus.trans hrest) ?_ rfl) _) (by omega) (by omega)
        simp only [List.length_cons]
        omega
      case h_2 => exact .error _ (by omega)
      case h_3 => exact .ok _ (by omega) (by omega)
termination_by ts.length
decreasing_by
  simp only [List.length_cons]
  omega

theorem steady_expectThen (fin : Ending) (ts : List Token) (d : Nat) :
    Steady (expectThen fin ts) 7 0 d := by
  cases ts with
  | nil => exact .error _ (by omega)
  | cons t rest =>
      rw [expectThen]
      split
      case isTrue => exact .taking (.ok () (by omega) (by omega))
      case isFalse => exact .error _ (by omega)

theorem steady_printStatement (fin : Ending) (ts : List Token) (d : Nat) :
    Steady (printStatement fin ts) 0 5 d := by
  rw [printStatement]
  split
  case isTrue => exact .ok _ (by omega) (by omega)
  case isFalse => exact ((steady_printItems fin ts d).call List.suffix_rfl rfl rfl).map _

theorem steady_target (routine : Routine) (hroutine : routine ≠ .factor) (expected : Expected)
    (wrap : Tree → Tree) (fin : Ending) (ts : List Token) (d : Nat) :
    Steady (target routine expected wrap fin ts) 2 3 d := by
  rw [target]
  split
  case isTrue => exact .error _ (by omega)
  case isFalse =>
    refine ((steady_expr fin ts d).call List.suffix_rfl ?_ ?_).map _
    · cases routine <;> rfl
    · cases routine
      case factor => exact absurd rfl hroutine
      all_goals rfl

theorem steady_inputStatement (fin : Ending) (ts : List Token) (d : Nat) :
    Steady (inputStatement fin ts) 6 0 d := by
  rw [inputStatement]
  refine .andThen (steady_expect fin .var .var ts d) ?_ (by omega)
  intro v us hus _
  have hnames := steady_moreNames fin us d
  exact .weaken (.map (hnames.call hus rfl rfl) _) (by omega) (by omega)

theorem steady_letStatement (fin : Ending) (ts : List Token) (d : Nat) :
    Steady (letStatement fin ts) 16 0 d := by
  rw [letStatement]
  refine .andThen (steady_expect fin .var .var ts d) ?_ (by omega)
  intro v us hus _
  refine .andThen (steady_expect fin .relop .relop us d) ?_ (by omega)
  intro op vs hvs _
  split
  case isTrue => exact .error _ (by omega)
  case isFalse =>
    have hvalue := steady_expr fin vs d
    exact .weaken (.map (hvalue.call (hvs.trans hus) rfl rfl) _) (by omega) (by omega)

theorem steady_listStatement (fin : Ending) (ts : List Token) (d : Nat) :
    Steady (listStatement fin ts) 0 0 d := by
  cases ts with
  | nil => exact .ok _ (by omega) (by omega)
  | cons t rest =>
      rw [listStatement]
      split
      case isTrue => exact .taking (.still _ (by omega) (by omega))
      case isFalse => exact .error _ (by omega)

theorem steady_statement (fin : Ending) (ts : List Token) (d : Nat) :
    Steady (statement fin ts) 2 3 d := by
  cases ts with
  | nil =>
      rw [statement]
      exact (steady_expr fin [] d).call List.suffix_rfl rfl rfl
  | cons t rest =>
      have hrest := List.suffix_cons t rest
      cases hk : t.keyword? with
      | none =>
          simp only [statement, hk]
          split
          case isTrue => exact .error _ (by omega)
          case isFalse => exact (steady_expr fin (t :: rest) d).call List.suffix_rfl rfl rfl
      | some k =>
          cases k <;> simp only [statement, hk]
          case ifKw =>
            refine .taking (.andThen ((steady_expr fin rest _).call hrest rfl rfl) ?_ (by omega))
            intro left us hus _
            refine .andThen (steady_expect fin .relop .relop us _) ?_ (by omega)
            intro op vs hvs _
            have hvs' := hvs.trans hus
            refine .andThen ((steady_expr fin vs _).call (hvs'.trans hrest) rfl rfl) ?_ (by omega)
            intro right ws hws _
            refine .andThen (steady_expectThen fin ws _) ?_ (by omega)
            intro _ xs hxs _
            have hxs' := hxs.trans (hws.trans hvs')
            have hlen := hxs'.length_le
            -- the word `IF` pays for one more level
            have hbody := steady_statement fin xs d
            refine .weaken (.map (hbody.nested (hxs'.trans hrest) ?_ rfl) _) (by omega) (by omega)
            exact Nat.lt_succ_of_le hlen
          case print =>
            have hprint := steady_printStatement fin rest (d + 1)
            exact .taking (.weaken (hprint.call hrest rfl rfl) (by omega) (by omega))
          case goto =>
            have hgoto := steady_target .gotoStatement (by decide) .num .goto fin rest (d + 1)
            exact .taking (.weaken (hgoto.call hrest rfl rfl) (by omega) (by omega))
          case gosub =>
            have hgosub := steady_target .gosubStatement (by decide) .expression .gosub fin rest
              (d + 1)
            exact .taking (.weaken (hgosub.call hrest rfl rfl) (by omega) (by omega))
          case input =>
            have hinput := steady_inputStatement fin rest (d + 1)
            exact .taking (.weaken (hinput.call hrest rfl rfl) (by omega) (by omega))
          case letKw =>
            have hlet := steady_letStatement fin rest (d + 1)
            exact .taking (.weaken (hlet.call hrest rfl rfl) (by omega) (by omega))
          case list =>
            have hlist := steady_listStatement fin rest (d + 1)
            exact .taking (.weaken (hlist.call hrest rfl rfl) (by omega) (by omega))
          case thenKw | quit => exact .error _ (by omega)
          all_goals exact .taking (.ok _ (by omega) (by omega))
termination_by ts.length
decreasing_by
  simp only [List.length_cons]
  omega

/-! ## Lines -/

theorem steady_wholeStatement (fin : Ending) (ts : List Token) (d : Nat) :
    Steady (wholeStatement fin ts) 1 4 d := by
  rw [wholeStatement]
  refine .andThen ((steady_statement fin ts d).call List.suffix_rfl rfl rfl) ?_ (by omega)
  intro tree us _ _
  exact .still _ (by omega) (by omega)

theorem steady_line (fin : Ending) (ts : List Token) (d : Nat) : Steady (line fin ts) 0 5 d := by
  cases ts with
  | nil => exact (steady_wholeStatement fin [] d).call List.suffix_rfl rfl rfl
  | cons t rest =>
      rw [line]
      split
      case isTrue =>
        refine .taking (.andThen (.still _ (Int.le_refl 0) (Int.le_refl 0)) ?_ (by omega))
        intro n us hus _
        have hwhole := steady_wholeStatement fin us (d + 1)
        have hus' := hus.trans (List.suffix_cons t rest)
        exact .weaken (.map (hwhole.call hus' rfl rfl) _) (by omega) (by omega)
      case isFalse => exact (steady_wholeStatement fin (t :: rest) d).call List.suffix_rfl rfl rfl

/-! ## Progress -/

/-- The account of every run from these tokens: all its calls descend, they are nested no deeper
than there are tokens, and their number is linear in that of the tokens. -/
structure Run.Descends {α : Type} {ts : List Token} (r : Run ts α) : Prop where
  calls : ∀ c ∈ r.calls, c.Descends
  nesting_le : r.nesting ≤ ts.length
  steps_le : r.calls.length ≤ 7 * ts.length + 5

theorem Steady.run {α : Type} {ts : List Token} {r : Run ts α} {s e : Int} (h : Steady r s e 0)
    (he : e ≤ 5) : r.Descends where
  calls := h.descends
  nesting_le := h.nesting_le
  steps_le := by
    have hdebt := h.debt
    omega

/-- A run that leaves something over has read a token, if it ended well. -/
theorem Steady.proper {α : Type} {ts : List Token} {r : Run ts α} {s e : Int} {d : Nat}
    (h : Steady r s e d) (hs : 0 < s) {a : α} {n : Nat} (hread : r.reading = .ok (a, n)) :
    r.left = ts.drop n ∧ 0 < n ∧ n ≤ ts.length := by
  rcases ok_of_reading hread with ⟨hok, rfl⟩
  have hsurplus := h.surplus a hok
  exact ⟨r.left_eq_drop, by omega, Nat.sub_le _ _⟩

/-- The productions that call each other, each with its run. -/
inductive Traces : (Ending → List Token → Except ParseError (Tree × Nat)) →
    (Ending → (ts : List Token) → Run ts Tree) → Prop where
  | expr : Traces Parse.expr expr
  | term : Traces Parse.term term
  | factor : Traces Parse.factor factor
  | signedOperand (negative : Bool) :
      Traces (fun fin => Parse.signedOperand fin negative) (fun fin => signedOperand fin negative)
  | statement : Traces Parse.statement statement

variable {p : Ending → List Token → Except ParseError (Tree × Nat)}
  {q : Ending → (ts : List Token) → Run ts Tree}

theorem Traces.reading_eq (h : Traces p q) (fin : Ending) (ts : List Token) :
    (q fin ts).reading = p fin ts := by
  cases h with
  | expr => exact reading_expr fin ts
  | term => exact reading_term fin ts
  | factor => exact reading_factor fin ts
  | signedOperand negative => exact reading_signedOperand fin negative ts
  | statement => exact reading_statement fin ts

theorem Traces.steady (h : Traces p q) (fin : Ending) (ts : List Token) :
    Steady (q fin ts) 1 3 0 := by
  cases h with
  | expr => exact (steady_expr fin ts 0).weaken (by omega) (by omega)
  | term => exact (steady_term fin ts 0).weaken (by omega) (by omega)
  | factor => exact (steady_factor fin ts 0).weaken (by omega) (by omega)
  | signedOperand negative =>
      exact (steady_signedOperand fin negative ts 0).weaken (by omega) (by omega)
  | statement => exact (steady_statement fin ts 0).weaken (by omega) (by omega)

/-- Reading makes progress. A production that ends well has read at least one token and leaves the
tokens behind those it read; on the way to any end its calls descend, and over a whole text their
nesting and their number are bounded by the tokens. -/
theorem descent_makes_progress :
    (∀ p q, Traces p q → ∀ fin ts,
      (q fin ts).reading = p fin ts ∧ (q fin ts).Descends ∧
      ∀ a n, p fin ts = .ok (a, n) → (q fin ts).left = ts.drop n ∧ 0 < n ∧ n ≤ ts.length) ∧
    ∀ text, (ofText text).result = Tree.ofText text ∧ (ofText text).Descends := by
  constructor
  · intro p q h fin ts
    have hread := h.reading_eq fin ts
    refine ⟨hread, (h.steady fin ts).run (by omega), ?_⟩
    intro a n hok
    exact (h.steady fin ts).proper (by omega) (hread.trans hok)
  · intro text
    exact ⟨result_line _ _, (steady_line _ _ 0).run (by omega)⟩

/-- The tokens of `IF (A)<2 THEN INPUT B,C RUN`. -/
def conditional : List Token :=
  [⟨.keyword, "IF", ⟨0, 2⟩⟩, ⟨.lparen, "(", ⟨3, 4⟩⟩, ⟨.var, "A", ⟨4, 5⟩⟩, ⟨.rparen, ")", ⟨5, 6⟩⟩,
    ⟨.relop, "<", ⟨6, 7⟩⟩, ⟨.num, "2", ⟨7, 8⟩⟩, ⟨.keyword, "THEN", ⟨9, 13⟩⟩,
    ⟨.keyword, "INPUT", ⟨14, 19⟩⟩, ⟨.var, "B", ⟨20, 21⟩⟩, ⟨.comma, ",", ⟨21, 22⟩⟩,
    ⟨.var, "C", ⟨22, 23⟩⟩, ⟨.keyword, "RUN", ⟨24, 27⟩⟩]

/-- The conditional holds another statement and a parenthesis, and the loop of that statement goes
round once. -/
theorem descent_makes_progress_conditional :
    let r := statement (.complete 27) conditional
    Parse.statement (.complete 27) conditional =
        .ok (.ifThen (.compare .lessThan (.var "A") (.num 2)) (.input ["B", "C"]), 11) ∧
      r.calls.countP Call.isNested = 2 ∧ r.calls.countP Call.isRound = 1 ∧ r.Descends ∧
      r.left = conditional.drop 11 ∧ 0 < 11 ∧ 11 ≤ conditional.length := by
  have hread : Parse.statement (.complete 27) conditional =
      .ok (.ifThen (.compare .lessThan (.var "A") (.num 2)) (.input ["B", "C"]), 11) := by
    cbv
  obtain ⟨-, hdescends, hproper⟩ :=
    descent_makes_progress.1 _ _ .statement (.complete 27) conditional
  exact ⟨hread, by cbv, by cbv, hdescends, hproper _ _ hread⟩

end Trace
end TinyBasic
