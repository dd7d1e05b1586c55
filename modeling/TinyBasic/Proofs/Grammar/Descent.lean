import TinyBasic.Parse.Descent
import TinyBasic.Proofs.Grammar.Faithful
import TinyBasic.Proofs.Grammar.Reading
import TinyBasic.Proofs.Token.Stream

/-!
# Descent — what is read while it is scanned

A reader with a cursor and the productions over a finished scan come to the same. The two are kept
in step along a `Run`, which knows the tokens that are left:

* `At m ts fin p` — from the position `p` the tokens `ts` are still to come, and then `fin`. Where the
  scan failed behind the last token, the position is that error already;
* `Follows m fin ts x r` — from each such position the computation `x` ends as the run `r` does, with
  an error or at a position in front of the tokens that the run left.

No failed pull gets lost on the way: behind one, every computation fails with its error. And no
reading is given up: a production that calls itself has passed a token, so that a limit of as many
calls as there are tokens to come is not used up.
-/

namespace TinyBasic
namespace Descent

open Cursor Lexicon
open Trace (Run)
open Trace.Run

/-! ## Positions -/

section Follow

variable {α β : Type}

/-- A computation that goes on from where the one before it ended. -/
def follow (p : Except ParseError Cursor) (x : CursorM α) :
    Option (Except ParseError (α × Cursor)) :=
  match p with
  | .error e => some (.error e)
  | .ok c => (fun r => (·, r.2) <$> r.1) <$> x c

theorem follow_ok (c : Cursor) (x : CursorM α) :
    follow (.ok c) x = (fun r => (·, r.2) <$> r.1) <$> x c := rfl

theorem bind_apply_ok {x : CursorM α} {c d : Cursor} {a : α} (h : x c = some (.ok a, d))
    (f : α → CursorM β) : (x >>= f) c = f a d := by
  change (x c >>= fun r => ExceptT.bindCont f r.1 r.2) = f a d
  rw [h]
  rfl

theorem bind_apply_error {x : CursorM α} {c d : Cursor} {e : ParseError}
    (h : x c = some (.error e, d)) (f : α → CursorM β) : (x >>= f) c = some (.error e, d) := by
  change (x c >>= fun r => ExceptT.bindCont f r.1 r.2) = some (.error e, d)
  rw [h]
  rfl

/-- Behind a computation that ended well, the next one starts where it ended. -/
theorem follow_bind_ok {p q : Except ParseError Cursor} {x : CursorM α} {a : α}
    (h : follow p x = some ((a, ·) <$> q)) (f : α → CursorM β) :
    follow p (x >>= f) = follow q (f a) := by
  cases p with
  | error e =>
      cases q with
      | error e' =>
          cases h
          rfl
      | ok d => cases h
  | ok c =>
      cases hx : x c with
      | none =>
          rw [follow_ok, hx] at h
          cases h
      | some r =>
          rcases r with ⟨_ | b, d⟩ <;> rw [follow_ok, hx] at h <;> cases q <;> cases h
          · rw [follow_ok, bind_apply_error hx]
            rfl
          · rw [follow_ok, bind_apply_ok hx]
            rfl

/-- No computation goes on behind an error. -/
theorem follow_bind_error {p : Except ParseError Cursor} {x : CursorM α} {e : ParseError}
    (h : follow p x = some (.error e)) (f : α → CursorM β) :
    follow p (x >>= f) = some (.error e) := by
  cases p with
  | error e' =>
      cases h
      rfl
  | ok c =>
      cases hx : x c with
      | none =>
          rw [follow_ok, hx] at h
          cases h
      | some r =>
          rcases r with ⟨_ | b, d⟩ <;> rw [follow_ok, hx] at h <;> cases h
          rw [follow_ok, bind_apply_error hx]
          rfl

end Follow

/-- The tokens `ts` are still to come from the position, and then `fin`. -/
inductive At (m : Matcher) : List Token → Ending → Except ParseError Cursor → Prop where
  | token {c : Cursor} {t : Token} {ts : List Token} {fin : Ending} :
      c.lookahead = some t → Streams m ts fin c.tokens → At m (t :: ts) fin (.ok c)
  | finish {c : Cursor} :
      c.lookahead = none → At m [] (.complete (byteLength c.tokens.raw.line)) (.ok c)
  | failed {e : ScanError} : At m [] (.failed e) (.error (.scan e))

/-- A line that is scanned to its end gives no error. -/
theorem not_at_error {m : Matcher} {ts : List Token} {n : Nat} {e : ParseError} :
    ¬ At m ts (.complete n) (.error e) := by
  intro h
  cases h

theorem at_ofText {m : Matcher} (hm : m.Lawful) (text : String) :
    At m (Scan.ofText text).tokens (Scan.ofText text).ending (Cursor.ofText m text) := by
  have hstreams := streams_ofText hm text
  rw [Cursor.ofText]
  generalize (Scan.ofText text).tokens = ts, (Scan.ofText text).ending = fin at hstreams ⊢
  cases hstreams with
  | @complete _ more hnext =>
      rw [hnext]
      exact .finish (c := ⟨more, none⟩) rfl
  | failed hnext =>
      rw [hnext]
      exact .failed
  | token hnext hrest =>
      rw [hnext]
      exact .token rfl hrest

/-! ## Computations in step with runs -/

section Map

variable {α β γ : Type} {ts : List Token}

theorem map_taking (t : Token) (r : Run ts α) (g : α → β) :
    (taking t r).map g = taking t (r.map g) := rfl

theorem map_map (r : Run ts α) (f : α → β) (g : β → γ) :
    (r.map f).map g = r.map fun a => g (f a) := by
  cases hr : r.result <;> simp [Run.map, hr]

theorem map_andThen (r : Run ts α) (next : α → (us : List Token) → us <:+ ts → Run us β)
    (g : β → γ) : (r.andThen next).map g = r.andThen fun a us hus => (next a us hus).map g := by
  cases hr : r.result <;> simp [andThen, Run.map, hr]

end Map

/-- From each position with the tokens `ts` to come, the computation ends as the run does. -/
def Follows {α : Type} (m : Matcher) (fin : Ending) (ts : List Token) (x : CursorM α)
    (r : Run ts α) : Prop :=
  ∀ p, At m ts fin p →
    match r.result with
    | .error e => follow p x = some (.error e)
    | .ok a => ∃ q, follow p x = some ((a, ·) <$> q) ∧ At m r.left fin q

namespace Follows

variable {α β : Type} {m : Matcher} {fin : Ending} {ts : List Token}

theorem pure (a : α) : Follows m fin ts (Pure.pure a) (still (.ok a)) := by
  intro p hp
  refine ⟨p, ?_, hp⟩
  cases p <;> rfl

theorem fail (expected : Expected) :
    Follows m fin ts (Cursor.fail expected : CursorM α)
      (still (.error (fin.unexpected expected ts))) := by
  intro p hp
  cases hp with
  | @token c t ts fin hview _ =>
      change some (Except.error (c.unexpected expected)) = _
      rw [unexpected, hview]
      rfl
  | @finish c hview =>
      change some (Except.error (c.unexpected expected)) = _
      rw [unexpected, hview]
      rfl
  | failed => rfl

/-- A token that has been passed is found wrong, unless the scan failed behind it. -/
theorem reject (expected : Expected) (t : Token) :
    Follows m fin ts (throw (.atToken expected t) : CursorM α)
      (still (.error (fin.reject expected t ts))) := by
  intro p hp
  cases hp <;> rfl

theorem bind {x : CursorM α} {r : Run ts α} {f : α → CursorM β}
    {next : α → (us : List Token) → us <:+ ts → Run us β} (hx : Follows m fin ts x r)
    (hf : ∀ a us hus, Follows m fin us (f a) (next a us hus)) :
    Follows m fin ts (x >>= f) (r.andThen next) := by
  intro p hp
  have hfirst := hx p hp
  cases hr : r.result with
  | error e =>
      simp only [hr] at hfirst
      simp only [andThen, hr]
      exact follow_bind_error hfirst f
  | ok a =>
      simp only [hr] at hfirst
      rcases hfirst with ⟨q, hfollow, hq⟩
      simp only [andThen, hr]
      rw [follow_bind_ok hfollow]
      exact hf a r.left r.left_suffix q hq

theorem map {x : CursorM α} {r : Run ts α} (hx : Follows m fin ts x r) (g : α → β) :
    Follows m fin ts (x >>= fun a => Pure.pure (g a)) (r.map g) := by
  intro p hp
  have hfirst := hx p hp
  cases hr : r.result with
  | error e =>
      simp only [hr] at hfirst
      simp only [Run.map, hr]
      exact follow_bind_error hfirst _
  | ok a =>
      simp only [hr] at hfirst
      rcases hfirst with ⟨q, hfollow, hq⟩
      simp only [Run.map, hr]
      rw [follow_bind_ok hfollow]
      exact Follows.pure (g a) q hq

/-- Nothing that comes behind a failure changes it. -/
theorem error_bind {x : CursorM α} {e : ParseError} (hx : Follows m fin ts x (still (.error e)))
    (f : α → CursorM β) : Follows m fin ts (x >>= f) (still (.error e)) := by
  intro p hp
  exact follow_bind_error (hx p hp) f

theorem call {x : CursorM α} {r : Run ts α} {caller : Trace.Start} {routine : Trace.Routine}
    (h : Follows m fin ts x r) : Follows m fin ts x (r.call caller routine) :=
  h

/-- A computation that looks at the token in view and moves nothing. -/
theorem look {x : CursorM α} {g : Option Token → α} {f : α → CursorM β} {r : Run ts β}
    (hx : ∀ c, x c = some (.ok (g c.lookahead), c))
    (hf : Follows m fin ts (f (g ts.head?)) r) : Follows m fin ts (x >>= f) r := by
  intro p hp
  have hmore := hf p hp
  have hfollow : follow p x = some ((g ts.head?, ·) <$> p) := by
    cases hp with
    | @token c t ts fin hview _ =>
        rw [follow, hx, hview]
        rfl
    | @finish c hview =>
        rw [follow, hx, hview]
        rfl
    | failed => rfl
  rwa [follow_bind_ok hfollow]

/-- Passing a token pulls the next one. If that fails, then there is nothing to go on with. -/
theorem advance {t : Token} {f : Option Token → CursorM β} {r : Run ts β}
    (hf : Follows m fin ts (f (some t)) r) :
    Follows m fin (t :: ts) (Cursor.advance m >>= f) (taking t r) := by
  intro p hp
  have hpass : ∃ q, follow p (Cursor.advance m) = some ((some t, ·) <$> q) ∧ At m ts fin q := by
    cases hp with
    | @token c t ts fin hview hstreams =>
        cases hstreams with
        | @complete _ more hnext =>
            refine ⟨.ok ⟨more, none⟩, ?_, .finish (c := ⟨more, none⟩) rfl⟩
            rw [follow, Cursor.advance, hview]
            simp only [hnext]
            rfl
        | @failed _ more e hnext =>
            refine ⟨.error (.scan e), ?_, .failed⟩
            rw [follow, Cursor.advance, hview]
            simp only [hnext]
            rfl
        | @token _ more u ts fin hnext hrest =>
            refine ⟨.ok ⟨more, some u⟩, ?_, .token rfl hrest⟩
            rw [follow, Cursor.advance, hview]
            simp only [hnext]
            rfl
  rcases hpass with ⟨q, hfollow, hq⟩
  rw [follow_bind_ok hfollow]
  exact hf q hq

/-! Each of the following says how a computation goes on behind a step of the cursor. -/

theorem isAtEnd {f : Bool → CursorM β} {r : Run ts β} (hf : Follows m fin ts (f ts.isEmpty) r) :
    Follows m fin ts (Cursor.isAtEnd >>= f) r := by
  refine look (g := Option.isNone) (fun c => rfl) ?_
  cases ts <;> exact hf

theorem check {kind : Token.Kind} {f : Bool → CursorM β} {r : Run ts β}
    (hf : Follows m fin ts (f (ts.head?.map Token.kind == some kind)) r) :
    Follows m fin ts (Cursor.check kind >>= f) r :=
  look (g := fun t? => t?.map Token.kind == some kind) (fun _ => rfl) hf

theorem eat_some {kind : Token.Kind} {t : Token} {f : Option Token → CursorM β} {r : Run ts β}
    (hkind : t.kind = kind) (hf : Follows m fin ts (f (some t)) r) :
    Follows m fin (t :: ts) (eat m kind >>= f) (taking t r) := by
  rw [eat, bind_assoc]
  refine check ?_
  have hview : ((t :: ts).head?.map Token.kind == some kind) = true := by simp [hkind]
  rw [hview]
  exact advance hf

theorem eat_other {kind : Token.Kind} {t : Token} {f : Option Token → CursorM β}
    {r : Run (t :: ts) β} (hkind : t.kind ≠ kind) (hf : Follows m fin (t :: ts) (f none) r) :
    Follows m fin (t :: ts) (eat m kind >>= f) r := by
  rw [eat, bind_assoc]
  refine check ?_
  have hview : ((t :: ts).head?.map Token.kind == some kind) = false := by simp [hkind]
  rw [hview]
  exact hf

theorem eat_end {kind : Token.Kind} {f : Option Token → CursorM β} {r : Run [] β}
    (hf : Follows m fin [] (f none) r) : Follows m fin [] (eat m kind >>= f) r := by
  rw [eat, bind_assoc]
  exact check hf

section Expect

variable {kind : Token.Kind} {expected : Expected} {f : Token → CursorM β}

theorem expect_some {t : Token} {r : Run ts β} (hkind : t.kind = kind)
    (hf : Follows m fin ts (f t) r) :
    Follows m fin (t :: ts) (Cursor.expect m kind expected >>= f) (taking t r) := by
  rw [Cursor.expect, bind_assoc]
  refine eat_some hkind ?_
  rwa [pure_bind]

theorem expect_other {t : Token} (hkind : t.kind ≠ kind) :
    Follows m fin (t :: ts) (Cursor.expect m kind expected >>= f)
      (still (.error (fin.unexpected expected (t :: ts)))) := by
  rw [Cursor.expect, bind_assoc]
  exact eat_other hkind (error_bind (fail expected) f)

theorem expect_end :
    Follows m fin [] (Cursor.expect m kind expected >>= f)
      (still (.error (fin.unexpected expected []))) := by
  rw [Cursor.expect, bind_assoc]
  exact eat_end (error_bind (fail expected) f)

/-- A token that must be there is passed, or it is found wrong. -/
theorem expect {next : Token → (us : List Token) → us <:+ ts → Run us β}
    (hf : ∀ t us hus, Follows m fin us (f t) (next t us hus)) :
    Follows m fin ts (Cursor.expect m kind expected >>= f)
      ((Trace.expect fin kind expected ts).andThen next) := by
  cases ts with
  | nil => exact expect_end
  | cons t ts =>
      rw [Trace.expect]
      split
      case isTrue hkind =>
        rw [taking_andThen, still_andThen]
        exact expect_some hkind (hf t ts _)
      case isFalse hkind => exact expect_other hkind

end Expect

section Keywords

variable {k : Keyword} {f : Bool → CursorM β}

theorem peekKeyword {f : Option Keyword → CursorM β} {r : Run ts β}
    (hf : Follows m fin ts (f (ts.head?.bind Token.keyword?)) r) :
    Follows m fin ts (Cursor.peekKeyword >>= f) r :=
  look (g := fun t? => t?.bind Token.keyword?) (fun _ => rfl) hf

theorem eatKeyword_some {t : Token} {r : Run ts β} (hk : t.keyword? = some k)
    (hf : Follows m fin ts (f true) r) :
    Follows m fin (t :: ts) (eatKeyword m k >>= f) (taking t r) := by
  rw [eatKeyword, bind_assoc]
  refine peekKeyword ?_
  rw [List.head?_cons, Option.bind_some, if_pos hk, bind_assoc]
  refine advance ?_
  rwa [pure_bind]

theorem eatKeyword_other {r : Run ts β} (hk : ts.head?.bind Token.keyword? ≠ some k)
    (hf : Follows m fin ts (f false) r) : Follows m fin ts (eatKeyword m k >>= f) r := by
  rw [eatKeyword, bind_assoc]
  refine peekKeyword ?_
  rwa [if_neg hk, pure_bind]

end Keywords

theorem number (negative : Bool) (t : Token) :
    Follows m fin ts (Descent.number negative t) (still (Parse.number fin negative t ts)) := by
  rw [Descent.number, Parse.number]
  cases t.value? negative with
  | some n => exact pure n
  | none => exact reject .num t

/-- A number is a tree of its own once it has its value. -/
theorem still_map {x : CursorM α} {y : Except ParseError α}
    (h : Follows m fin ts x (still y)) (g : α → β) :
    Follows m fin ts (x >>= fun a => Pure.pure (g a)) (still (y >>= fun a => Pure.pure (g a))) := by
  have hmap := h.map g
  cases y <;> exact hmap

end Follows

/-! ## Expressions -/

section Expressions

variable {m : Matcher} {fin : Ending}

theorem follows_signedOperand (negative : Bool) (ts : List Token) :
    Follows m fin ts (signedOperand m negative) (Trace.signedOperand fin negative ts) := by
  rw [signedOperand]
  cases ts with
  | nil => exact .eat_end (.eat_end (.fail .numOrVar))
  | cons t rest =>
      cases hkind : t.kind <;> simp only [Trace.signedOperand, hkind]
      case num => exact .eat_some hkind ((Follows.number negative t).still_map Tree.num)
      case var => exact .eat_other (by simp [hkind]) (.eat_some hkind (.pure _))
      all_goals
        exact .eat_other (by simp [hkind]) (.eat_other (by simp [hkind]) (.fail .numOrVar))

/-- The two operators are those that `find` knows by their kinds. -/
def Finds (find : Token.Kind → Option ArithOp) (first second : Token.Kind × ArithOp) : Prop :=
  ∀ kind, find kind =
    if kind = first.1 then some first.2 else if kind = second.1 then some second.2 else none

theorem finds_additive : Finds Token.Kind.additive? (.plus, .add) (.minus, .sub) := by
  intro kind
  cases kind <;> rfl

theorem finds_multiplicative :
    Finds Token.Kind.multiplicative? (.times, .mul) (.divide, .div) := by
  intro kind
  cases kind <;> rfl

section Operators

variable {find : Token.Kind → Option ArithOp} {first second : Token.Kind × ArithOp}
variable {t : Token} {ts : List Token} {f : Option ArithOp → CursorM Tree}

/-- A second operator is looked for only where the first is not in view. -/
theorem eatOperator_bind : eatOperator m first second >>= f =
    (eat m first.1 >>= fun t? => if t?.isSome then f (some first.2) else
      eat m second.1 >>= fun u? => if u?.isSome then f (some second.2) else f none) := by
  rw [eatOperator, bind_assoc]
  congr 1
  funext t?
  split
  case isTrue => rw [pure_bind]
  case isFalse =>
    rw [bind_assoc]
    congr 1
    funext u?
    split <;> rw [pure_bind]

theorem eatOperator_end {r : Run [] Tree} (hf : Follows m fin [] (f none) r) :
    Follows m fin [] (eatOperator m first second >>= f) r := by
  rw [eatOperator_bind]
  exact .eat_end (.eat_end hf)

theorem eatOperator_none (hfind : Finds find first second) (hop : find t.kind = none)
    {r : Run (t :: ts) Tree} (hf : Follows m fin (t :: ts) (f none) r) :
    Follows m fin (t :: ts) (eatOperator m first second >>= f) r := by
  rw [hfind] at hop
  rw [eatOperator_bind]
  split at hop
  case isTrue => cases hop
  case isFalse hfirst =>
    split at hop
    case isTrue => cases hop
    case isFalse hsecond => exact .eat_other hfirst (.eat_other hsecond hf)

theorem eatOperator_some (hfind : Finds find first second) {op : ArithOp}
    (hop : find t.kind = some op) {r : Run ts Tree} (hf : Follows m fin ts (f (some op)) r) :
    Follows m fin (t :: ts) (eatOperator m first second >>= f) (taking t r) := by
  rw [hfind] at hop
  rw [eatOperator_bind]
  split at hop
  case isTrue hfirst =>
    cases hop
    exact .eat_some hfirst hf
  case isFalse hfirst =>
    split at hop
    case isTrue hsecond =>
      cases hop
      exact .eat_other hfirst (.eat_some hsecond hf)
    case isFalse => cases hop

end Operators

/-- Where a token is left, one more call may be made behind it. -/
theorem limit_of_cons {t : Token} {ts : List Token} {limit : Nat} (h : (t :: ts).length ≤ limit) :
    ∃ k, limit = k + 1 ∧ ts.length ≤ k := by
  cases limit with
  | zero => simp at h
  | succ k => exact ⟨k, rfl, Nat.le_of_succ_le_succ h⟩

mutual

theorem follows_expr (limit : Nat) (ts : List Token) (h : ts.length ≤ limit) :
    Follows m fin ts (expr m limit) (Trace.expr fin ts) := by
  rw [expr, Trace.expr]
  refine .bind (.call (follows_term limit ts h)) ?_
  intro left us hus
  exact .call (follows_exprLoop limit left us (hus.length_le.trans h))
termination_by (limit, 2)

theorem follows_exprLoop (limit : Nat) (left : Tree) (ts : List Token) (h : ts.length ≤ limit) :
    Follows m fin ts (exprLoop m limit left) (Trace.exprTail fin left ts) := by
  rw [exprLoop]
  cases ts with
  | nil =>
      rw [Trace.exprTail]
      exact eatOperator_end (.pure left)
  | cons t rest =>
      rw [Trace.exprTail]
      cases hop : t.kind.additive? with
      | none => exact eatOperator_none finds_additive hop (.pure left)
      | some op =>
          -- the operator pays for the call behind it
          rcases limit_of_cons h with ⟨limit, rfl, hrest⟩
          refine eatOperator_some finds_additive hop
            (.bind (.call (follows_term limit rest hrest)) ?_)
          intro right us hus
          exact .call (follows_exprLoop limit (.arith op left right) us (hus.length_le.trans hrest))
termination_by (limit, 0)

theorem follows_term (limit : Nat) (ts : List Token) (h : ts.length ≤ limit) :
    Follows m fin ts (term m limit) (Trace.term fin ts) := by
  rw [term, Trace.term]
  refine .bind (.call (follows_factor limit ts h)) ?_
  intro left us hus
  exact .call (follows_termLoop limit left us (hus.length_le.trans h))
termination_by (limit, 1)

theorem follows_termLoop (limit : Nat) (left : Tree) (ts : List Token) (h : ts.length ≤ limit) :
    Follows m fin ts (termLoop m limit left) (Trace.termTail fin left ts) := by
  rw [termLoop]
  cases ts with
  | nil =>
      rw [Trace.termTail]
      exact eatOperator_end (.pure left)
  | cons t rest =>
      rw [Trace.termTail]
      cases hop : t.kind.multiplicative? with
      | none => exact eatOperator_none finds_multiplicative hop (.pure left)
      | some op =>
          rcases limit_of_cons h with ⟨limit, rfl, hrest⟩
          refine eatOperator_some finds_multiplicative hop
            (.bind (.call (follows_factor limit rest hrest)) ?_)
          intro right us hus
          exact .call (follows_termLoop limit (.arith op left right) us (hus.length_le.trans hrest))
termination_by (limit, 0)

theorem follows_factor (limit : Nat) (ts : List Token) (h : ts.length ≤ limit) :
    Follows m fin ts (factor m limit) (Trace.factor fin ts) := by
  rw [factor.eq_def]
  cases ts with
  | nil =>
      rw [Trace.factor]
      exact .eat_end (.eat_end (.eat_end (.eat_end (.eat_end (.fail .numberOrParen)))))
  | cons t rest =>
      -- the kinds in front of the one in view are tried in vain
      cases hkind : t.kind <;> simp only [Trace.factor, hkind]
      case plus => exact .eat_some hkind (.call (follows_signedOperand false rest))
      case minus =>
        refine .eat_other (by simp [hkind]) ?_
        exact .eat_some hkind (.call (follows_signedOperand true rest))
      case num =>
        refine .eat_other (by simp [hkind]) (.eat_other (by simp [hkind]) ?_)
        exact .eat_some hkind ((Follows.number false t).still_map Tree.num)
      case var =>
        refine .eat_other (by simp [hkind]) (.eat_other (by simp [hkind]) ?_)
        exact .eat_other (by simp [hkind]) (.eat_some hkind (.pure _))
      case lparen =>
        rcases limit_of_cons h with ⟨limit, rfl, hrest⟩
        refine .eat_other (by simp [hkind]) (.eat_other (by simp [hkind]) ?_)
        refine .eat_other (by simp [hkind]) (.eat_other (by simp [hkind]) ?_)
        refine .eat_some hkind (.bind (.call (follows_expr limit rest hrest)) ?_)
        intro inner us _
        refine .expect ?_
        intro _ _ _
        exact .pure inner
      all_goals
        refine .eat_other (by simp [hkind]) (.eat_other (by simp [hkind]) ?_)
        refine .eat_other (by simp [hkind]) (.eat_other (by simp [hkind]) ?_)
        exact .eat_other (by simp [hkind]) (.fail .numberOrParen)
termination_by (limit, 0)

end

end Expressions

/-! ## Statements -/

section Statements

variable {m : Matcher} {fin : Ending}

theorem follows_printItem (limit : Nat) (ts : List Token) (h : ts.length ≤ limit) :
    Follows m fin ts (printItem m limit) (Trace.printItem fin ts) := by
  rw [printItem]
  cases ts with
  | nil => exact .eat_end (.call (follows_expr limit [] h))
  | cons t rest =>
      rw [Trace.printItem]
      by_cases hkind : t.kind = .str
      · rw [if_pos hkind]
        exact .eat_some hkind (.pure _)
      · rw [if_neg hkind]
        exact .eat_other hkind (.call (follows_expr limit (t :: rest) h))

/-- The loop puts the items that it reads behind those it has. -/
theorem follows_printLoop (limit : Nat) (items : List Tree) (ts : List Token)
    (h : ts.length ≤ limit) :
    Follows m fin ts (printLoop m limit items)
      ((Trace.printItems fin ts).map fun more => .print (items ++ more)) := by
  rw [printLoop.eq_def, Trace.printItems, map_andThen]
  refine .bind (.call (follows_printItem limit ts h)) ?_
  intro item us hus
  refine .isAtEnd ?_
  cases us with
  | nil => exact .pure _
  | cons t rest =>
      by_cases hkind : t.kind = .comma
      · dsimp only
        rw [if_neg (not_not.2 hkind)]
        cases rest with
        | nil =>
            rw [if_pos rfl, map_taking]
            exact .expect_some hkind (.isAtEnd (.fail .expression))
        | cons u rest =>
            -- the comma pays for the next round
            rcases limit_of_cons (hus.length_le.trans h) with ⟨limit, rfl, hrest⟩
            have hloop := follows_printLoop limit (items ++ [item]) (u :: rest) hrest
            simp only [List.append_assoc, List.singleton_append] at hloop
            rw [if_neg (List.cons_ne_nil u rest), map_taking, map_map]
            exact .expect_some hkind (.isAtEnd hloop)
      · dsimp only
        rw [if_pos hkind]
        exact .expect_other hkind

/-- The loop puts the names that it reads behind those it has. -/
theorem follows_inputLoop (limit : Nat) (names : List String) (ts : List Token)
    (h : ts.length ≤ limit) :
    Follows m fin ts (inputLoop m limit names)
      ((Trace.moreNames fin ts).map fun more => .input (names ++ more)) := by
  rw [inputLoop.eq_def]
  -- where the list of names ends, nothing is put behind them
  have hpure : Follows m fin ts (pure (Tree.input names))
      ((still (.ok [])).map fun more => .input (names ++ more)) := by
    change Follows m fin ts _ (still (.ok (Tree.input (names ++ []))))
    rw [List.append_nil]
    exact .pure _
  cases ts with
  | nil =>
      rw [Trace.moreNames]
      exact .eat_end (.check hpure)
  | cons t rest =>
      cases hkind : t.kind <;> simp only [Trace.moreNames, hkind]
      case comma =>
        rcases limit_of_cons h with ⟨limit, rfl, hrest⟩
        rw [map_taking, map_andThen]
        refine .eat_some hkind (.expect ?_)
        intro v us hus
        have hloop := follows_inputLoop limit (names ++ [v.text]) us (hus.length_le.trans hrest)
        simp only [List.append_assoc, List.singleton_append] at hloop
        rw [map_map]
        exact .call hloop
      case var =>
        refine .eat_other (by simp [hkind]) (.check ?_)
        rw [List.head?_cons, Option.map_some, hkind]
        exact .fail .comma
      all_goals
        refine .eat_other (by simp [hkind]) (.check ?_)
        rw [List.head?_cons, Option.map_some, hkind]
        exact hpure

theorem follows_target (routine : Trace.Routine) (expected : Expected) (wrap : Tree → Tree)
    (limit : Nat) (ts : List Token) (h : ts.length ≤ limit) :
    Follows m fin ts (target m limit expected wrap)
      (Trace.target routine expected wrap fin ts) := by
  rw [target]
  refine .isAtEnd ?_
  cases ts with
  | nil => exact .fail expected
  | cons t rest => exact (follows_expr limit (t :: rest) h).map wrap

theorem follows_printStatement (limit : Nat) (ts : List Token) (h : ts.length ≤ limit) :
    Follows m fin ts (printStatement m limit) (Trace.printStatement fin ts) := by
  rw [printStatement]
  refine .isAtEnd ?_
  cases ts with
  | nil => exact .pure _
  | cons t rest => exact follows_printLoop limit [] (t :: rest) h

theorem follows_inputStatement (limit : Nat) (ts : List Token) (h : ts.length ≤ limit) :
    Follows m fin ts (inputStatement m limit) (Trace.inputStatement fin ts) := by
  rw [inputStatement, Trace.inputStatement]
  refine .expect ?_
  intro v us hus
  exact follows_inputLoop limit [v.text] us (hus.length_le.trans h)

theorem follows_letStatement (limit : Nat) (ts : List Token) (h : ts.length ≤ limit) :
    Follows m fin ts (letStatement m limit) (Trace.letStatement fin ts) := by
  rw [letStatement, Trace.letStatement]
  refine .expect ?_
  intro v us hus
  refine .expect ?_
  intro op vs hvs
  split
  case isTrue => exact .reject .equal op
  case isFalse =>
    exact (follows_expr limit vs ((hvs.trans hus).length_le.trans h)).map (Tree.assign v.text)

theorem follows_listStatement (ts : List Token) :
    Follows m fin ts (listStatement m) (Trace.listStatement fin ts) := by
  rw [listStatement]
  cases ts with
  | nil => exact .eat_end (.isAtEnd (.pure _))
  | cons t rest =>
      rw [Trace.listStatement]
      by_cases hkind : t.kind = .num
      · rw [if_pos hkind]
        exact .eat_some hkind ((Follows.number false t).still_map fun n => Tree.listLine (.num n))
      · rw [if_neg hkind]
        exact .eat_other hkind (.isAtEnd (.fail .num))

theorem follows_bareExpression {limit : Nat} {ts : List Token} (h : ts.length ≤ limit)
    (hhead : ∀ t ∈ ts.head?, t.kind ≠ .str) :
    Follows m fin ts (bareExpression m limit) (Trace.expr fin ts) := by
  rw [bareExpression]
  refine .check ?_
  have hview : (ts.head?.map Token.kind == some .str) = false := by
    cases ts with
    | nil => rfl
    | cons t rest => simpa using hhead t rfl
  rw [hview]
  exact follows_expr limit ts h

theorem follows_bareString {t : Token} {rest : List Token} (limit : Nat) (h : t.kind = .str) :
    Follows m fin (t :: rest) (bareExpression m limit)
      (still (.error (fin.unexpected .expression (t :: rest)))) := by
  rw [bareExpression]
  refine .check ?_
  rw [List.head?_cons, Option.map_some, h]
  exact .fail .expression

/-- Behind `THEN` the reading goes on, and without it there is none. -/
theorem follows_then {x : CursorM Tree} {ts : List Token}
    {next : Unit → (us : List Token) → us <:+ ts → Run us Tree}
    (hx : ∀ us hus, Follows m fin us x (next () us hus)) :
    Follows m fin ts (eatKeyword m .thenKw >>= fun b => if b then x else fail .thenKw)
      ((Trace.expectThen fin ts).andThen next) := by
  cases ts with
  | nil =>
      refine .eatKeyword_other ?_ (.fail .thenKw)
      intro hk
      cases hk
  | cons t rest =>
      rw [Trace.expectThen]
      by_cases hk : t.keyword? = some .thenKw
      · rw [if_pos hk, taking_andThen, still_andThen]
        exact .eatKeyword_some hk (hx rest _)
      · rw [if_neg hk]
        exact .eatKeyword_other hk (.fail .thenKw)

theorem follows_statement (limit : Nat) (ts : List Token) (h : ts.length ≤ limit) :
    Follows m fin ts (statement m limit) (Trace.statement fin ts) := by
  rw [statement]
  cases ts with
  | nil =>
      rw [Trace.statement]
      refine .peekKeyword (.call (follows_bareExpression h ?_))
      intro t ht
      cases ht
  | cons t rest =>
      have hrest : rest.length ≤ limit := (Nat.le_succ _).trans h
      rw [Trace.statement]
      refine .peekKeyword ?_
      rw [List.head?_cons, Option.bind_some]
      cases hk : t.keyword? with
      | none =>
          by_cases hkind : t.kind = .str
          · simp only [if_pos hkind]
            exact follows_bareString limit hkind
          · simp only [if_neg hkind]
            refine .call (follows_bareExpression h ?_)
            intro u hu
            cases hu
            exact hkind
      | some k =>
          cases k
          case print => exact .advance (.call (follows_printStatement limit rest hrest))
          case ifKw =>
            -- the token `IF` pays for the statement behind `THEN`
            rcases limit_of_cons h with ⟨limit, rfl, hbody⟩
            refine .advance ?_
            change Follows m fin rest (ifStatement m (limit + 1)) _
            rw [ifStatement]
            refine .bind (.call (follows_expr (limit + 1) rest hrest)) ?_
            intro left us hus
            refine .expect ?_
            intro op vs hvs
            have hright : vs.length ≤ limit + 1 := (hvs.trans hus).length_le.trans hrest
            refine .bind (.call (follows_expr (limit + 1) vs hright)) ?_
            intro right ws hws
            refine follows_then ?_
            intro xs hxs
            have hxs' : xs <:+ rest := (hxs.trans hws).trans (hvs.trans hus)
            exact .map (.call (follows_statement limit xs (hxs'.length_le.trans hbody))) _
          case goto => exact .advance (.call (follows_target _ .num .goto limit rest hrest))
          case input => exact .advance (.call (follows_inputStatement limit rest hrest))
          case letKw => exact .advance (.call (follows_letStatement limit rest hrest))
          case gosub =>
            exact .advance (.call (follows_target _ .expression .gosub limit rest hrest))
          case returnKw => exact .advance (.pure _)
          case clear => exact .advance (.pure _)
          case list => exact .advance (.call (follows_listStatement rest))
          case run => exact .advance (.pure _)
          case endKw => exact .advance (.pure _)
          case thenKw => exact .fail .statement
          case quit => exact .fail .statement

end Statements

/-! ## Lines -/

section Lines

variable {m : Matcher} {fin : Ending}

theorem follows_expectEnd (ts : List Token) :
    Follows m fin ts expectEnd (still (Parse.endOfLine fin ts)) := by
  rw [expectEnd]
  cases ts with
  | nil =>
      cases fin with
      | complete n => exact .isAtEnd (.pure ())
      | failed e =>
          -- there is no position behind a failed pull that could be taken for the end
          intro p hp
          cases hp
          rfl
  | cons t rest => exact .isAtEnd (.fail .endOfLine)

/-- A statement up to the end of the line, of which `g` makes the line. -/
theorem follows_wholeStatement (g : Tree → Tree) (limit : Nat) (ts : List Token)
    (h : ts.length ≤ limit) :
    Follows m fin ts (statement m limit >>= fun tree => expectEnd >>= fun _ => pure (g tree))
      ((Trace.wholeStatement fin ts).map g) := by
  rw [Trace.wholeStatement, map_andThen]
  refine .bind (.call (follows_statement limit ts h)) ?_
  intro tree us _
  have hcheck : Follows m fin us expectEnd (still (Parse.endOfLine fin us)) := follows_expectEnd us
  have hend := hcheck.still_map fun _ => g tree
  cases hresult : Parse.endOfLine fin us <;> rw [hresult] at hend <;> exact hend

theorem map_self {α : Type} {ts : List Token} (r : Run ts α) : (r.map fun a => a) = r := by
  cases hr : r.result <;> simp [Run.map]

theorem follows_line (limit : Nat) (ts : List Token) (h : ts.length ≤ limit) :
    Follows m fin ts (line m limit) (Trace.line fin ts) := by
  rw [line]
  have hwhole : Follows m fin ts
      (statement m limit >>= fun tree => expectEnd >>= fun _ => pure tree)
      (Trace.wholeStatement fin ts) := by
    have hid : Follows m fin ts _ ((Trace.wholeStatement fin ts).map fun tree => tree) :=
      follows_wholeStatement (fun tree => tree) limit ts h
    rwa [map_self] at hid
  cases ts with
  | nil => exact .eat_end (.call hwhole)
  | cons t rest =>
      rw [Trace.line]
      by_cases hkind : t.kind = .num
      · rw [if_pos hkind]
        refine .eat_some hkind (.bind (.number false t) ?_)
        intro n us hus
        have hus' : us.length ≤ limit := hus.length_le.trans ((Nat.le_succ _).trans h)
        exact .call (follows_wholeStatement (.numbered n) limit us hus')
      · rw [if_neg hkind]
        exact .eat_other hkind (.call hwhole)

/-- A command is read as the finished scan is read. -/
theorem follows_command (limit : Nat) (ts : List Token) (h : ts.length ≤ limit) :
    ∃ r : Run ts Command, Follows m fin ts (command m limit) r ∧
      r.result = Parse.command fin ts := by
  have hread : Follows m fin ts (line m limit) (Trace.line fin ts) := follows_line limit ts h
  have hline := hread.map Command.line
  have hresult : ((Trace.line fin ts).map Command.line).result =
      (do return .line (← Parse.line fin ts)) := by
    rw [← Trace.result_line]
    rfl
  rw [command]
  cases ts with
  | nil =>
      refine ⟨_, .eatKeyword_other ?_ hline, hresult⟩
      intro hk
      cases hk
  | cons t rest =>
      rw [Parse.command]
      by_cases hk : t.keyword? = some .quit
      · rw [if_pos hk]
        have hcheck : Follows m fin rest expectEnd (still (Parse.endOfLine fin rest)) :=
          follows_expectEnd rest
        have hend := hcheck.still_map fun _ => Command.quit
        exact ⟨_, .eatKeyword_some hk hend, rfl⟩
      · rw [if_neg hk]
        exact ⟨_, .eatKeyword_other hk hline, hresult⟩

/-! ## Texts -/

theorem runOn_of_follow {α : Type} {x : CursorM α} {text : String}
    {y : Except ParseError (α × Cursor)} (h : follow (Cursor.ofText m text) x = some y) :
    runOn m x text = some (Prod.fst <$> y) := by
  rw [runOn]
  generalize Cursor.ofText m text = p at h
  cases p with
  | error e =>
      cases h
      rfl
  | ok c =>
      rw [follow_ok] at h
      dsimp only
      cases hx : x c with
      | none =>
          rw [hx] at h
          cases h
      | some r =>
          rw [hx] at h
          cases h
          rcases r with ⟨_ | a, d⟩ <;> rfl

/-- A computation that ends well only where the scan did gives the result of its run. -/
theorem runOn_of_follows {α : Type} {x : CursorM α} {text : String} (hm : m.Lawful)
    {r : Run (Scan.ofText text).tokens α} (h : Follows m (Scan.ofText text).ending _ x r)
    (hok : ∀ a, r.result = .ok a → ∃ n, (Scan.ofText text).ending = .complete n) :
    runOn m x text = some r.result := by
  have hend := h _ (at_ofText hm text)
  cases hr : r.result with
  | error e =>
      simp only [hr] at hend
      exact runOn_of_follow hend
  | ok a =>
      simp only [hr] at hend
      rcases hend with ⟨q, hfollow, hq⟩
      -- the run ended well, so the scan did, and there is a position to end at
      rcases hok a hr with ⟨n, hfin⟩
      rw [hfin] at hq
      cases q with
      | error e => exact absurd hq not_at_error
      | ok d => exact runOn_of_follow hfollow

/-- A line has no more tokens than characters. -/
theorem length_le_of_munches {pos : Nat} {cs : List Char} {scan : Scan}
    (h : Munches pos cs scan) : scan.tokens.length ≤ cs.length := by
  induction h with
  | finish => exact Nat.zero_le _
  | token hgap hlongest _ _ _ ih =>
      rcases spells_cons hlongest.spells with ⟨c, cs, rfl, -⟩
      simp only [Scan.cons, List.length_cons, List.length_append] at ih ⊢
      omega
  | stuck => exact Nat.zero_le _

theorem length_tokens_le (text : String) : (Scan.ofText text).tokens.length ≤ text.length := by
  rw [← String.length_toList]
  exact length_le_of_munches (munches_ofChars 0 text.toList)

theorem complete_of_result {text : String} {ts : List Token}
    (h : (Scan.ofText text).result = .ok ts) : ∃ n, (Scan.ofText text).ending = .complete n :=
  (result_eq_ok_iff.1 h).2

/-- Read while it is scanned, a line gives what its finished scan gives. -/
theorem parse_eq (hm : m.Lawful) (text : String) :
    parse m text = some (Tree.ofText text) := by
  have hline : (Trace.line (Scan.ofText text).ending (Scan.ofText text).tokens).result =
      Tree.ofText text := Trace.result_line _ _
  rw [← hline]
  refine runOn_of_follows hm (follows_line _ _ (length_tokens_le text)) ?_
  intro a ha
  rw [hline] at ha
  rcases Grammar.ofText_eq_ok_iff.1 ha with ⟨ts, hresult, -⟩
  exact complete_of_result hresult

theorem parseCommand_eq (hm : m.Lawful) (text : String) :
    parseCommand m text = some (Command.ofText text) := by
  have hread : ∃ r : Run (Scan.ofText text).tokens Command,
      Follows m (Scan.ofText text).ending (Scan.ofText text).tokens (command m text.length) r ∧
        r.result = Command.ofText text := follows_command _ _ (length_tokens_le text)
  rcases hread with ⟨r, hfollows, hcommand⟩
  rw [← hcommand]
  refine runOn_of_follows hm hfollows ?_
  intro c hc
  rw [hcommand] at hc
  cases c with
  | quit =>
      rcases Grammar.command_ofText_eq_quit_iff.1 hc with ⟨t, hscan, -⟩
      exact complete_of_result hscan
  | line a =>
      have ha := Grammar.command_ofText_eq_line_iff.1 hc
      rcases Grammar.ofText_eq_ok_iff.1 ha with ⟨ts, hscan, -⟩
      exact complete_of_result hscan

end Lines

end Descent
end TinyBasic
