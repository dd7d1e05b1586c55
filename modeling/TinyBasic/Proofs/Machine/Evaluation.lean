import TinyBasic.Machine.Eval
import TinyBasic.Proofs.Tree.Shape

/-!
# Evaluation — what the tree of a line can do

Evaluation of an arbitrary tree may stop halfway and leave behind what it did so far. The trees of
lines are shaped so that this cannot happen: expressions calculate, that is they leave the machine
alone (`calculates_expr`), and a statement acts at most once and last (`settles_of_line`). The
relation `Settles` lists all that evaluating such a tree can come to.
-/

namespace TinyBasic

namespace Tree

/-- The statement behind all the conditions of a tree. -/
def consequent : Tree → Tree
  | ifThen _ c => c.consequent
  | a => a

/-- Whether the tree is a statement that does nothing: it moves the control of a program, and there
is none, or it is a line with a number. -/
def idles : Tree → Bool
  | goto _ | gosub _ | input _ | ret | clear | listAll | listLine _ | run | finish => true
  | numbered _ _ => true
  | _ => false

end Tree

namespace Evaluation

open TinyBasic.Tree

/-! ## Calculations -/

/-- The errors of arithmetic on integers. -/
inductive Arithmetical : EvalError → Prop where
  | divisionByZero : Arithmetical .divisionByZero
  | integerOverflow (operation : Operation) : Arithmetical (.integerOverflow operation)

/-- The evaluation leaves every machine as it is, and gives a value as described or fails with an
error of arithmetic. -/
def Calculates {α : Type} (x : EvalM α) (P : α → Prop) : Prop :=
  ∀ m, (∃ v, x.run m = .ok v m ∧ P v) ∨ ∃ e, x.run m = .error e m ∧ Arithmetical e

/-- The same for a result that depends on no machine. -/
def Yields {α : Type} (r : Except EvalError α) (P : α → Prop) : Prop :=
  match r with
  | .ok v => P v
  | .error e => Arithmetical e

section Calculates

variable {α β : Type} {P : α → Prop} {Q : β → Prop}

theorem calculates_pure {v : α} (h : P v) : Calculates (pure v) P := by
  intro m
  exact .inl ⟨v, rfl, h⟩

theorem calculates_ofExcept {r : Except EvalError α} (h : Yields r P) :
    Calculates (ofExcept r) P := by
  intro m
  cases r with
  | ok v => exact .inl ⟨v, rfl, h⟩
  | error e => exact .inr ⟨e, rfl, h⟩

theorem Calculates.bind {x : EvalM α} {f : α → EvalM β} (hx : Calculates x P)
    (hf : ∀ v, P v → Calculates (f v) Q) : Calculates (x >>= f) Q := by
  intro m
  -- the second part starts on the machine that the first one left alone
  rcases hx m with ⟨v, hrun, hv⟩ | ⟨e, hrun, he⟩
  · rw [EStateM.run_bind, hrun]
    exact hf v hv m
  · refine .inr ⟨e, ?_, he⟩
    rw [EStateM.run_bind, hrun]

theorem Calculates.imp {x : EvalM α} {Q : α → Prop} (hx : Calculates x P)
    (himp : ∀ v, P v → Q v) : Calculates x Q := by
  intro m
  rcases hx m with ⟨v, hrun, hv⟩ | hfailed
  · exact .inl ⟨v, hrun, himp v hv⟩
  · exact .inr hfailed

end Calculates

/-! ## Values -/

/-- The value is an integer. -/
def IsInt (v : Value) : Prop :=
  ∃ n, v = .int n

/-- The value is a truth value. -/
def IsBool (v : Value) : Prop :=
  ∃ b, v = .bool b

theorem yields_ofResult (operation : Operation) (result : Option Word) :
    Yields (Value.ofResult operation result) IsInt := by
  cases result with
  | none => exact .integerOverflow operation
  | some n => exact ⟨n, rfl⟩

theorem yields_arith (op : ArithOp) {v w : Value} (hv : IsInt v) (hw : IsInt w) :
    Yields (Value.arith op v w) IsInt := by
  rcases hv with ⟨a, rfl⟩
  rcases hw with ⟨b, rfl⟩
  simp only [Value.arith, Value.asInt, bind, Except.bind]
  by_cases hzero : op = .div ∧ b = 0
  · rw [if_pos hzero]
    exact .divisionByZero
  · rw [if_neg hzero]
    exact yields_ofResult op.operation (op.compute? a b)

theorem yields_compare (op : Relop) {v w : Value} (hv : IsInt v) (hw : IsInt w) :
    Yields (Value.compare op v w) IsBool := by
  rcases hv with ⟨a, rfl⟩
  rcases hw with ⟨b, rfl⟩
  exact ⟨op.holds a b, rfl⟩

theorem yields_negate {v : Value} (hv : IsInt v) : Yields v.negate IsInt := by
  rcases hv with ⟨a, rfl⟩
  exact yields_ofResult .negation a.neg?

/-! ## Letters -/

theorem toNat_of_isUpper {c : Char} (h : c.isUpper = true) : 65 ≤ c.toNat ∧ c.toNat ≤ 90 := by
  simpa [Char.isUpper, UInt32.le_iff_toNat_le, ← Char.toNat_val] using h

theorem exists_letter {c : Char} (h : c.isUpper = true) : ∃ l : Letter, l.toChar = c := by
  have hrange := toNat_of_isUpper h
  refine ⟨⟨c.toNat - 65, by omega⟩, ?_⟩
  have hsum : 'A'.toNat + (c.toNat - 65) = c.toNat := by
    have hA : 'A'.toNat = 65 := rfl
    omega
  simp only [Letter.toChar, hsum, Char.ofNat_toNat]

theorem ofName?_of_isLetter {x : String} (h : Shape.IsLetter x) :
    ∃ l, Letter.ofName? x = some l := by
  rcases h with ⟨c, hc, hx⟩
  -- some letter has this character, so the search through all of them finds one
  rcases exists_letter hc with ⟨l, hl⟩
  have hfound : (Letter.all.find? fun l => l.toChar == c).isSome = true := by
    refine List.find?_isSome.2 ⟨l, List.mem_finRange l, ?_⟩
    simp [hl]
  simp only [Letter.ofName?, hx]
  exact Option.isSome_iff_exists.1 hfound

/-! ## Access to the machine -/

theorem run_ofExcept_ok {ε σ α : Type} (v : α) (s : σ) :
    (ofExcept (Except.ok v) : EStateM ε σ α).run s = .ok v s := rfl

theorem run_ofExcept_error {ε σ α : Type} (e : ε) (s : σ) :
    (ofExcept (Except.error e) : EStateM ε σ α).run s = .error e s := rfl

theorem run_get {ε σ : Type} (s : σ) : (EStateM.get : EStateM ε σ σ).run s = .ok s s := rfl

theorem run_readVariable {x : String} {l : Letter} (h : Letter.ofName? x = some l) (m : Machine) :
    (Machine.readVariable x).run m = .ok (m.memory.read l) m := by
  simp only [Machine.readVariable, EStateM.run_bind, run_get, Variables.get, h, run_ofExcept_ok]

theorem run_assign {x : String} {l : Letter} (h : Letter.ofName? x = some l) (n : Word)
    (m : Machine) :
    (Machine.assign x n).run m = .ok () { m with memory := m.memory.write l n } := by
  simp only [Machine.assign, EStateM.run_bind, run_get, Variables.set, h, run_ofExcept_ok]
  rfl

theorem run_println (line : String) (m : Machine) :
    (Machine.println line).run m = .ok () { m with printed := m.printed.println line } := rfl

/-! ## Expressions -/

theorem calculates_var {x : String} (h : Shape.IsLetter x) : Calculates (eval (.var x)) IsInt := by
  intro m
  rcases ofName?_of_isLetter h with ⟨l, hl⟩
  refine .inl ⟨.int (m.memory.read l), ?_, m.memory.read l, rfl⟩
  simp only [eval, EStateM.run_bind, run_readVariable hl, EStateM.run_pure]

theorem calculates_expr {a : Tree} (h : Shape.Expr a) : Calculates a.eval IsInt := by
  induction h with
  | num n =>
      rw [eval]
      exact calculates_pure ⟨n, rfl⟩
  | var hx => exact calculates_var hx
  | neg hx =>
      rw [eval]
      refine (calculates_var hx).bind ?_
      intro v hv
      exact calculates_ofExcept (yields_negate hv)
  | arith op _ _ iha ihb =>
      rw [eval]
      refine iha.bind ?_
      intro v hv
      refine ihb.bind ?_
      intro w hw
      exact calculates_ofExcept (yields_arith op hv hw)

theorem calculates_compare {a b : Tree} (op : Relop) (ha : Shape.Expr a) (hb : Shape.Expr b) :
    Calculates (eval (.compare op a b)) IsBool := by
  rw [eval]
  refine (calculates_expr ha).bind ?_
  intro v hv
  refine (calculates_expr hb).bind ?_
  intro w hw
  exact calculates_ofExcept (yields_compare op hv hw)

theorem calculates_item {a : Tree} (h : Shape.Item a) : Calculates a.eval fun _ => True := by
  cases h with
  | text =>
      rw [eval]
      exact calculates_pure trivial
  | expr ha =>
      refine (calculates_expr ha).imp ?_
      intro _ _
      trivial

theorem calculates_items {items : List Tree} (h : ∀ a ∈ items, Shape.Item a) :
    Calculates (evalItems items) fun _ => True := by
  induction items with
  | nil =>
      rw [evalItems]
      exact calculates_pure trivial
  | cons a items ih =>
      have hitem := calculates_item (h a List.mem_cons_self)
      have hitems := ih fun b hb => h b (List.mem_cons_of_mem a hb)
      rw [evalItems]
      refine hitem.bind ?_
      intro v _
      refine hitems.bind ?_
      intro texts _
      exact calculates_pure trivial

/-! ## Statements -/

/-- One of the conditions of the tree does not hold, after those before it did. -/
inductive Blocked (m : Machine) : Tree → Prop where
  | here {condition c : Tree} :
      condition.eval.run m = .ok (.bool false) m → Blocked m (.ifThen condition c)
  | behind {condition c : Tree} :
      condition.eval.run m = .ok (.bool true) m → Blocked m c → Blocked m (.ifThen condition c)

theorem blocked_ifThen_iff {m : Machine} {condition c : Tree}
    (h : condition.eval.run m = .ok (.bool true) m) :
    Blocked m (.ifThen condition c) ↔ Blocked m c := by
  constructor
  · intro hblocked
    cases hblocked with
    | here hfalse =>
        rw [h] at hfalse
        cases hfalse
    | behind _ hc => exact hc
  · exact .behind h

/-- What evaluating the tree of a line on the machine `m` can come to: it calculates, or it does the
one thing that its statement is there to do, and then it is done. -/
inductive Settles (a : Tree) (m : Machine) : EStateM.Result EvalError Machine Value → Prop where
  | failed {e : EvalError} : Arithmetical e → Settles a m (.error e m)
  | value (n : Word) :
      ¬ Blocked m a → Shape.Expr a.consequent → a.consequent.eval.run m = .ok (.int n) m →
        Settles a m (.ok (.int n) m)
  | idle : Blocked m a ∨ a.consequent.idles = true → Settles a m (.ok .void m)
  | assigned {x : String} {b : Tree} {l : Letter} (n : Word) :
      ¬ Blocked m a → a.consequent = .assign x b → Letter.ofName? x = some l →
        b.eval.run m = .ok (.int n) m →
        Settles a m (.ok .void { m with memory := m.memory.write l n })
  | printed {items : List Tree} (texts : List String) :
      ¬ Blocked m a → a.consequent = .print items → (evalItems items).run m = .ok texts m →
        Settles a m (.ok .void { m with printed := m.printed.println (String.join texts) })

theorem Settles.behind {condition c : Tree} {m : Machine}
    {r : EStateM.Result EvalError Machine Value}
    (hcondition : condition.eval.run m = .ok (.bool true) m) (h : Settles c m r) :
    Settles (.ifThen condition c) m r := by
  have hblocked := blocked_ifThen_iff (c := c) hcondition
  cases h with
  | failed he => exact .failed he
  | value n hopen hc hn => exact .value n (mt hblocked.1 hopen) hc hn
  | idle hidle => exact .idle (hidle.imp_left hblocked.2)
  | assigned n hopen hc hl hn => exact .assigned n (mt hblocked.1 hopen) hc hl hn
  | printed texts hopen hc htexts => exact .printed texts (mt hblocked.1 hopen) hc htexts

/-- Nothing blocks a tree that is behind no condition. -/
theorem not_blocked {m : Machine} {a : Tree} (h : ∀ condition c, a ≠ .ifThen condition c) :
    ¬ Blocked m a := by
  intro hblocked
  cases hblocked with
  | here => exact h _ _ rfl
  | behind => exact h _ _ rfl

theorem settles_expr {a : Tree} (h : Shape.Expr a) (m : Machine) : Settles a m (a.eval.run m) := by
  rcases calculates_expr h m with ⟨v, hrun, n, rfl⟩ | ⟨e, hrun, he⟩
  · have hself : a.consequent = a := by
      cases h <;> rfl
    have hopen : ¬ Blocked m a := by
      refine not_blocked ?_
      rintro condition c rfl
      cases h
    rw [hrun]
    exact .value n hopen (hself.symm ▸ h) (hself.symm ▸ hrun)
  · rw [hrun]
    exact .failed he

theorem settles_print {items : List Tree} (h : ∀ a ∈ items, Shape.Item a) (m : Machine) :
    Settles (.print items) m ((eval (.print items)).run m) := by
  -- all items are evaluated before anything is printed, so a failing one leaves nothing behind
  rcases calculates_items h m with ⟨texts, hrun, -⟩ | ⟨e, hrun, he⟩
  · simp only [eval, EStateM.run_bind, hrun, run_println, EStateM.run_pure]
    exact .printed texts (not_blocked fun _ _ => Tree.noConfusion) rfl hrun
  · simp only [eval, EStateM.run_bind, hrun]
    exact .failed he

theorem settles_assign {x : String} {a : Tree} (hx : Shape.IsLetter x) (ha : Shape.Expr a)
    (m : Machine) : Settles (.assign x a) m ((eval (.assign x a)).run m) := by
  rcases ofName?_of_isLetter hx with ⟨l, hl⟩
  rcases calculates_expr ha m with ⟨v, hrun, n, rfl⟩ | ⟨e, hrun, he⟩
  · simp only [eval, EStateM.run_bind, hrun, Value.asInt, run_ofExcept_ok, run_assign hl,
      EStateM.run_pure]
    exact .assigned n (not_blocked fun _ _ => Tree.noConfusion) rfl hl hrun
  · simp only [eval, EStateM.run_bind, hrun]
    exact .failed he

theorem settles_ifThen {a b c : Tree} (op : Relop) (ha : Shape.Expr a) (hb : Shape.Expr b)
    {m : Machine} (hc : Settles c m (c.eval.run m)) :
    Settles (.ifThen (.compare op a b) c) m ((eval (.ifThen (.compare op a b) c)).run m) := by
  have hcomparison : isComparison (.compare op a b) = true := rfl
  rcases calculates_compare op ha hb m with ⟨v, hrun, holds, rfl⟩ | ⟨e, hrun, he⟩
  · rw [eval]
    simp only [hcomparison, if_true, EStateM.run_bind, hrun]
    -- the condition left the machine alone, so the statement behind it is all that can act
    cases holds with
    | true => exact hc.behind hrun
    | false => exact .idle (.inl (.here hrun))
  · rw [eval]
    simp only [hcomparison, if_true, EStateM.run_bind, hrun]
    exact .failed he

theorem settles_of_statement {a : Tree} (h : Shape.Statement a) (m : Machine) :
    Settles a m (a.eval.run m) := by
  induction h with
  | expr ha => exact settles_expr ha m
  | print hitems => exact settles_print hitems m
  | ifThen op ha hb _ ih => exact settles_ifThen op ha hb ih
  | assign hx ha => exact settles_assign hx ha m
  | goto | gosub | input | ret | clear | listAll | listLine | run | finish =>
      -- control flow is read, but there is nothing to run it on
      rw [eval]
      exact .idle (.inr rfl)

theorem settles_of_line {a : Tree} (h : Shape.Line a) (m : Machine) :
    Settles a m (a.eval.run m) := by
  cases h with
  | plain hstatement => exact settles_of_statement hstatement m
  | numbered =>
      -- a line with a number is never evaluated, whatever stands behind the number
      rw [eval]
      exact .idle (.inr rfl)

end Evaluation
end TinyBasic
