import TinyBasic.Proofs.Machine.Evaluation

/-!
# Footprint — the letters that a tree touches

Evaluation looks at no letter but those in the tree, and changes no letter but those that the tree
assigns. This is so for all trees, also for those with statements where expressions are usual.

`Confined L T x` says it of a computation `x` by two runs side by side: on machines that agree on
the letters `L`, both come to the same result, print the same lines and agree on `L` again, and
neither run changes a letter outside `T`. Evaluation of a tree is confined to its letters and its
targets (`confined_eval`), because each of its steps is and confinement composes.
-/

namespace TinyBasic

/-! ## Letters in a tree -/

namespace Tree

mutual

/-- The tree and all that is inside it, whether it is evaluated or not. -/
def subtrees (a : Tree) : List Tree :=
  a :: match a with
    | neg b | goto b | gosub b | listLine b | assign _ b | numbered _ b => b.subtrees
    | arith _ b c | compare _ b c | ifThen b c => b.subtrees ++ c.subtrees
    | print items => itemSubtrees items
    | num _ | var _ | text _ | input _ | ret | clear | listAll | run | finish => []

/-- The trees of a list and all that is inside them. -/
def itemSubtrees : List Tree → List Tree
  | [] => []
  | a :: as => a.subtrees ++ itemSubtrees as

end

/-- The letter that the tree itself assigns. -/
def target? : Tree → Option Letter
  | assign x _ => Letter.ofName? x
  | _ => none

/-- The letter that the tree itself reads or assigns. -/
def letter? : Tree → Option Letter
  | var x => Letter.ofName? x
  | a => a.target?

/-- The letters that are assigned somewhere in the tree. -/
def targets (a : Tree) : List Letter :=
  a.subtrees.filterMap target?

/-- The letters that occur in the tree as a variable or as the target of an assignment. -/
def letters (a : Tree) : List Letter :=
  a.subtrees.filterMap letter?

theorem letter?_of_target? {a : Tree} {l : Letter} (h : a.target? = some l) :
    a.letter? = some l := by
  cases a with
  | assign x b => exact h
  | _ => cases h

theorem letters_of_targets {a : Tree} {l : Letter} (h : l ∈ a.targets) : l ∈ a.letters := by
  rcases List.mem_filterMap.1 h with ⟨b, hb, hl⟩
  exact List.mem_filterMap.2 ⟨b, hb, letter?_of_target? hl⟩

end Tree

namespace Printout

/-- The printout with some lines more. -/
def extend (out : Printout) (lines : List String) : Printout :=
  ⟨out.lines ++ lines⟩

@[simp] theorem extend_nil (out : Printout) : out.extend [] = out := by
  simp [extend]

@[simp] theorem extend_extend (out : Printout) (ls ks : List String) :
    (out.extend ls).extend ks = out.extend (ls ++ ks) := by
  simp [extend]

end Printout

namespace Footprint

open Evaluation

/-! ## Agreement -/

/-- The letters `L` have the same values in both. -/
def AgreeOn (L : List Letter) (v w : Variables) : Prop :=
  ∀ l ∈ L, v.read l = w.read l

/-- All letters but those of `T` have the same values in both. -/
def AgreeOff (T : List Letter) (v w : Variables) : Prop :=
  ∀ l, l ∉ T → v.read l = w.read l

instance (L : List Letter) (v w : Variables) : Decidable (AgreeOn L v w) :=
  inferInstanceAs (Decidable (∀ l ∈ L, v.read l = w.read l))

theorem AgreeOn.refl (L : List Letter) (v : Variables) : AgreeOn L v v :=
  fun _ _ => rfl

theorem AgreeOff.refl (T : List Letter) (v : Variables) : AgreeOff T v v :=
  fun _ _ => rfl

theorem AgreeOff.trans {T : List Letter} {u v w : Variables} (huv : AgreeOff T u v)
    (hvw : AgreeOff T v w) : AgreeOff T u w :=
  fun l hl => (huv l hl).trans (hvw l hl)

theorem AgreeOn.write {L : List Letter} {v w : Variables} (h : AgreeOn L v w) (k : Letter)
    (n : Word) : AgreeOn L (v.write k n) (w.write k n) := by
  intro l hl
  by_cases hk : k = l
  · subst hk
    rw [Variables.read_write_self, Variables.read_write_self]
  · rw [Variables.read_write_of_ne v n hk, Variables.read_write_of_ne w n hk]
    exact h l hl

theorem AgreeOff.write {T : List Letter} {k : Letter} (hk : k ∈ T) (v : Variables) (n : Word) :
    AgreeOff T (v.write k n) v := by
  intro l hl
  have hne : k ≠ l := fun he => hl (he ▸ hk)
  exact Variables.read_write_of_ne v n hne

/-! ## Confinement -/

/-- The result of a computation that came to `r` and left the machine `m`. -/
def conclude {ε α : Type} (r : Except ε α) (m : Machine) : EStateM.Result ε Machine α :=
  match r with
  | .ok v => .ok v m
  | .error e => .error e m

/-- Two runs of the computation on machines that agree on the letters `L` come to the same and print
the same. They leave machines that agree on `L` again, and only the letters of `T` are changed. -/
def Confined {ε α : Type} (L T : List Letter) (x : EStateM ε Machine α) : Prop :=
  ∀ m n : Machine, AgreeOn L m.memory n.memory →
    ∃ (r : Except ε α) (lines : List String) (v w : Variables),
      x.run m = conclude r ⟨v, m.printed.extend lines⟩ ∧
      x.run n = conclude r ⟨w, n.printed.extend lines⟩ ∧
      AgreeOn L v w ∧ AgreeOff T v m.memory ∧ AgreeOff T w n.memory

section Confined

variable {ε α β : Type} {L T : List Letter}

/-- A computation that leaves its machine alone is confined if it comes to the same wherever the
letters have the same values. -/
theorem confined_of_still {x : EStateM ε Machine α}
    (h : ∀ m n : Machine, AgreeOn L m.memory n.memory →
      ∃ r, x.run m = conclude r m ∧ x.run n = conclude r n) : Confined L T x := by
  intro m n hagree
  rcases h m n hagree with ⟨r, hm, hn⟩
  refine ⟨r, [], m.memory, n.memory, ?_, ?_, hagree, .refl T _, .refl T _⟩
  · rw [hm, Printout.extend_nil]
  · rw [hn, Printout.extend_nil]

theorem confined_ofExcept (r : Except ε α) :
    Confined L T (ofExcept r : EStateM ε Machine α) := by
  refine confined_of_still ?_
  intro m n _
  cases r with
  | ok v => exact ⟨.ok v, rfl, rfl⟩
  | error e => exact ⟨.error e, rfl, rfl⟩

theorem confined_pure (v : α) : Confined L T (pure v : EStateM ε Machine α) :=
  confined_ofExcept (.ok v)

theorem confined_throw (e : ε) : Confined L T (throw e : EStateM ε Machine α) :=
  confined_ofExcept (.error e)

theorem Confined.bind {x : EStateM ε Machine α} {f : α → EStateM ε Machine β}
    (hx : Confined L T x) (hf : ∀ u, Confined L T (f u)) : Confined L T (x >>= f) := by
  intro m n hagree
  rcases hx m n hagree with ⟨r, lines, v, w, hm, hn, hvw, hv, hw⟩
  simp only [EStateM.run_bind, hm, hn]
  cases r with
  -- both runs are cut short at the same place
  | error e => exact ⟨.error e, lines, v, w, rfl, rfl, hvw, hv, hw⟩
  -- both runs go on, on machines that agree again
  | ok u =>
      rcases hf u ⟨v, m.printed.extend lines⟩ ⟨w, n.printed.extend lines⟩ hvw with
        ⟨r, more, v', w', hm', hn', hvw', hv', hw'⟩
      rw [Printout.extend_extend] at hm' hn'
      exact ⟨r, lines ++ more, v', w', hm', hn', hvw', hv'.trans hv, hw'.trans hw⟩

theorem Confined.adaptExcept {ε' : Type} {x : EStateM ε Machine α} (hx : Confined L T x)
    (f : ε → ε') : Confined L T (x.adaptExcept f) := by
  intro m n hagree
  rcases hx m n hagree with ⟨r, lines, v, w, hm, hn, hvw, hv, hw⟩
  refine ⟨r.mapError f, lines, v, w, ?_, ?_, hvw, hv, hw⟩
  · rw [EStateM.run_adaptExcept, hm]
    cases r <;> rfl
  · rw [EStateM.run_adaptExcept, hn]
    cases r <;> rfl

end Confined

/-! ## Access to the machine -/

section Access

variable {L T : List Letter}

/-- A name that is no letter cannot be read. -/
theorem run_readVariable_of_none {x : String} (h : Letter.ofName? x = none) (m : Machine) :
    (Machine.readVariable x).run m = .error (.undefinedVariable x) m := by
  simp only [Machine.readVariable, EStateM.run_bind, run_get, Variables.get, h, run_ofExcept_error]

/-- A name that is no letter cannot be assigned, and nothing is changed. -/
theorem run_assign_of_none {x : String} (h : Letter.ofName? x = none) (k : Word) (m : Machine) :
    (Machine.assign x k).run m = .error (.undefinedVariable x) m := by
  simp only [Machine.assign, EStateM.run_bind, run_get, Variables.set, h, run_ofExcept_error]

theorem confined_readVariable {x : String} (hx : ∀ l ∈ Letter.ofName? x, l ∈ L) :
    Confined L T (Machine.readVariable x) := by
  refine confined_of_still ?_
  intro m n hagree
  cases hl : Letter.ofName? x with
  | some l =>
      refine ⟨.ok (m.memory.read l), run_readVariable hl m, ?_⟩
      rw [hagree l (hx l hl)]
      exact run_readVariable hl n
  | none =>
      exact ⟨.error (.undefinedVariable x), run_readVariable_of_none hl m,
        run_readVariable_of_none hl n⟩

theorem confined_assign {x : String} (hx : ∀ l ∈ Letter.ofName? x, l ∈ T) (k : Word) :
    Confined L T (Machine.assign x k) := by
  cases hl : Letter.ofName? x with
  | some l =>
      intro m n hagree
      refine ⟨.ok (), [], m.memory.write l k, n.memory.write l k, ?_, ?_, hagree.write l k,
        .write (hx l hl) _ k, .write (hx l hl) _ k⟩
      · rw [run_assign hl, Printout.extend_nil]
        rfl
      · rw [run_assign hl, Printout.extend_nil]
        rfl
  | none =>
      refine confined_of_still ?_
      intro m n _
      exact ⟨.error (.undefinedVariable x), run_assign_of_none hl k m, run_assign_of_none hl k n⟩

theorem confined_println (line : String) : Confined L T (Machine.println line) := by
  intro m n hagree
  exact ⟨.ok (), [line], m.memory, n.memory, rfl, rfl, hagree, .refl T _, .refl T _⟩

end Access

/-! ## Evaluation -/

/-- What the tree itself reads is among the letters `L`, and what it assigns is among `T`. -/
def Touches (L T : List Letter) (a : Tree) : Prop :=
  (∀ l ∈ a.letter?, l ∈ L) ∧ ∀ l ∈ a.target?, l ∈ T

section Evaluation

variable {L T : List Letter}

mutual

theorem confined_eval : ∀ a : Tree, (∀ b ∈ a.subtrees, Touches L T b) → Confined L T a.eval := by
  intro a h
  match a, h with
  | .num _, _ | .text _, _ | .goto _, _ | .gosub _, _ | .input _, _ | .ret, _ | .clear, _
  | .listAll, _ | .listLine _, _ | .run, _ | .finish, _ | .numbered _ _, _ =>
      -- whatever is inside is not evaluated
      rw [Tree.eval]
      exact confined_pure _
  | .var x, h =>
      rcases List.forall_mem_cons.1 h with ⟨hself, -⟩
      rw [Tree.eval]
      exact (confined_readVariable hself.1).bind fun _ => confined_pure _
  | .neg a, h =>
      rcases List.forall_mem_cons.1 h with ⟨-, ha⟩
      rw [Tree.eval]
      exact (confined_eval a ha).bind fun _ => confined_ofExcept _
  | .arith op a b, h =>
      rcases List.forall_mem_cons.1 h with ⟨-, hparts⟩
      rcases List.forall_mem_append.1 hparts with ⟨ha, hb⟩
      rw [Tree.eval]
      refine (confined_eval a ha).bind fun _ => ?_
      exact (confined_eval b hb).bind fun _ => confined_ofExcept _
  | .compare op a b, h =>
      rcases List.forall_mem_cons.1 h with ⟨-, hparts⟩
      rcases List.forall_mem_append.1 hparts with ⟨ha, hb⟩
      rw [Tree.eval]
      refine (confined_eval a ha).bind fun _ => ?_
      exact (confined_eval b hb).bind fun _ => confined_ofExcept _
  | .print items, h =>
      rcases List.forall_mem_cons.1 h with ⟨-, hitems⟩
      rw [Tree.eval]
      refine (confined_evalItems items hitems).bind fun texts => ?_
      exact (confined_println (String.join texts)).bind fun _ => confined_pure _
  | .ifThen condition consequence, h =>
      rcases List.forall_mem_cons.1 h with ⟨-, hparts⟩
      rcases List.forall_mem_append.1 hparts with ⟨hcondition, hconsequence⟩
      rw [Tree.eval]
      split
      case isTrue =>
        refine (confined_eval condition hcondition).bind fun v => ?_
        split
        case isTrue => exact confined_eval consequence hconsequence
        case isFalse => exact confined_pure _
      case isFalse => exact confined_throw _
  | .assign x a, h =>
      rcases List.forall_mem_cons.1 h with ⟨hself, ha⟩
      rw [Tree.eval]
      refine (confined_eval a ha).bind fun v => ?_
      refine (confined_ofExcept v.asInt).bind fun n => ?_
      exact (confined_assign hself.2 n).bind fun _ => confined_pure _

theorem confined_evalItems : ∀ items : List Tree,
    (∀ b ∈ Tree.itemSubtrees items, Touches L T b) → Confined L T (Tree.evalItems items) := by
  intro items h
  match items with
  | [] =>
      rw [Tree.evalItems]
      exact confined_pure _
  | a :: items =>
      rcases List.forall_mem_append.1 h with ⟨ha, hitems⟩
      rw [Tree.evalItems]
      refine (confined_eval a ha).bind fun _ => ?_
      exact (confined_evalItems items hitems).bind fun _ => confined_pure _

end

end Evaluation

theorem touches_subtree {a b : Tree} (hb : b ∈ a.subtrees) : Touches a.letters a.targets b :=
  ⟨fun _ hl => List.mem_filterMap.2 ⟨b, hb, hl⟩, fun _ hl => List.mem_filterMap.2 ⟨b, hb, hl⟩⟩

theorem confined_tree (a : Tree) : Confined a.letters a.targets a.eval :=
  confined_eval a fun _ => touches_subtree

/-- Evaluation reads and writes only the letters that a tree names. On two machines that agree on
them it comes to the same, prints the same behind what is there, and leaves them in agreement; and
each machine keeps the letters that are not assigned in the tree. -/
theorem eval_touches_only_letters (a : Tree) (m n : Machine)
    (h : AgreeOn a.letters m.memory n.memory) :
    ∃ (r : Except EvalError Value) (lines : List String) (v w : Variables),
      a.eval.run m = conclude r ⟨v, m.printed.extend lines⟩ ∧
      a.eval.run n = conclude r ⟨w, n.printed.extend lines⟩ ∧
      AgreeOn a.letters v w ∧
      AgreeOff a.targets v m.memory ∧ AgreeOff a.targets w n.memory :=
  confined_tree a m n h

/-- An assignment inside a `PRINT` whose next item fails, on machines that differ in `Z`. -/
theorem eval_touches_only_letters_leak :
    AgreeOn [1, 0, 2] (Variables.empty.write 25 7) ∅ ∧
    ∃ (r : Except EvalError Value) (lines : List String) (v w : Variables),
      (Tree.print [.assign "B" (.var "A"), .arith .div (.num 1) (.var "C")]).eval.run
        ⟨Variables.empty.write 25 7, ∅⟩ = conclude r ⟨v, Printout.extend ∅ lines⟩ ∧
      (Tree.print [.assign "B" (.var "A"), .arith .div (.num 1) (.var "C")]).eval.run
        {} = conclude r ⟨w, Printout.extend ∅ lines⟩ ∧
      AgreeOn [1, 0, 2] v w ∧ AgreeOff [1] v (Variables.empty.write 25 7) ∧ AgreeOff [1] w ∅ := by
  have hagree : AgreeOn [1, 0, 2] (Variables.empty.write 25 7) ∅ := by decide
  exact ⟨hagree, eval_touches_only_letters
    (.print [.assign "B" (.var "A"), .arith .div (.num 1) (.var "C")])
    ⟨Variables.empty.write 25 7, ∅⟩ {} hagree⟩

end Footprint
end TinyBasic
