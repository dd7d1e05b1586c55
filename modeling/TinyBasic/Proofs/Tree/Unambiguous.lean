import Mathlib
import TinyBasic.Tree.Render

/-!
# Unambiguous — a shown tree can be told from all others

Names and strings are shown as they are, with nothing to mark a comma or a bracket inside them. As
long as none of them contains a closing parenthesis, this does no harm: two trees that are shown
alike are the same tree.

`Delimited f P x` carries the proof: the text of `x` shows where it ends, so that it can be told
from that of any other value of `P`, whatever stands behind the two. The parenthesis behind its name
tells the kind of a tree (`kind_and_inside`), and what is inside is put together from parts that are
delimited themselves.
-/

namespace TinyBasic

/-- Numbers that are written alike are equal. -/
theorem Decimal.ofInt_injective : Function.Injective Decimal.ofInt := by
  have hnat : ∀ {m n : Nat}, Decimal.ofNat m = Decimal.ofNat n → m = n := by
    intro m n h
    rw [← Decimal.toNat_ofNat m, h, Decimal.toNat_ofNat]
  -- digits are never taken for a sign
  have hsign : ∀ m n : Nat, "-" ++ Decimal.ofNat m ≠ Decimal.ofNat n := by
    intro m n h
    have hmem : '-' ∈ (Decimal.ofNat n).toList := by
      rw [← h]
      simp
    exact absurd (Decimal.isDigit_of_mem_ofNat hmem) (by decide)
  intro m n h
  simp only [Decimal.ofInt] at h
  split at h <;> split at h
  · have habs := hnat (String.append_right_inj _ |>.1 h)
    omega
  · exact absurd h (hsign _ _)
  · exact absurd h.symm (hsign _ _)
  · have habs := hnat h
    omega

/-- A written number holds no parenthesis. -/
theorem Decimal.paren_notMem_ofInt (n : Int) : ')' ∉ (Decimal.ofInt n).toList := by
  have hdigits : ∀ m : Nat, ')' ∉ (Decimal.ofNat m).toList :=
    fun m h => absurd (Decimal.isDigit_of_mem_ofNat h) (by decide)
  simp only [Decimal.ofInt]
  split
  case isTrue => simpa using hdigits n.natAbs
  case isFalse => exact hdigits n.natAbs

namespace Tree

/-! ## Names and strings -/

mutual

/-- All names and strings in the tree. -/
def texts : Tree → List String
  | var x | text x => [x]
  | neg a | goto a | gosub a | listLine a | numbered _ a => a.texts
  | arith _ a b | compare _ a b | ifThen a b => a.texts ++ b.texts
  | print items => itemTexts items
  | input names => names
  | assign x a => x :: a.texts
  | num _ | ret | clear | listAll | run | finish => []

/-- All names and strings in the trees of a list. -/
def itemTexts : List Tree → List String
  | [] => []
  | a :: as => a.texts ++ itemTexts as

end

/-- No name and no string in the tree contains a closing parenthesis. -/
def Plain (a : Tree) : Prop :=
  ∀ x ∈ a.texts, ')' ∉ x.toList

instance (a : Tree) : Decidable a.Plain :=
  inferInstanceAs (Decidable (∀ x ∈ a.texts, ')' ∉ x.toList))

/-! ## Kinds -/

/-- The kinds of tree that have names of their own. -/
inductive Kind where
  | num
  | var
  | text
  | neg
  | arith (op : ArithOp)
  | compare (op : Relop)
  | print
  | ifThen
  | goto
  | gosub
  | input
  | assign
  | ret
  | clear
  | list
  | run
  | finish
  | numbered
  deriving DecidableEq, Repr

/-- The kind of a tree; a listing is of one kind with a line or without. -/
def kind : Tree → Kind
  | num _ => .num
  | var _ => .var
  | text _ => .text
  | neg _ => .neg
  | arith op _ _ => .arith op
  | compare op _ _ => .compare op
  | print _ => .print
  | ifThen _ _ => .ifThen
  | goto _ => .goto
  | gosub _ => .gosub
  | input _ => .input
  | assign _ _ => .assign
  | ret => .ret
  | clear => .clear
  | listAll => .list
  | listLine _ => .list
  | run => .run
  | finish => .finish
  | numbered _ _ => .numbered

/-- The kind that a name stands for. -/
def Kind.ofName? : String → Option Kind
  | "Num" => some num
  | "Var" => some var
  | "String" => some text
  | "Neg" => some neg
  | "Add" => some (arith .add)
  | "Sub" => some (arith .sub)
  | "Mul" => some (arith .mul)
  | "Div" => some (arith .div)
  | "Equal" => some (compare .equal)
  | "NotEqual" => some (compare .notEqual)
  | "GreaterThan" => some (compare .greaterThan)
  | "GreaterOrEqualThan" => some (compare .greaterOrEqual)
  | "LessThan" => some (compare .lessThan)
  | "LessOrEqualThan" => some (compare .lessOrEqual)
  | "Print" => some print
  | "If" => some ifThen
  | "Goto" => some goto
  | "Gosub" => some gosub
  | "Input" => some input
  | "Let" => some assign
  | "Return" => some ret
  | "Clear" => some clear
  | "List" => some list
  | "Run" => some run
  | "End" => some finish
  | "LineNum" => some numbered
  | _ => none

theorem ofName?_kindName (a : Tree) : Kind.ofName? a.kindName = some a.kind := by
  cases a with
  | arith op _ _ => cases op <;> rfl
  | compare op _ _ => cases op <;> rfl
  | _ => rfl

/-- No two kinds go by one name. -/
theorem kind_eq_of_kindName {a b : Tree} (h : a.kindName = b.kindName) : a.kind = b.kind := by
  have ha := ofName?_kindName a
  rw [h, ofName?_kindName b] at ha
  exact (Option.some.inj ha).symm

theorem notMem_kindName (a : Tree) : ∀ c ∈ ['(', ')', ']'], c ∉ a.kindName.toList := by
  cases a with
  | arith op _ _ => cases op <;> simp [kindName, ArithOp.name]
  | compare op _ _ => cases op <;> simp [kindName, Relop.name]
  | _ => simp [kindName]

/-- What stands between the parentheses of a shown tree. -/
def inside : Tree → String
  | num n => Decimal.ofInt n.toInt
  | var x | text x => x
  | neg a | goto a | gosub a | listLine a => a.render
  | arith _ a b | compare _ a b | ifThen a b => a.render ++ ", " ++ b.render
  | print items => bracket (items.map render)
  | input names => bracket (names.map (wrap "Var"))
  | assign x a => wrap "String" x ++ ", " ++ a.render
  | ret | clear | listAll | run | finish => "None"
  | numbered n a => wrap "Num" (Decimal.ofInt n.toInt) ++ ", " ++ a.render

theorem render_eq_wrap (a : Tree) : a.render = wrap a.kindName a.inside := by
  cases a <;> simp only [render, kindName, inside, renderItems_eq_map]

end Tree

/-! ## Texts that show where they end -/

namespace Unambiguous

open TinyBasic.Tree

/-- The text of `x` is followed by the same as that of `y`, and `y` is `x`, wherever the two texts
with what follows them are equal. -/
def Delimited {α : Type} (f : α → String) (P : α → Prop) (x : α) : Prop :=
  ∀ y, P y → ∀ s t, (f x).toList ++ s = (f y).toList ++ t → x = y ∧ s = t

/-- The first marks behind two texts are found in one place, if neither is in the other text. -/
theorem append_cons_inj {α : Type} {c d : α} {u v s t : List α} (hu : d ∉ u) (hv : c ∉ v)
    (h : u ++ c :: s = v ++ d :: t) : u = v ∧ c = d ∧ s = t := by
  induction u generalizing v with
  | nil =>
      cases v with
      | nil => exact ⟨rfl, List.cons.inj h⟩
      | cons e v =>
          have he := (List.cons.inj h).1
          exact absurd (he ▸ List.mem_cons_self) hv
  | cons e u ih =>
      cases v with
      | nil =>
          have he := (List.cons.inj h).1
          exact absurd (he ▸ List.mem_cons_self) hu
      | cons f v =>
          rcases List.cons.inj h with ⟨rfl, htail⟩
          rcases ih (List.not_mem_of_not_mem_cons hu) (List.not_mem_of_not_mem_cons hv) htail with
            ⟨rfl, hrest⟩
          exact ⟨rfl, hrest⟩

theorem toList_wrap (name part : String) :
    (wrap name part).toList = name.toList ++ '(' :: (part.toList ++ [')']) := by
  simp [wrap]

/-- A text between parentheses ends with the closing one, if it holds none. -/
theorem delimited_wrap (name : String) {x : String} (hx : ')' ∉ x.toList) :
    Delimited (wrap name) (fun y => ')' ∉ y.toList) x := by
  intro y hy s t h
  simp only [toList_wrap, List.append_assoc, List.cons_append, List.nil_append] at h
  have hinside := (List.cons.inj (List.append_cancel_left h)).2
  have hparts := append_cons_inj hx hy hinside
  exact ⟨String.toList_injective hparts.1, hparts.2.2⟩

/-- So does a number. -/
theorem delimited_number (name : String) (m : Word) :
    Delimited (fun n : Word => wrap name (Decimal.ofInt n.toInt)) (fun _ => True) m := by
  intro n _ s t h
  have hparts := delimited_wrap name (Decimal.paren_notMem_ofInt m.toInt) _
    (Decimal.paren_notMem_ofInt n.toInt) s t h
  exact ⟨Int64.toInt_inj.1 (Decimal.ofInt_injective hparts.1), hparts.2⟩

section Bracket

variable {α : Type} {f : α → String} {P : α → Prop}

/-- What follows an item inside brackets, with the items behind it. -/
def closing (f : α → String) : List α → List Char
  | [] => [']']
  | y :: ys => ',' :: ' ' :: ((f y).toList ++ closing f ys)

theorem toList_bracket_nil (f : α → String) :
    (bracket (([] : List α).map f)).toList = ['[', ']'] := by
  simp [bracket]

theorem toList_bracket_cons (f : α → String) (x : α) (xs : List α) :
    (bracket ((x :: xs).map f)).toList = '[' :: ((f x).toList ++ closing f xs) := by
  have htail : ∀ (x : α) (xs : List α),
      (", ".intercalate ((x :: xs).map f)).toList ++ [']'] = (f x).toList ++ closing f xs := by
    intro x xs
    induction xs generalizing x with
    | nil => simp [closing]
    | cons y ys ih =>
        have hy := ih y
        simp only [List.map_cons, String.toList_intercalate, List.intercalate_cons_cons,
          List.append_assoc] at hy ⊢
        rw [hy]
        rfl
  simp [bracket, ← htail]

theorem closing_inj {xs ys : List α} (hxs : ∀ x ∈ xs, Delimited f P x) (hys : ∀ y ∈ ys, P y)
    {s t : List Char} (h : closing f xs ++ s = closing f ys ++ t) : xs = ys ∧ s = t := by
  induction xs generalizing ys with
  | nil =>
      cases ys with
      | nil => exact ⟨rfl, (List.cons.inj h).2⟩
      | cons y ys => simp [closing] at h
  | cons x xs ih =>
      cases ys with
      | nil => simp [closing] at h
      | cons y ys =>
          simp only [closing, List.cons_append, List.append_assoc, List.cons.injEq,
            true_and] at h
          rw [List.forall_mem_cons] at hxs hys
          rcases hxs.1 y hys.1 _ _ h with ⟨rfl, hrest⟩
          rcases ih hxs.2 hys.2 hrest with ⟨rfl, rfl⟩
          exact ⟨rfl, rfl⟩

/-- A list in brackets is delimited if its items are, and if no item begins with the bracket. -/
theorem bracket_inj {xs ys : List α} (hhead : ∀ y s t, ']' :: s ≠ (f y).toList ++ t)
    (hxs : ∀ x ∈ xs, Delimited f P x) (hys : ∀ y ∈ ys, P y) {s t : List Char}
    (h : (bracket (xs.map f)).toList ++ s = (bracket (ys.map f)).toList ++ t) :
    xs = ys ∧ s = t := by
  cases xs with
  | nil =>
      cases ys with
      | nil => exact ⟨rfl, List.append_cancel_left h⟩
      | cons y ys =>
          -- the bracket that closes the one list is no beginning of an item of the other
          rw [toList_bracket_nil, toList_bracket_cons] at h
          simp only [List.cons_append, List.nil_append, List.append_assoc] at h
          exact absurd (List.cons.inj h).2 (hhead y _ _)
  | cons x xs =>
      cases ys with
      | nil =>
          rw [toList_bracket_nil, toList_bracket_cons] at h
          simp only [List.cons_append, List.nil_append, List.append_assoc] at h
          exact absurd (List.cons.inj h).2.symm (hhead x _ _)
      | cons y ys =>
          simp only [toList_bracket_cons, List.cons_append, List.append_assoc, List.cons.injEq,
            true_and] at h
          rw [List.forall_mem_cons] at hxs hys
          rcases hxs.1 y hys.1 _ _ h with ⟨rfl, hrest⟩
          rcases closing_inj hxs.2 hys.2 hrest with ⟨rfl, rfl⟩
          exact ⟨rfl, rfl⟩

end Bracket

/-! ## Trees -/

theorem toList_render (a : Tree) :
    a.render.toList = a.kindName.toList ++ '(' :: (a.inside.toList ++ [')']) := by
  rw [render_eq_wrap, toList_wrap]

/-- Of two trees that are shown alike the kinds are the same, and what is inside them is shown
alike. -/
theorem kind_and_inside {a b : Tree} {s t : List Char}
    (h : a.render.toList ++ s = b.render.toList ++ t) :
    a.kind = b.kind ∧ a.inside.toList ++ ')' :: s = b.inside.toList ++ ')' :: t := by
  simp only [toList_render, List.append_assoc, List.cons_append, List.nil_append] at h
  have hparts := append_cons_inj (notMem_kindName a '(' (by decide))
    (notMem_kindName b '(' (by decide)) h
  exact ⟨kind_eq_of_kindName (String.toList_injective hparts.1), hparts.2.2⟩

/-- A closing mark does not come before the first parenthesis of a shown tree. -/
theorem ne_render {c : Char} (hc : c ∈ [')', ']']) {u : List Char} (hu : '(' ∉ u) (a : Tree)
    (s t : List Char) : u ++ c :: s ≠ a.render.toList ++ t := by
  intro h
  rw [toList_render, List.append_assoc] at h
  have hparts := append_cons_inj hu (notMem_kindName a c (List.mem_cons_of_mem _ hc)) h
  exact absurd (hparts.2.1 ▸ hc) (by decide)

section Parts

variable {α β : Type} {f : α → String} {g : β → String} {P : α → Prop} {Q : β → Prop}

/-- One part, in front of the closing parenthesis. -/
theorem Delimited.single {x y : α} (hx : Delimited f P x) (hy : P y) {s t : List Char}
    (h : (f x).toList ++ ')' :: s = (f y).toList ++ ')' :: t) : x = y ∧ s = t := by
  rcases hx y hy _ _ h with ⟨rfl, hrest⟩
  exact ⟨rfl, (List.cons.inj hrest).2⟩

/-- Two parts with a comma between them, in front of the closing parenthesis. -/
theorem Delimited.pair {x y : α} {z w : β} (hx : Delimited f P x) (hy : P y)
    (hz : Delimited g Q z) (hw : Q w) {s t : List Char}
    (h : (f x ++ ", " ++ g z).toList ++ ')' :: s = (f y ++ ", " ++ g w).toList ++ ')' :: t) :
    (x = y ∧ z = w) ∧ s = t := by
  simp only [String.toList_append, List.append_assoc] at h
  rcases hx y hy _ _ h with ⟨rfl, hrest⟩
  rcases hz.single hw (List.append_cancel_left hrest) with ⟨rfl, rfl⟩
  exact ⟨⟨rfl, rfl⟩, rfl⟩

end Parts

theorem plain_items {as : List Tree} (h : ∀ x ∈ itemTexts as, ')' ∉ x.toList) :
    ∀ a ∈ as, a.Plain := by
  induction as with
  | nil => exact List.forall_mem_nil _
  | cons a as ih =>
      rcases List.forall_mem_append.1 h with ⟨ha, has⟩
      exact List.forall_mem_cons.2 ⟨ha, ih has⟩

/-- It is enough to compare a tree with those of its own kind, inside their parentheses. -/
theorem delimited_of_inside {a : Tree} (h : ∀ b, b.Plain → a.kind = b.kind → ∀ s t,
    a.inside.toList ++ ')' :: s = b.inside.toList ++ ')' :: t → a = b ∧ s = t) :
    Delimited render Plain a := by
  intro b hb s t hrender
  rcases kind_and_inside hrender with ⟨hkind, hinside⟩
  exact h b hb hkind s t hinside

theorem delimited_num (m : Word) : Delimited render Plain (num m) := by
  intro b _ s t h
  cases b with
  | num n =>
      rcases delimited_number "Num" m n trivial s t h with ⟨rfl, rfl⟩
      exact ⟨rfl, rfl⟩
  | _ => cases (kind_and_inside h).1

theorem delimited_var {x : String} (hx : (var x).Plain) : Delimited render Plain (var x) := by
  intro b hb s t h
  cases b with
  | var y =>
      have hname := delimited_wrap "Var" (hx x List.mem_cons_self)
      rcases hname y (hb y List.mem_cons_self) s t h with ⟨rfl, rfl⟩
      exact ⟨rfl, rfl⟩
  | _ => cases (kind_and_inside h).1

theorem delimited_text {x : String} (hx : (text x).Plain) : Delimited render Plain (text x) := by
  intro b hb s t h
  cases b with
  | text y =>
      have hname := delimited_wrap "String" (hx x List.mem_cons_self)
      rcases hname y (hb y List.mem_cons_self) s t h with ⟨rfl, rfl⟩
      exact ⟨rfl, rfl⟩
  | _ => cases (kind_and_inside h).1

theorem delimited_input {xs : List String} (hxs : (input xs).Plain) :
    Delimited render Plain (input xs) := by
  apply delimited_of_inside
  intro b hb hkind s t hinside
  cases b with
  | input ys =>
      -- a list that ends here is not taken for one that goes on with a name
      have hhead : ∀ (y : String) s t, ']' :: s ≠ (wrap "Var" y).toList ++ t := by
        intro y s t
        simp [wrap]
      have hnames := bracket_inj hhead (fun x hx => delimited_wrap "Var" (hxs x hx)) hb hinside
      exact ⟨congrArg input hnames.1, (List.cons.inj hnames.2).2⟩
  | _ => cases hkind

mutual

/-- A shown tree is delimited. -/
theorem delimited_render : ∀ a : Tree, a.Plain → Delimited render Plain a := by
  intro a ha
  match a, ha with
  | .num m, _ => exact delimited_num m
  | .var x, hx => exact delimited_var hx
  | .text x, hx => exact delimited_text hx
  | .input xs, hxs => exact delimited_input hxs
  | .ret, _ | .clear, _ | .run, _ | .finish, _ =>
      apply delimited_of_inside
      intro b _ hkind s t hinside
      cases b <;> cases hkind
      exact ⟨rfl, (List.cons.inj (List.append_cancel_left hinside)).2⟩
  | .neg a, ha | .goto a, ha | .gosub a, ha =>
      apply delimited_of_inside
      intro b hb hkind s t hinside
      cases b <;> cases hkind
      next b =>
        rcases (delimited_render a ha).single (y := b) hb hinside with ⟨rfl, rfl⟩
        exact ⟨rfl, rfl⟩
  | .listAll, _ =>
      apply delimited_of_inside
      intro b _ hkind s t hinside
      cases b with
      | listAll => exact ⟨rfl, (List.cons.inj (List.append_cancel_left hinside)).2⟩
      -- both listings go by one name, and the word `None` in the one is no tree of the other
      | listLine b => exact absurd hinside (ne_render (by decide) (by decide) b s _)
      | _ => cases hkind
  | .listLine a, ha =>
      apply delimited_of_inside
      intro b hb hkind s t hinside
      cases b with
      | listAll => exact absurd hinside.symm (ne_render (by decide) (by decide) a t _)
      | listLine b =>
          rcases (delimited_render a ha).single (y := b) hb hinside with ⟨rfl, rfl⟩
          exact ⟨rfl, rfl⟩
      | _ => cases hkind
  | .arith _ a c, h | .compare _ a c, h | .ifThen a c, h =>
      rcases List.forall_mem_append.1 h with ⟨ha, hc⟩
      apply delimited_of_inside
      intro b hb hkind s t hinside
      cases b <;> cases hkind
      next b d =>
        rcases List.forall_mem_append.1 hb with ⟨hb, hd⟩
        rcases (delimited_render a ha).pair (y := b) hb (delimited_render c hc) (w := d) hd hinside
          with ⟨⟨rfl, rfl⟩, rfl⟩
        exact ⟨rfl, rfl⟩
  | .assign x a, h =>
      rcases List.forall_mem_cons.1 h with ⟨hx, ha⟩
      apply delimited_of_inside
      intro b hb hkind s t hinside
      cases b with
      | assign y b =>
          rcases List.forall_mem_cons.1 hb with ⟨hy, hb⟩
          have hname := delimited_wrap "String" hx
          rcases hname.pair hy (delimited_render a ha) (w := b) hb hinside with ⟨⟨rfl, rfl⟩, rfl⟩
          exact ⟨rfl, rfl⟩
      | _ => cases hkind
  | .numbered m a, ha =>
      apply delimited_of_inside
      intro b hb hkind s t hinside
      cases b with
      | numbered n b =>
          have hnumber := delimited_number "Num" m
          rcases hnumber.pair (y := n) trivial (delimited_render a ha) (w := b) hb hinside with
            ⟨⟨rfl, rfl⟩, rfl⟩
          exact ⟨rfl, rfl⟩
      | _ => cases hkind
  | .print as, has =>
      apply delimited_of_inside
      intro b hb hkind s t hinside
      cases b with
      | print bs =>
          have hitems := bracket_inj (ne_render (by decide) List.not_mem_nil)
            (delimited_items as has) (plain_items hb) hinside
          exact ⟨congrArg print hitems.1, (List.cons.inj hitems.2).2⟩
      | _ => cases hkind

theorem delimited_items : ∀ as : List Tree, (∀ x ∈ itemTexts as, ')' ∉ x.toList) →
    ∀ a ∈ as, Delimited render Plain a := by
  intro as has
  match as, has with
  | [], _ => exact List.forall_mem_nil _
  | a :: as, has =>
      rcases List.forall_mem_append.1 has with ⟨ha, has⟩
      exact List.forall_mem_cons.2 ⟨delimited_render a ha, delimited_items as has⟩

end

/-- Two trees of any shape are shown alike only if they are the same tree, as long as no name and
no string in them contains a closing parenthesis. -/
theorem render_tells_trees_apart {a b : Tree} (ha : a.Plain) (hb : b.Plain) :
    a.render = b.render ↔ a = b := by
  constructor
  · intro h
    have htext : a.render.toList ++ [] = b.render.toList ++ [] := by
      rw [h]
    exact (delimited_render a ha b hb [] [] htext).1
  · rintro rfl
    rfl

/-- Commas, brackets and opening parentheses in a name do not let it pass for two names. -/
theorem render_tells_trees_apart_names :
    (input ["A, Var(B"]).Plain ∧ (input ["A", "B"]).Plain ∧
      (input ["A, Var(B"]).render ≠ (input ["A", "B"]).render := by
  have ha : (input ["A, Var(B"]).Plain := by decide
  have hb : (input ["A", "B"]).Plain := by decide
  exact ⟨ha, hb, mt (render_tells_trees_apart ha hb).1 (by simp)⟩

/-- A closing parenthesis does. -/
example : (input ["A), Var(B"]).render = (input ["A", "B"]).render := by
  decide

end Unambiguous
end TinyBasic
