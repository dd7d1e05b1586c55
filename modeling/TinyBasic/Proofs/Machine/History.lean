import TinyBasic.Proofs.Machine.Evaluation

/-!
# History — the variables behind any accesses

A history is a list of accesses to the variables by name, from the first to the last. It starts with
all variables at zero, and `behind` gives the variables at its end.

Whatever the history, the variables are a total map from letters to words: a letter has the word
that was assigned to it last, or zero, and any other name is refused without a trace
(`letters_keep_last_assignment`).
-/

namespace TinyBasic

open Evaluation

/-! ## Letters and their names -/

namespace Letter

theorem isUpper_toChar (l : Letter) : l.toChar.isUpper = true := by
  decide +revert

theorem toChar_injective : Function.Injective toChar := by
  decide

theorem eq_toString_of_ofName? {name : String} {l : Letter} (h : ofName? name = some l) :
    name = l.toChar.toString := by
  simp only [ofName?] at h
  split at h
  case h_1 c hname =>
    have hc : l.toChar = c := by simpa using List.find?_some h
    rw [hc]
    exact String.toList_inj.1 (by simp [hname])
  case h_2 => cases h

/-- A name stands for a letter exactly if it is that letter alone. -/
theorem ofName?_eq_some_iff {name : String} {l : Letter} :
    ofName? name = some l ↔ name = l.toChar.toString := by
  refine ⟨eq_toString_of_ofName?, ?_⟩
  rintro rfl
  -- the name is a letter, so it stands for some letter, and for no other than this one
  have hletter : Shape.IsLetter l.toChar.toString := ⟨l.toChar, l.isUpper_toChar, by simp⟩
  rcases ofName?_of_isLetter hletter with ⟨k, hk⟩
  have hsame : l.toChar = k.toChar := by
    simpa using congrArg String.toList (eq_toString_of_ofName? hk)
  rw [hk, toChar_injective hsame]

theorem ofName?_eq_none_iff {name : String} :
    ofName? name = none ↔ ¬ Shape.IsLetter name := by
  rw [Option.eq_none_iff_forall_ne_some, ← not_exists, not_iff_not]
  refine ⟨?_, ofName?_of_isLetter⟩
  rintro ⟨l, hl⟩
  exact ⟨l.toChar, l.isUpper_toChar, by simp [ofName?_eq_some_iff.1 hl]⟩

end Letter

namespace History

/-! ## Accesses -/

/-- An access to the variables by name. -/
inductive Access where
  | get (name : String)
  | set (name : String) (n : Word)
  deriving DecidableEq, Repr

namespace Access

/-- The name that is accessed. -/
def name : Access → String
  | get x => x
  | set x _ => x

/-- Performs the access on variables that it may change. Only `get` has an answer. -/
def perform : Access → EStateM EvalError Variables (Option Word)
  | get x => do
      return some (← ofExcept ((← EStateM.get).get x))
  | set x n => do
      EStateM.set (← ofExcept ((← EStateM.get).set x n))
      return none

/-- The variables after the access, which may have failed. -/
def after (v : Variables) (a : Access) : Variables :=
  match a.perform.run v with
  | .ok _ w => w
  | .error _ w => w

/-- The word that the access is to assign to the letter `c`. -/
def assigned? (c : Char) : Access → Option Word
  | get _ => none
  | set x n => if x = c.toString then some n else none

variable {x : String} {l : Letter}

theorem run_get_of_some (h : Letter.ofName? x = some l) (v : Variables) :
    (get x).perform.run v = .ok (some (v.read l)) v := by
  simp only [perform, EStateM.run_bind, run_get, Variables.get, h, run_ofExcept_ok,
    EStateM.run_pure]

theorem run_set_of_some (h : Letter.ofName? x = some l) (n : Word) (v : Variables) :
    (set x n).perform.run v = .ok none (v.write l n) := by
  simp only [perform, EStateM.run_bind, run_get, Variables.set, h, run_ofExcept_ok]
  rfl

/-- A name that is no letter is refused, and the variables stay as they are. -/
theorem run_of_none (a : Access) (h : Letter.ofName? a.name = none) (v : Variables) :
    a.perform.run v = .error (.undefinedVariable a.name) v := by
  cases a with
  | get x =>
      rw [name] at h ⊢
      simp only [perform, EStateM.run_bind, run_get, Variables.get, h, run_ofExcept_error]
  | set x n =>
      rw [name] at h ⊢
      simp only [perform, EStateM.run_bind, run_get, Variables.set, h, run_ofExcept_error]

theorem exists_run_of_some (a : Access) (h : Letter.ofName? a.name = some l) (v : Variables) :
    ∃ answer w, a.perform.run v = .ok answer w := by
  cases a with
  | get x => exact ⟨some (v.read l), v, run_get_of_some h v⟩
  | set x n => exact ⟨none, v.write l n, run_set_of_some h n v⟩

/-- An access fails exactly if its name is no letter. The error has the name, and nothing is
changed. -/
theorem run_eq_error_iff {a : Access} {e : EvalError} {v w : Variables} :
    a.perform.run v = .error e w ↔
      ¬ Shape.IsLetter a.name ∧ e = .undefinedVariable a.name ∧ w = v := by
  rw [← Letter.ofName?_eq_none_iff]
  cases hl : Letter.ofName? a.name with
  | none =>
      rw [run_of_none a hl, EStateM.Result.error.injEq]
      simp only [true_and, eq_comm]
  | some l =>
      rcases exists_run_of_some a hl v with ⟨answer, w', hrun⟩
      -- a name that is a letter is never refused
      rw [hrun]
      simp only [reduceCtorEq, false_and]

theorem after_get (x : String) (v : Variables) : after v (get x) = v := by
  cases h : Letter.ofName? x with
  | none => rw [after, run_of_none (get x) h]
  | some l => rw [after, run_get_of_some h]

/-- One access: a letter has the word that was just assigned to it, or keeps its value. -/
theorem read_after (v : Variables) (a : Access) (l : Letter) :
    (after v a).read l = (a.assigned? l.toChar).getD (v.read l) := by
  cases a with
  | get x => rw [after_get, assigned?, Option.getD_none]
  | set x n =>
      simp only [assigned?, ← Letter.ofName?_eq_some_iff]
      cases hx : Letter.ofName? x with
      | none =>
          rw [after, run_of_none (set x n) hx, if_neg (Option.some_ne_none l).symm,
            Option.getD_none]
      | some k =>
          rw [after, run_set_of_some hx]
          by_cases hkl : k = l
          · rw [hkl, if_pos rfl, Option.getD_some, Variables.read_write_self]
          · have hne : some k ≠ some l := fun h => hkl (Option.some.inj h)
            rw [if_neg hne, Option.getD_none, Variables.read_write_of_ne v n hkl]

end Access

/-! ## Histories -/

/-- The variables behind a history of accesses, successful or not. They start at zero. -/
def behind (h : List Access) : Variables :=
  h.foldl Access.after ∅

/-- The word that was assigned to the letter `c` last, zero if there was none. No assignment to a
letter fails. -/
def lastAssigned (h : List Access) (c : Char) : Word :=
  (h.filterMap (Access.assigned? c)).getLast?.getD 0

theorem lastAssigned_concat (h : List Access) (a : Access) (c : Char) :
    lastAssigned (h ++ [a]) c = (a.assigned? c).getD (lastAssigned h c) := by
  simp only [lastAssigned, List.filterMap_append, List.filterMap_cons, List.filterMap_nil]
  cases a.assigned? c with
  | none => simp
  | some n => simp

/-- All accesses of a history: a letter has the word that was assigned to it last. -/
theorem read_behind (h : List Access) (l : Letter) :
    (behind h).read l = lastAssigned h l.toChar := by
  -- from the end, where the last assignment is found
  induction h using List.reverseRecOn with
  | nil => exact Variables.read_empty l
  | append_singleton h a ih =>
      calc
        (behind (h ++ [a])).read l
            = (Access.after (behind h) a).read l := by
              rw [behind, List.foldl_concat, ← behind]
        _ = (a.assigned? l.toChar).getD ((behind h).read l) := Access.read_after _ a l
        _ = lastAssigned (h ++ [a]) l.toChar := by
              rw [ih, lastAssigned_concat]

/-! ## Listings -/

/-- The letters that are variables, in alphabetical order. -/
def alphabet : List Char :=
  "ABCDEFGHIJKLMNOPQRSTUVWXYZ".toList

theorem map_toChar_all : Letter.all.map Letter.toChar = alphabet := by
  decide

theorem toList_behind (h : List Access) :
    (behind h).toList = alphabet.map fun c => (c, lastAssigned h c) := by
  rw [← map_toChar_all, List.map_map]
  refine List.map_congr_left ?_
  intro l _
  rw [read_behind, Function.comp_apply]

theorem nonzero_behind (h : List Access) :
    (behind h).nonzero =
      (alphabet.filter fun c => lastAssigned h c ≠ 0).map fun c => (c, lastAssigned h c) := by
  rw [Variables.nonzero, toList_behind, List.filter_map]
  rfl

theorem behind_eq_empty_iff (h : List Access) :
    behind h = ∅ ↔ ∀ c, c.isUpper = true → lastAssigned h c = 0 := by
  refine ⟨?_, ?_⟩
  · intro hempty c hc
    rcases exists_letter hc with ⟨l, rfl⟩
    rw [← read_behind, hempty]
    exact Variables.read_empty l
  · intro hzero
    refine Variables.ext_read ?_
    intro l
    rw [read_behind, hzero l.toChar l.isUpper_toChar]
    exact (Variables.read_empty l).symm

/-! ## The map from letters to words -/

/-- The variables are a total map from letters to words, behind any history. An access fails exactly
if its name is not a single capital letter, with an error that has this name, and then it changes
nothing. Reading a letter gives the word that was assigned to it last, or zero, and changes nothing
either. The listing has all letters in alphabetical order with these words, and the summary shows
those of them that are not zero. The variables are as new exactly if all these words are zero. -/
theorem letters_keep_last_assignment (h : List Access) :
    (∀ (a : Access) (e : EvalError) (v : Variables),
      a.perform.run (behind h) = .error e v ↔
        ¬ Shape.IsLetter a.name ∧ e = .undefinedVariable a.name ∧ v = behind h) ∧
    (∀ c : Char, c.isUpper = true →
      (Access.get c.toString).perform.run (behind h) =
        .ok (some (lastAssigned h c)) (behind h)) ∧
    (behind h).toList = (alphabet.map fun c => (c, lastAssigned h c)) ∧
    (behind h).summary =
      "\x7b" ++
        ", ".intercalate
          ((alphabet.filter fun c => lastAssigned h c ≠ 0).map fun c =>
            "'" ++ c.toString ++ "': " ++ Decimal.ofInt (lastAssigned h c).toInt) ++
        "\x7d" ∧
    (behind h = ∅ ↔ ∀ c : Char, c.isUpper = true → lastAssigned h c = 0) := by
  refine ⟨fun a e v => Access.run_eq_error_iff, ?_, toList_behind h, ?_, behind_eq_empty_iff h⟩
  · intro c hc
    rcases exists_letter hc with ⟨l, rfl⟩
    rw [Access.run_get_of_some (Letter.ofName?_eq_some_iff.2 rfl), read_behind]
  · simp only [Variables.summary, nonzero_behind, List.map_map]
    rfl

/-- Only a name that is `A` alone reads and assigns it. -/
theorem letters_keep_last_assignment_names :
    'A'.isUpper = true ∧
    (Access.get "A").perform.run
        (behind [.set "A" 5, .set "A" (-7), .set "Á" 9, .set "AA" 1, .get "a"]) =
      .ok (some (-7))
        (behind [.set "A" 5, .set "A" (-7), .set "Á" 9, .set "AA" 1, .get "a"]) := by
  have hupper : 'A'.isUpper = true := by decide
  exact ⟨hupper, (letters_keep_last_assignment _).2.1 'A' hupper⟩

end History
end TinyBasic
