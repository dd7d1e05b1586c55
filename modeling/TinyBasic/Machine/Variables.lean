import TinyBasic.Value

/-!
# Variables — the twenty-six letters

The memory of the language is one integer for each letter from `A` to `Z`, and every one of them
is zero to begin with. A name is a variable only if it is exactly one of these letters.
-/

namespace TinyBasic

/-- The letters from `A` to `Z` by their place in the alphabet. -/
abbrev Letter := Fin 26

namespace Letter

/-- The letters in alphabetical order. -/
def all : List Letter :=
  List.finRange 26

/-- The letter as a character. -/
def toChar (l : Letter) : Char :=
  Char.ofNat ('A'.toNat + l.val)

/-- The letter that a name consists of. -/
def ofName? (name : String) : Option Letter :=
  match name.toList with
  | [c] => all.find? fun l => l.toChar == c
  | _ => none

end Letter

/-- The value of each letter. -/
structure Variables where
  slots : Vector Word 26
  deriving DecidableEq, Repr

namespace Variables

/-- All variables at zero. -/
def empty : Variables :=
  ⟨Vector.replicate 26 0⟩

instance : EmptyCollection Variables := ⟨empty⟩

instance : Inhabited Variables := ⟨empty⟩

/-- The value of a letter. -/
def read (v : Variables) (l : Letter) : Word :=
  v.slots[l.val]

/-- The variables with one letter changed. -/
def write (v : Variables) (l : Letter) (n : Word) : Variables :=
  ⟨v.slots.set l.val n l.isLt⟩

/-- The value of the variable with this name. -/
def get (v : Variables) (name : String) : Except EvalError Word :=
  match Letter.ofName? name with
  | some l => .ok (v.read l)
  | none => .error (.undefinedVariable name)

/-- The variables after an assignment to this name. -/
def set (v : Variables) (name : String) (n : Word) : Except EvalError Variables :=
  match Letter.ofName? name with
  | some l => .ok (v.write l n)
  | none => .error (.undefinedVariable name)

/-- Every letter with its value, in alphabetical order. -/
def toList (v : Variables) : List (Char × Word) :=
  Letter.all.map fun l => (l.toChar, v.read l)

/-- The letters whose value is not zero, in alphabetical order. -/
def nonzero (v : Variables) : List (Char × Word) :=
  v.toList.filter fun entry => entry.2 ≠ 0

/-- A summary of the variables that are not zero, with each letter quoted. -/
def summary (v : Variables) : String :=
  let entries := v.nonzero.map fun (letter, n) =>
    "'" ++ letter.toString ++ "': " ++ Decimal.ofInt n.toInt
  "\x7b" ++ ", ".intercalate entries ++ "\x7d"

@[simp] theorem read_empty (l : Letter) : empty.read l = 0 := by
  simp [read, empty]

@[simp] theorem read_write_self (v : Variables) (l : Letter) (n : Word) :
    (v.write l n).read l = n := by
  simp [read, write]

@[simp] theorem read_write_of_ne (v : Variables) {k l : Letter} (n : Word) (h : k ≠ l) :
    (v.write k n).read l = v.read l := by
  have hval : k.val ≠ l.val := fun he => h (Fin.ext he)
  simp [read, write, Vector.getElem_set_ne, hval]

/-- Variables are the same if all letters have the same values. -/
theorem ext_read {v w : Variables} (h : ∀ l, v.read l = w.read l) : v = w := by
  have hslots : v.slots = w.slots := Vector.ext fun i hi => h ⟨i, hi⟩
  cases v
  cases w
  cases hslots
  rfl

end Variables
end TinyBasic
