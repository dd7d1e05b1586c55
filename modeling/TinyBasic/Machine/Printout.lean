/-!
# Printout — what `PRINT` writes

Each `PRINT` writes one line. A printout collects the lines until somebody asks for them. A printer
is the place where the lines go: it keeps a printout, or passes them on to the console at once and
has nothing to show for it afterwards.
-/

namespace TinyBasic

/-- The lines written, oldest first, without their newlines. -/
structure Printout where
  lines : List String := []
  deriving DecidableEq, Repr

namespace Printout

instance : EmptyCollection Printout := ⟨{}⟩

/-- The printout with one line more. -/
def println (out : Printout) (line : String) : Printout :=
  ⟨out.lines ++ [line]⟩

/-- The text of the printout, with a newline after each line. -/
def text (out : Printout) : String :=
  String.join (out.lines.map (· ++ "\n"))

@[simp] theorem text_empty : (∅ : Printout).text = "" := rfl

@[simp] theorem text_println (out : Printout) (line : String) :
    (out.println line).text = out.text ++ (line ++ "\n") := by
  simp [text, println]

end Printout

/-- Where lines are written to. -/
inductive Printer where
  /-- Lines are shown as they come. -/
  | console
  /-- Lines are kept. -/
  | buffer (out : Printout)
  deriving DecidableEq, Repr

namespace Printer

/-- The printer after one line more. -/
def println : Printer → String → Printer
  | console, _ => console
  | buffer out, line => buffer (out.println line)

/-- The text that the printer keeps. -/
def held : Printer → String
  | console => ""
  | buffer out => out.text

/-- The printer with nothing kept. -/
def emptied : Printer → Printer
  | console => console
  | buffer _ => buffer ∅

/-- A printer that keeps its lines holds each of them with its newline, in their order. -/
theorem held_foldl_println (out : Printout) (lines : List String) :
    (lines.foldl println (buffer out)).held =
      out.text ++ String.join (lines.map (· ++ "\n")) := by
  induction lines generalizing out with
  | nil => simp [held]
  | cons line lines ih =>
      have htail := ih (out.println line)
      rw [Printout.text_println] at htail
      simpa [println, String.append_assoc] using htail

/-- A printer that shows its lines has nothing to hold. -/
theorem held_foldl_println_console (lines : List String) :
    (lines.foldl println console).held = "" := by
  induction lines with
  | nil => rfl
  | cons line lines ih => exact ih

theorem held_emptied (p : Printer) : p.emptied.held = "" := by
  cases p <;> rfl

end Printer
end TinyBasic
