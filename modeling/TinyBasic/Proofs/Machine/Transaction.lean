import TinyBasic.Proofs.Machine.Running

/-!
# Transaction — a line happens as a whole or not at all

A line that fails leaves the machine as it was, and one that succeeds writes one letter, or prints
one line, or does nothing. So the lines that fail can be taken out of a session without a trace, and
an answer never comes in two places.
-/

namespace TinyBasic
namespace Transaction

open Running

/-! ## One line -/

theorem effect_of_run {text : String} {m m' : Machine} {outcome : Outcome}
    (h : (Line.run text).run m = .ok outcome m') : Effect text m outcome m' := by
  have hruns := runs_run text m
  rw [h] at hruns
  cases hruns with
  | succeeded heffect => exact heffect

theorem eq_of_run_error {text : String} {m m' : Machine} {e : LineError}
    (h : (Line.run text).run m = .error e m') : m' = m := by
  have hruns := runs_run text m
  rw [h] at hruns
  cases hruns with
  | rejected => rfl
  | failed => rfl

/-! ## Sessions -/

/-- One line of a session: the machine before it, what it came to, and the machine after it. -/
structure Step where
  text : String
  before : Machine
  result : Except LineError Outcome
  after : Machine

/-- The step of a line on a machine. -/
def Step.ofText (m : Machine) (text : String) : Step :=
  match (Line.run text).run m with
  | .ok outcome m' => ⟨text, m, .ok outcome, m'⟩
  | .error e m' => ⟨text, m, .error e, m'⟩

/-- Whether the line did not fail. -/
def Step.succeeded (s : Step) : Bool :=
  s.result.isOk

/-- The steps of lines that are run one after the other, whatever comes of them. -/
def session (m : Machine) : List String → List Step
  | [] => []
  | text :: texts => Step.ofText m text :: session (Step.ofText m text).after texts

/-- The lines of a session that did not fail. -/
def kept (m : Machine) (texts : List String) : List String :=
  ((session m texts).filter Step.succeeded).map Step.text

theorem text_ofText (m : Machine) (text : String) : (Step.ofText m text).text = text := by
  simp only [Step.ofText]
  split <;> rfl

theorem after_of_not_succeeded {m : Machine} {text : String}
    (h : (Step.ofText m text).succeeded = false) : (Step.ofText m text).after = m := by
  simp only [Step.ofText] at h ⊢
  split at h
  case h_1 => cases h
  case h_2 e m' hrun => exact eq_of_run_error hrun

/-- A session without its failing lines has the steps of the others, unchanged. -/
theorem session_kept (m : Machine) (texts : List String) :
    session m (kept m texts) = (session m texts).filter Step.succeeded := by
  induction texts generalizing m with
  | nil => rfl
  | cons text texts ih =>
      have htail := ih (Step.ofText m text).after
      -- a failing line hands on the machine it was given, so the others cannot tell
      by_cases hs : (Step.ofText m text).succeeded = true
      · have hkept : kept m (text :: texts) = text :: kept (Step.ofText m text).after texts := by
          simp only [kept, session, List.filter_cons_of_pos hs, List.map_cons, text_ofText]
        rw [hkept]
        simp only [session, List.filter_cons_of_pos hs, htail]
      · have hsame := after_of_not_succeeded (Bool.eq_false_iff.2 hs)
        have hkept : kept m (text :: texts) = kept m texts := by
          simp only [kept, session, List.filter_cons_of_neg hs, hsame]
        rw [hsame] at htail
        rw [hkept]
        simp only [session, List.filter_cons_of_neg hs, hsame, htail]

/-! ## Answers -/

theorem ofLine_one_stream {o : Options} (hmode : o.mode = .eval) (line : String) (m : Machine) :
    (Reply.ofLine o line m).2.printed = m.printed ∨ (Reply.ofLine o line m).1.output = "" := by
  by_cases hblank : Reply.isBlank line = true
  · simp [Reply.ofLine, hblank]
  · by_cases hexit : Reply.isExit line = true
    · simp [Reply.ofLine, hblank, hexit]
    · rw [ofLine_eval hmode (Bool.eq_false_iff.2 hblank) (Bool.eq_false_iff.2 hexit)]
      have hruns := runs_run (Reply.readAs o line) m
      generalize (Line.run (Reply.readAs o line)).run m = r at hruns ⊢
      -- what leaves the printout alone comes first, then what is answered with nothing
      cases hruns with
      | rejected => exact .inl rfl
      | failed => exact .inl rfl
      | succeeded heffect =>
          cases heffect with
          | value => exact .inl rfl
          | quit => exact .inr rfl
          | nothing => exact .inr rfl
          | assignment => exact .inr rfl
          | printing => exact .inr rfl

/-- Every line is a transaction with at most one effect. -/
theorem line_is_transaction :
    (∀ text m, match (Line.run text).run m with
      | .error _ m' => m' = m
      | .ok outcome m' => Effect text m outcome m') ∧
    (∀ m texts, session m (kept m texts) = (session m texts).filter Step.succeeded) ∧
    (∀ o line m, o.mode = .eval →
      (Reply.ofLine o line m).2.printed = m.printed ∨ (Reply.ofLine o line m).1.output = "") := by
  refine ⟨?_, session_kept, ?_⟩
  · intro text m
    split
    case h_1 e m' hrun => exact eq_of_run_error hrun
    case h_2 outcome m' hrun => exact effect_of_run hrun
  · intro o line m hmode
    exact ofLine_one_stream hmode line m

/-- A value is echoed, a `PRINT` prints, a `LET` writes, and a line that fails can be taken out. -/
theorem line_is_transaction_sum :
    ((Reply.ofLine {} "X + 2" {}).1.output = "2\n" ∧
      (Reply.ofLine {} "X + 2" {}).2.printed = ∅) ∧
    ((Reply.ofLine {} "PRINT 7" {}).2.printed.text = "7\n" ∧
      (Reply.ofLine {} "PRINT 7" {}).1.output = "") ∧
    (∃ m, (Line.run "LET B = 7").run {} = .ok .done m ∧ m.memory.read 1 = 7 ∧
      Effect "LET B = 7" {} .done m) ∧
    (Line.run "PRINT 7, B / A").run {} = .error (.eval .divisionByZero) {} ∧
    kept {} ["LET B = 7", "PRINT 7, B / A", "PRINT B"] = ["LET B = 7", "PRINT B"] ∧
    session {} ["LET B = 7", "PRINT B"] =
      (session {} ["LET B = 7", "PRINT 7, B / A", "PRINT B"]).filter Step.succeeded := by
  have hvalue : (Reply.ofLine {} "X + 2" {}).1.output = "2\n" := by
    have hread : Reply.readAs {} "X + 2" = "X + 2" := by decide
    have hrun : (Line.run "X + 2").run {} = .ok (.value (.int 2)) {} := by cbv
    rw [ofLine_eval rfl (by decide) (by decide), hread, hrun]
    decide
  have hprint : (Reply.ofLine {} "PRINT 7" {}).2.printed.text = "7\n" := by
    have hread : Reply.readAs {} "PRINT 7" = "PRINT 7" := by decide
    have hrun : (Line.run "PRINT 7").run {} = .ok .done { printed := ⟨["7"]⟩ } := by cbv
    rw [ofLine_eval rfl (by decide) (by decide), hread, hrun]
    decide
  have hlet : (Line.run "LET B = 7").run {} =
      .ok .done { memory := (∅ : Variables).write 1 7 } := by
    cbv
  have hfail : (Line.run "PRINT 7, B / A").run {} = .error (.eval .divisionByZero) {} := by
    cbv
  have hkept : kept {} ["LET B = 7", "PRINT 7, B / A", "PRINT B"] = ["LET B = 7", "PRINT B"] := by
    cbv
  refine ⟨⟨hvalue, ?_⟩, ⟨hprint, ?_⟩, ⟨_, hlet, by decide, ?_⟩, hfail, hkept, ?_⟩
  · refine (line_is_transaction.2.2 {} "X + 2" {} rfl).resolve_right ?_
    rw [hvalue]
    decide
  · refine (line_is_transaction.2.2 {} "PRINT 7" {} rfl).resolve_left ?_
    intro hempty
    rw [hempty] at hprint
    exact absurd hprint (by decide)
  · have heffect := line_is_transaction.1 "LET B = 7" {}
    rw [hlet] at heffect
    exact heffect
  · have hsession := line_is_transaction.2.1 {} ["LET B = 7", "PRINT 7, B / A", "PRINT B"]
    rwa [hkept] at hsession

end Transaction
end TinyBasic
