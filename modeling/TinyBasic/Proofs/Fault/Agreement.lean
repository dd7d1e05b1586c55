import TinyBasic.Proofs.Fault.Viable
import TinyBasic.Proofs.Grammar.Descent

/-!
# Agreement — a line is read no further than it is scanned

The reader of a line asks for tokens as it goes, and may find fault before it has seen them all. So
the error of a scan that fails need not be the error of the line. `Agrees s r` says how the two
belong together, where `r` is what reading came to:

* behind a scan that gets to the end of its line, no error of a scan is reported;
* behind a scan that fails, the line is rejected, with the error of the scan or with an error of the
  grammar at a token in front of it. In no case are the tokens taken for the whole line.
-/

namespace TinyBasic
namespace Grammar

open Parse Lexicon Scan

/-! ## Tokens in front of an error -/

theorem start_errorAt (pos : Nat) (c : Char) (rest : List Char) :
    (errorAt pos c rest).span.start = Span.saturate pos := by
  simp only [errorAt]
  split <;> rfl

/-- The error of a scan is behind all its tokens, also where offsets are too large to be told
apart. -/
theorem stop_le_of_failed {pos : Nat} {cs : List Char} {s : Scan} {e : ScanError}
    (h : Munches pos cs s) :
    s.ending = .failed e →
      Span.saturate pos ≤ e.span.start ∧ ∀ t ∈ s.tokens, t.span.stop ≤ e.span.start := by
  induction h with
  | finish =>
      intro he
      cases he
  | @token pos start stop gap word rest kind s _ _ hstart hstop _ ih =>
      intro he
      rcases ih he with ⟨hle, htokens⟩
      have hpos : Span.saturate pos ≤ Span.saturate stop := Span.saturate_le_saturate (by omega)
      exact ⟨hpos.trans hle, List.forall_mem_cons.2 ⟨hle, htokens⟩⟩
  | @stuck pos gap rest c =>
      intro he
      cases he
      rw [start_errorAt]
      exact ⟨Span.saturate_le_saturate (Nat.le_add_right pos _), List.forall_mem_nil _⟩

/-! ## Reading and scanning -/

/-- What reading came to fits in with a scan of the whole line, which came to `eager` behind the
tokens `seen`. -/
structure Agrees {α : Type} (eager : Except ScanError (List Token)) (seen : List Token)
    (r : Except ParseError α) : Prop where
  /-- Where the scan gets to the end, no error of a scan is reported. -/
  of_ok : ∀ ts, eager = .ok ts → ∀ e, r ≠ .error (.scan e)
  /-- Where it fails, reading fails with the same error, or at a token in front of it. -/
  of_error : ∀ e, eager = .error e → ∃ e', r = .error e' ∧ (e' = .scan e ∨
    ∃ (expected : Expected) (kind : Token.Kind) (word : String) (span : Span),
      e' = .unexpected expected (.token kind word) span ∧ ⟨kind, word, span⟩ ∈ seen ∧
      span.stop ≤ e.span.start)

/-- An error that expects nothing is the error of the scan. -/
theorem Agrees.expected?_eq_none_iff {α : Type} {eager : Except ScanError (List Token)}
    {seen : List Token} {r : Except ParseError α} (h : Agrees eager seen r) {e : ParseError}
    (he : r = .error e) : e.expected? = none ↔ ∃ e', eager = .error e' ∧ e = .scan e' := by
  subst he
  constructor
  · intro hnone
    cases e with
    | unexpected expected found span => cases hnone
    | scan e' =>
        cases eager with
        | ok ts => exact absurd rfl (h.of_ok ts rfl e')
        | error e'' =>
            rcases h.of_error e'' rfl with ⟨_, heq, rfl | ⟨_, _, _, _, rfl, -⟩⟩
            · cases heq
              exact ⟨e', rfl, rfl⟩
            · cases heq
  · rintro ⟨e', -, rfl⟩
    rfl

/-- A production agrees with the scan of a text, if its errors are faults and if it reads a text
only when the scan gets to the end. -/
theorem agrees_of_fault {α : Type} {p : Ending → List Token → Except ParseError α}
    {C : Expected → List Token → Prop} {text : String}
    (hread : ∀ a, p (ofText text).ending (ofText text).tokens = .ok a →
      ∃ ts, (ofText text).result = .ok ts)
    (hfault : ∀ e, p (ofText text).ending (ofText text).tokens = .error e →
      Fault p C (ofText text).ending (ofText text).tokens e) :
    Agrees (ofText text).result (ofText text).tokens
      (p (ofText text).ending (ofText text).tokens) := by
  have hmunches : Munches 0 text.toList (ofText text) := munches_ofChars 0 text.toList
  generalize ofText text = s at hread hfault hmunches ⊢
  rcases s with ⟨ts, ending⟩
  constructor
  case of_ok =>
    intro us hus e he
    -- an error of a scan is one that the scan ended in
    have hending := (hfault _ he).scan.1
    dsimp only at hending
    subst hending
    cases hus
  case of_error =>
    intro e he
    have hending := result_eq_error_iff.1 he
    dsimp only at hending
    subst hending
    cases hp : p (.failed e) ts with
    | ok a =>
        rcases hread a hp with ⟨_, hresult⟩
        cases hresult
    | error e' =>
        refine ⟨e', rfl, ?_⟩
        cases e' with
        | scan e'' =>
            cases (hfault _ hp).scan.1
            exact .inl rfl
        | unexpected expected found span =>
            -- the end of the line cannot be found, because the scan did not get there
            rcases (hfault _ hp).unexpected with
              ⟨us, t, rest, rfl, rfl, rfl, -⟩ | ⟨n, hcomplete, -⟩
            · have hmem : t ∈ us ++ t :: rest := by simp
              have hstop := (stop_le_of_failed hmunches rfl).2 t hmem
              exact .inr ⟨expected, t.kind, t.text, t.span, rfl, hmem, hstop⟩
            · cases hcomplete

/-- The readings of a finished scan agree with it. -/
theorem agrees_ofText (text : String) :
    Agrees (Scan.ofText text).result (Scan.ofText text).tokens (Tree.ofText text) ∧
      Agrees (Scan.ofText text).result (Scan.ofText text).tokens (Command.ofText text) := by
  constructor
  · refine agrees_of_fault (p := Parse.line) (C := Completes Line) ?_ ?_
    · intro a ha
      rcases (recognizes_line.derived text).1 ⟨a, ha⟩ with ⟨ts, _, hresult, -⟩
      exact ⟨ts, hresult⟩
    · intro e he
      exact fault_line quoted_of_mem_ofText he
  · refine agrees_of_fault (p := Parse.command) (C := Completes Request) ?_ ?_
    · intro c hc
      rcases (recognizes_command.derived text).1 ⟨c, hc⟩ with ⟨ts, _, hresult, -⟩
      exact ⟨ts, hresult⟩
    · intro e he
      exact fault_command quoted_of_mem_ofText he

/-- A line that is read while it is scanned is read to an end, and what that gives agrees with all
the tokens at once: the reader meets no error that they do not end in, and takes no line for whole in
which they fail. Their error is the only one that expects nothing. -/
theorem lazy_agrees_with_eager (m : Matcher) (hm : m.Lawful) (text : String) :
    ∃ r c, Descent.parse m text = some r ∧ Descent.parseCommand m text = some c ∧
      Agrees (tokenizeAll m text) ((Tokens.ofText text).drain m).1 r ∧
      Agrees (tokenizeAll m text) ((Tokens.ofText text).drain m).1 c ∧
      (∀ e, r = .error e ∨ c = .error e →
        (e.expected? = none ↔ ∃ e', tokenizeAll m text = .error e' ∧ e = .scan e')) ∧
      r = Tree.ofText text ∧ c = Command.ofText text := by
  have hparse : Agrees (tokenizeAll m text) ((Tokens.ofText text).drain m).1 (Tree.ofText text) := by
    rw [tokenizeAll_eq hm, drain_ofText hm]
    exact (agrees_ofText text).1
  have hcommand : Agrees (tokenizeAll m text) ((Tokens.ofText text).drain m).1
      (Command.ofText text) := by
    rw [tokenizeAll_eq hm, drain_ofText hm]
    exact (agrees_ofText text).2
  refine ⟨_, _, Descent.parse_eq hm text, Descent.parseCommand_eq hm text, hparse, hcommand, ?_,
    rfl, rfl⟩
  rintro e (he | he)
  · exact hparse.expected?_eq_none_iff he
  · exact hcommand.expected?_eq_none_iff he

/-- A fault in front of the bad character is reported, and the character in its place. -/
theorem lazy_agrees_with_eager_letters :
    (backingOut (some .var)).Lawful ∧
    tokenizeAll (backingOut (some .var)) "PRINT GO @" = .error (.unexpectedChar '@' ⟨9, 10⟩) ∧
    Descent.parse (backingOut (some .var)) "PRINT GO @" =
      some (.error (.unexpected .comma (.token .var "O") ⟨7, 8⟩)) ∧
    Descent.parse (backingOut (some .var)) "PRINT G @" =
      some (.error (.scan (.unexpectedChar '@' ⟨8, 9⟩))) := by
  have hm : (backingOut (some .var)).Lawful := lawful_backingOut (.inr (.inl rfl))
  have heager : tokenizeAll (backingOut (some .var)) "PRINT GO @" =
      .error (.unexpectedChar '@' ⟨9, 10⟩) := by
    rw [tokenizeAll_eq hm]
    cbv
  have hfault : Tree.ofText "PRINT GO @" =
      .error (.unexpected .comma (.token .var "O") ⟨7, 8⟩) := by
    cbv
  have hscan : Tree.ofText "PRINT G @" = .error (.scan (.unexpectedChar '@' ⟨8, 9⟩)) := by
    cbv
  rcases lazy_agrees_with_eager (backingOut (some .var)) hm "PRINT GO @" with
    ⟨r, _, hr, -, -, -, -, rfl, -⟩
  rcases lazy_agrees_with_eager (backingOut (some .var)) hm "PRINT G @" with
    ⟨r', _, hr', -, -, -, -, rfl, -⟩
  rw [hfault] at hr
  rw [hscan] at hr'
  exact ⟨hm, heager, hr, hr'⟩

end Grammar
end TinyBasic
