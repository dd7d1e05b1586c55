import TinyBasic.Proofs.Fault.Viable
import TinyBasic.Proofs.Machine.Running
import TinyBasic.Proofs.Token.Casing

/-!
# Caret — carets stand under the fault

A span counts bytes and a line of carets counts characters. The two go together because every span
of an error in a text is that of a piece of the text: `Points` says which one, and where it stands.
The column of the piece is then the number of characters in front of it (`column_byteLength`), and
an offset inside a character never comes up.

* A token at fault is underlined as a whole, and so are a character at which no token starts and a
  string that is still open;
* where the line ends too early, one caret stands behind its last character.
-/

namespace TinyBasic
namespace Report

open Lexicon Grammar

/-! ## Columns -/

theorem charsWithin?_byteLength (front rest : List Char) :
    charsWithin? (byteLength front) (front ++ rest) = some front.length := by
  induction front with
  | nil => rw [byteLength_nil, charsWithin?, List.length_nil]
  | cons c front ih =>
      have hpos := c.utf8Size_pos
      rcases Nat.exists_eq_add_of_lt hpos with ⟨k, hk⟩
      have hbytes : byteLength (c :: front) = k + byteLength front + 1 := by
        rw [byteLength_cons]
        omega
      have hrest : k + byteLength front + 1 - c.utf8Size = byteLength front := by
        omega
      -- a character has at least one byte, so there are bytes left to count it off
      rw [hbytes, List.cons_append, charsWithin?, if_pos (by omega), hrest, ih]
      rfl

theorem column_byteLength (front rest : List Char) :
    column (front ++ rest) (byteLength front) = front.length := by
  have hle : byteLength front ≤ byteLength (front ++ rest) := by
    rw [byteLength_append]
    omega
  simp only [column, Nat.min_eq_left hle, charsWithin?_byteLength, Option.getD_some]

/-- A caret for each character of `part`, or a single one, in the columns behind those of
`front`. -/
def underline (front part : List Char) : String :=
  String.ofList (List.replicate front.length ' ' ++ List.replicate (max 1 part.length) '^')

theorem caret_of_piece {line : String} {front part back : List Char}
    (h : line.toList = front ++ (part ++ back)) :
    caret line ⟨byteLength front, byteLength front + byteLength part⟩ = underline front part := by
  have hstart : column line.toList (byteLength front) = front.length := by
    rw [h, column_byteLength]
  have hstop : column line.toList (byteLength front + byteLength part) =
      front.length + part.length := by
    rw [h, ← List.append_assoc, ← byteLength_append, column_byteLength, List.length_append]
  simp only [caret, underline, hstart, hstop, Nat.add_sub_cancel_left]

/-! ## Pieces at fault -/

/-- The error of a scan is about these characters, in front of `back`. -/
def Blames (part back : List Char) : ScanError → Prop
  | .unterminatedString _ => back = [] ∧ ∃ body, part = '"' :: body ∧ '"' ∉ body
  | .unexpectedChar c _ => part = [c]

/-- The error is about these characters of the text, in front of `back`. -/
def Concerns (text : String) (part back : List Char) : LineError → Prop
  | .scan e => Blames part back e
  | .parse (.scan e) => Blames part back e
  | .parse (.unexpected _ (.token kind word) span) =>
      ⟨kind, word, span⟩ ∈ (Scan.ofText text).tokens ∧ part = word.toList ∧ part ≠ []
  | .parse (.unexpected _ .endOfLine _) => part = [] ∧ back = []
  | .eval _ => False

/-- The error has its place in the text: the text is made of three pieces, and the error is about
the second of them and has its span. -/
structure Points (text : String) (e : LineError) (span : Span) (front part back : List Char) :
    Prop where
  split : text.toList = front ++ (part ++ back)
  hasSpan : e.span? = some span
  start_eq : span.start = byteLength front
  stop_eq : span.stop = byteLength front + byteLength part
  concerns : Concerns text part back e

theorem blames_of_failed {text : String} (hsize : text.utf8ByteSize ≤ Span.maxOffset)
    {e : ScanError} (h : (Scan.ofText text).ending = .failed e) :
    ∃ front part back, text.toList = front ++ (part ++ back) ∧
      e.span = ⟨byteLength front, byteLength front + byteLength part⟩ ∧ Blames part back e := by
  have hcovers := covers_ofText hsize
  generalize Scan.ofText text = s at h hcovers
  rcases s with ⟨ts, ending⟩
  cases h
  rcases hcovers with ⟨front, c, back, hcs, -, hstops⟩
  rw [Stops, Nat.zero_add] at hstops
  split at hstops
  case isTrue hquote =>
    rcases hstops with ⟨hopen, rfl⟩
    exact ⟨front, c :: back, [], by simpa using hcs, rfl, rfl, back, by rw [hquote], hopen⟩
  case isFalse =>
    rcases hstops with ⟨-, rfl⟩
    exact ⟨front, [c], back, hcs, rfl, rfl⟩

theorem lies_of_mem_tokens {text : String} (hsize : text.utf8ByteSize ≤ Span.maxOffset) {t : Token}
    (ht : t ∈ (Scan.ofText text).tokens) : Lies 0 t text.toList := by
  rcases (covers_ofText hsize).tokens with ⟨front, back, hcs, htiles⟩
  rw [hcs]
  exact (htiles.lies t ht).append back

/-- An error in reading a text has its place there. -/
theorem points_of_parse {text : String} (hsize : text.utf8ByteSize ≤ Span.maxOffset)
    {e : ParseError} (h : Command.ofText text = .error e) :
    ∃ span front part back, Points text (.parse e) span front part back := by
  have hfault := fault_command quoted_of_mem_ofText h
  cases e with
  | scan e =>
      rcases blames_of_failed hsize hfault.scan.1 with ⟨front, part, back, hcs, hspan, hblames⟩
      exact ⟨_, front, part, back, hcs, congrArg some hspan, rfl, rfl, hblames⟩
  | unexpected expected found span =>
      rcases hfault.unexpected with ⟨us, t, rest, hts, rfl, rfl, -⟩ | ⟨n, hending, rfl, rfl, -⟩
      · have hmem : t ∈ (Scan.ofText text).tokens := by simp [hts]
        rcases lies_of_mem_tokens hsize hmem with ⟨front, back, hcs, hne, hspan⟩
        rw [Nat.zero_add] at hspan
        exact ⟨_, front, t.text.toList, back, hcs, congrArg some hspan, rfl, rfl, hmem, rfl, hne⟩
      -- the end of the line is an empty piece behind all its bytes
      · have hn := ending_of_complete hsize hending
        have hpoint : Span.point n = ⟨byteLength text.toList, byteLength text.toList + 0⟩ := by
          rw [byteLength_toList, Nat.add_zero, Span.point,
            Span.ofRange_of_le (hn ▸ hsize) (hn ▸ hsize), hn]
        exact ⟨_, text.toList, [], [], by simp, congrArg some hpoint, rfl, rfl, rfl, rfl⟩

/-! ## Reports -/

/-- The output is a report that shows the error at its place. -/
structure Underlines (text output : String) (e : LineError) (span : Span)
    (front part back : List Char) : Prop extends Points text e span front part back where
  start_le_stop : span.start ≤ span.stop
  stop_le_size : span.stop ≤ text.utf8ByteSize
  start_valid : String.Pos.Raw.IsValid text ⟨span.start⟩
  stop_valid : String.Pos.Raw.IsValid text ⟨span.stop⟩
  /-- Both offsets have columns of their own. -/
  start_column : charsWithin? span.start text.toList = some front.length
  stop_column : charsWithin? span.stop text.toList = some (front.length + part.length)
  lines : output = String.join ["SYNTAX ERROR " ++ e.message ++ "\n", "  " ++ text ++ "\n",
    "  " ++ underline front part ++ "\n"]

theorem Points.underlines {text : String} {e : LineError} {span : Span}
    {front part back : List Char} (h : Points text e span front part back) :
    Underlines text (render text e) e span front part back := by
  rcases span with ⟨start, stop⟩
  have hstart : start = byteLength front := h.start_eq
  have hstop : stop = byteLength front + byteLength part := h.stop_eq
  subst hstart hstop
  rcases bytes_of_piece h.split with ⟨hstartValid, hstopValid, -⟩
  have hsize := congrArg byteLength h.split
  rw [byteLength_toList, byteLength_append, byteLength_append] at hsize
  refine ⟨h, ?_, ?_, hstartValid, hstopValid, ?_, ?_, ?_⟩
  · exact Nat.le_add_right _ _
  · dsimp only
    omega
  · rw [h.split]
    exact charsWithin?_byteLength front (part ++ back)
  · have hcolumn := charsWithin?_byteLength (front ++ part) back
    rwa [byteLength_append, List.length_append, List.append_assoc, ← h.split] at hcolumn
  · rw [render, h.hasSpan]
    dsimp only
    rw [caret_of_piece h.split, ← String.toList_inj]
    simp

theorem utf8ByteSize_readAs (o : Options) (line : String) :
    (Reply.readAs o line).utf8ByteSize = line.utf8ByteSize := by
  rw [Reply.readAs]
  split
  case isTrue => exact Text.utf8ByteSize_upcase line
  case isFalse => rfl

/-- A line that fails because of its text is answered with a report of three lines: the message,
the text, and carets under just the part at fault. -/
theorem carets_under_fault (o : Options) (line : String) (m : Machine)
    (hsize : line.utf8ByteSize ≤ Span.maxOffset)
    (hfailed : (Reply.ofLine o line m).1.flow = .failed) :
    ∃ e m', (Reply.shown? o.mode (Reply.readAs o line)).run m = .error e m' ∧
      (e.inText = true → ∃ span front part back,
        Underlines (Reply.readAs o line) (Reply.ofLine o line m).1.output e span
          front part back) := by
  rcases Running.ofLine_failed hfailed with ⟨e, m', hrun, hreply⟩
  refine ⟨e, m', hrun, ?_⟩
  intro htext
  rw [← utf8ByteSize_readAs o] at hsize
  suffices hpoints : ∃ span front part back,
      Points (Reply.readAs o line) e span front part back by
    rcases hpoints with ⟨span, front, part, back, hpoints⟩
    rw [hreply]
    exact ⟨span, front, part, back, hpoints.underlines⟩
  rcases Running.error_of_shown? hrun with ⟨e, rfl, he⟩ | ⟨e, rfl, he⟩ | ⟨e, rfl⟩
  · exact points_of_parse hsize he
  · rcases blames_of_failed hsize he with ⟨front, part, back, hcs, hspan, hblames⟩
    exact ⟨_, front, part, back, hcs, congrArg some hspan, rfl, rfl, hblames⟩
  -- an error of evaluation has no place in the text
  · cases htext

theorem carets_under_fault_accent :
    "print \"é\" x".utf8ByteSize ≤ Span.maxOffset ∧
    (Reply.ofLine {} "print \"é\" x" {}).1.flow = .failed ∧
    ∃ span front part back,
      Underlines "PRINT \"é\" X"
        "SYNTAX ERROR Expected COMMA, found variable `X`\n  PRINT \"é\" X\n            ^\n"
        (.parse (.unexpected .comma (.token .var "X") ⟨11, 12⟩)) span front part back := by
  have hsize : "print \"é\" x".utf8ByteSize ≤ Span.maxOffset := by decide
  have hread : Reply.readAs {} "print \"é\" x" = "PRINT \"é\" X" := by decide
  have hrun : (Reply.shown? .eval "PRINT \"é\" X").run {} =
      .error (.parse (.unexpected .comma (.token .var "X") ⟨11, 12⟩)) {} := by
    cbv
  have hreport : render "PRINT \"é\" X"
      (.parse (.unexpected .comma (.token .var "X") ⟨11, 12⟩)) =
      "SYNTAX ERROR Expected COMMA, found variable `X`\n  PRINT \"é\" X\n            ^\n" := by
    cbv
  have hreply : Reply.ofLine {} "print \"é\" x" {} = (⟨.failed,
      "SYNTAX ERROR Expected COMMA, found variable `X`\n  PRINT \"é\" X\n            ^\n"⟩, {}) := by
    rw [Reply.ofLine, if_neg (by decide), if_neg (by decide), hread, hrun]
    simp only [hreport]
  have hfailed : (Reply.ofLine {} "print \"é\" x" {}).1.flow = .failed := by
    rw [hreply]
  rcases carets_under_fault {} "print \"é\" x" {} hsize hfailed with ⟨e, m', he, hunderlines⟩
  rw [hread, hrun] at he
  cases he
  rw [hread, hreply] at hunderlines
  exact ⟨hsize, hfailed, hunderlines rfl⟩

end Report
end TinyBasic
