import TinyBasic.Proofs.Console.Conversation
import TinyBasic.Proofs.Text.Lines

/-!
# Listening — lines from bytes

Bytes are read up to the next newline, and what was read is a line or is not UTF-8. So a
conversation over bytes is one over the pieces into which the bytes are cut (`ofPieces`), and if
the bytes are a text, it is one over the lines of the text (`recounts_text`).

There are three ways to end. A line asks to quit, or a line is not UTF-8, and then nothing behind
this line is read; or all is read. The lines in front of such a line are answered whatever stands
behind them (`ofPieces_of_harmless`), so it is enough to look at the line where reading ends.
-/

namespace TinyBasic
namespace Listening

open Lines Conversation
open Transcript (firstLine laterLines lineText? ofBytes ofLines)

/-! ## Pieces -/

/-- The conversation over lines that are given as pieces of bytes. -/
def ofPieces (o : Options) (v : Variables) : List (List UInt8) → Transcript
  | [] => ⟨[], .endOfInput, v, 0⟩
  | p :: ps =>
      (lineText? p).elim ⟨[], .invalidText, v, ps.flatten.length⟩ fun line =>
        begunWith o v line ps.flatten.length fun v => ofPieces o v ps

theorem firstLine_line {w : List UInt8} (h : 10 ∉ w) (l : List UInt8) :
    firstLine (w ++ 10 :: l) = w := by
  have hw : ∀ b ∈ w, decide (b ≠ 10) = true := by
    intro b hb
    exact decide_eq_true (ne_of_mem_of_not_mem hb h)
  rw [firstLine, List.takeWhile_append_of_pos hw, List.takeWhile_cons_of_neg (by simp),
    List.append_nil]

theorem firstLine_last {w : List UInt8} (h : 10 ∉ w) : firstLine w = w := by
  apply List.takeWhile_eq_self_iff.2
  intro b hb
  exact decide_eq_true (ne_of_mem_of_not_mem hb h)

theorem ofBytes_of_ne_nil (o : Options) (v : Variables) {bytes : List UInt8} (h : bytes ≠ []) :
    ofBytes o v bytes =
      (lineText? (firstLine bytes)).elim ⟨[], .invalidText, v, (laterLines bytes).length⟩
        fun line => begunWith o v line (laterLines bytes).length fun v =>
          ofBytes o v (laterLines bytes) := by
  cases bytes with
  | nil => exact absurd rfl h
  | cons b bs =>
      rw [ofBytes]
      cases lineText? (firstLine (b :: bs)) <;> rfl

/-- A conversation over bytes is one over their lines. -/
theorem ofBytes_eq_ofPieces (o : Options) (v : Variables) (bytes : List UInt8) :
    ofBytes o v bytes = ofPieces o v (cutAfter 10 bytes) := by
  have hnil : ∀ v, ofBytes o v [] = ofPieces o v [] := by
    intro v
    rw [ofBytes, ofPieces]
  refine cutAfter_induction (e := 10)
    (motive := fun bytes ps => ∀ v, ofBytes o v bytes = ofPieces o v ps) hnil ?_ ?_ bytes v
  -- only the last line can be without a newline
  · intro w hne hw v
    have hlater : laterLines w = [] := by simp [laterLines, firstLine_last hw]
    simp only [ofBytes_of_ne_nil o v hne, firstLine_last hw, hlater, hnil, ofPieces,
      List.flatten_nil]
  · intro w l hw ih v
    have hlater : laterLines (w ++ 10 :: l) = l := by simp [laterLines, firstLine_line hw]
    have hne : w ++ 10 :: l ≠ [] := by simp
    simp only [ofBytes_of_ne_nil o v hne, firstLine_line hw, hlater, ih, ofPieces, lineText?_newline,
      flatten_cutAfter]

/-! ## How reading ends -/

/-- The piece is not UTF-8. -/
def Garbled (p : List UInt8) : Prop :=
  ¬ p.toByteArray.IsValidUTF8

/-- The piece is a line that asks to quit. If it does on one machine it does on all. -/
def Quitting (o : Options) (p : List UInt8) : Prop :=
  ∃ line m, lineText? p = some line ∧ (Reply.ofLine o line m).1.flow = .quit

/-- Reading goes on behind the piece. -/
structure Harmless (o : Options) (p : List UInt8) : Prop where
  not_quitting : ¬ Quitting o p
  not_garbled : ¬ Garbled p

/-- The bytes are cut into lines, of which `front` are answered and `p` is the next one. -/
structure Reaches (o : Options) (bytes : List UInt8) (front : List (List UInt8)) (p : List UInt8)
    (back : List (List UInt8)) : Prop where
  cut : cutAfter 10 bytes = front ++ p :: back
  harmless : ∀ q ∈ front, Harmless o q

section Ends

variable {o : Options} {bytes p : List UInt8} {front back : List (List UInt8)}

theorem Quitting.flow (h : Quitting o p) :
    ∃ line, lineText? p = some line ∧ ∀ m, (Reply.ofLine o line m).1.flow = .quit := by
  rcases h with ⟨line, m, hline, hflow⟩
  exact ⟨line, hline, fun m' => (Modes.flow_eq_quit_iff o line m m').1 hflow⟩

theorem Harmless.flow (h : Harmless o p) :
    ∃ line, lineText? p = some line ∧ ∀ m, (Reply.ofLine o line m).1.flow ≠ .quit := by
  have hsome : lineText? p ≠ none := mt lineText?_eq_none_iff.1 h.not_garbled
  rcases Option.ne_none_iff_exists'.1 hsome with ⟨line, hline⟩
  exact ⟨line, hline, fun m hflow => h.not_quitting ⟨line, m, hline, hflow⟩⟩

/-- Lines that do no harm are answered, and what comes behind them is answered as if it stood
alone. -/
theorem ofPieces_of_harmless (h : ∀ q ∈ front, Harmless o q) (v : Variables) :
    ∃ xs v', ∀ ps, ofPieces o v (front ++ ps) =
      { ofPieces o v' ps with exchanges := xs ++ (ofPieces o v' ps).exchanges } := by
  induction front generalizing v with
  | nil => exact ⟨[], v, fun ps => rfl⟩
  | cons q front ih =>
      rcases (h q List.mem_cons_self).flow with ⟨line, hline, hflow⟩
      have hfront : ∀ q ∈ front, Harmless o q := fun q hq => h q (List.mem_cons_of_mem _ hq)
      rcases ih hfront (Exchange.ofLine o v line).2 with ⟨xs, v', hxs⟩
      refine ⟨(Exchange.ofLine o v line).1 :: xs, v', ?_⟩
      intro ps
      have hgoes : (Exchange.ofLine o v line).1.reply.flow ≠ .quit := hflow { memory := v }
      simp [ofPieces, hline, begunWith, hgoes, hxs, Transcript.cons]

theorem ofPieces_of_quitting (h : Quitting o p) (v : Variables) :
    ∃ x v', ∀ ps, ofPieces o v (p :: ps) = ⟨[x], .quit, v', ps.flatten.length⟩ := by
  rcases h.flow with ⟨line, hline, hflow⟩
  have hquit : (Exchange.ofLine o v line).1.reply.flow = .quit := hflow { memory := v }
  refine ⟨(Exchange.ofLine o v line).1, (Exchange.ofLine o v line).2, ?_⟩
  intro ps
  simp [ofPieces, hline, begunWith, hquit]

theorem ofPieces_of_garbled (h : Garbled p) (v : Variables) (ps : List (List UInt8)) :
    ofPieces o v (p :: ps) = ⟨[], .invalidText, v, ps.flatten.length⟩ := by
  simp [ofPieces, lineText?_eq_none_iff.2 h]

/-- What has been read if only `back` has not been. -/
theorem Reaches.take (h : Reaches o bytes front p back) :
    bytes.take (bytes.length - back.flatten.length) = front.flatten ++ p := by
  have hbytes : bytes = (front.flatten ++ p) ++ back.flatten := by
    calc
      bytes = (cutAfter 10 bytes).flatten := (flatten_cutAfter 10 bytes).symm
      _ = (front ++ p :: back).flatten := by rw [h.cut]
      _ = (front.flatten ++ p) ++ back.flatten := by simp
  have hlength : bytes.length - back.flatten.length = (front.flatten ++ p).length := by
    have hsum := congrArg List.length hbytes
    rw [List.length_append] at hsum
    omega
  rw [hlength]
  nth_rewrite 1 [hbytes]
  exact List.take_left

theorem Reaches.quit (h : Reaches o bytes front p back) (hquit : Quitting o p) (v : Variables) :
    (ofBytes o v bytes).close = .quit ∧ (ofBytes o v bytes).unread = back.flatten.length ∧
      (p.getLast? = some 10 → ∀ rest, ofBytes o v (front.flatten ++ (p ++ rest)) =
        { ofBytes o v bytes with unread := rest.length }) := by
  rcases ofPieces_of_harmless h.harmless v with ⟨xs, v', hfront⟩
  rcases ofPieces_of_quitting hquit v' with ⟨x, v'', hp⟩
  simp only [ofBytes_eq_ofPieces, h.cut, hfront, hp, true_and]
  intro hlast rest
  simp only [(cutAfter_of_eq_append h.cut).2 hlast rest, hfront, hp, flatten_cutAfter]

theorem Reaches.garbled (h : Reaches o bytes front p back) (hgarbled : Garbled p) (v : Variables) :
    ofBytes o v bytes =
        { ofBytes o v front.flatten with
          close := .invalidText, unread := back.flatten.length } ∧
      (ofBytes o v front.flatten).close = .endOfInput := by
  rcases ofPieces_of_harmless h.harmless v with ⟨xs, v', hfront⟩
  have halone : ofPieces o v front = ⟨xs, .endOfInput, v', 0⟩ := by
    simpa [ofPieces] using hfront []
  simp only [ofBytes_eq_ofPieces, h.cut, (cutAfter_of_eq_append h.cut).1, hfront,
    ofPieces_of_garbled hgarbled, halone, List.append_nil, and_self]

theorem ofBytes_of_harmless (h : ∀ q ∈ cutAfter 10 bytes, Harmless o q) (v : Variables) :
    (ofBytes o v bytes).close = .endOfInput ∧ (ofBytes o v bytes).unread = 0 := by
  rcases ofPieces_of_harmless h v with ⟨xs, v', hall⟩
  have hbytes := hall []
  simp only [List.append_nil] at hbytes
  simp only [ofBytes_eq_ofPieces, hbytes, ofPieces, and_self]

/-- Reading comes to a line that quits, or to one that is not UTF-8, or to neither. -/
theorem reaches_or_harmless (o : Options) (bytes : List UInt8) :
    (∃ front p back, Reaches o bytes front p back ∧ (Quitting o p ∨ Garbled p)) ∨
      ∀ q ∈ cutAfter 10 bytes, Harmless o q := by
  classical
  -- the first piece that is not harmless, if there is one
  cases hfind : (cutAfter 10 bytes).find? fun q => ¬ Harmless o q with
  | none =>
      right
      simpa using hfind
  | some p =>
      left
      rcases List.find?_eq_some_iff_append.1 hfind with ⟨hp, front, back, hcut, hfront⟩
      have hharmful : ¬ Harmless o p := by simpa using hp
      refine ⟨front, p, back, ⟨hcut, by simpa using hfront⟩, ?_⟩
      by_contra hneither
      exact hharmful ⟨fun hquit => hneither (.inl hquit), fun hgarbled => hneither (.inr hgarbled)⟩

theorem close_eq_invalidText_iff (o : Options) (v : Variables) (bytes : List UInt8) :
    (ofBytes o v bytes).close = .invalidText ↔
      ∃ front p back, Reaches o bytes front p back ∧ Garbled p := by
  constructor
  · intro hclose
    rcases reaches_or_harmless o bytes with ⟨front, p, back, hreach, hquit | hgarbled⟩ | hall
    · simp [(hreach.quit hquit v).1] at hclose
    · exact ⟨front, p, back, hreach, hgarbled⟩
    · simp [(ofBytes_of_harmless hall v).1] at hclose
  · rintro ⟨front, p, back, hreach, hgarbled⟩
    rw [(hreach.garbled hgarbled v).1]

end Ends

/-- Reading ends at the first line that quits, at the first that is not UTF-8, or at the end of
the bytes. What has been read is what has been answered. -/
theorem reading_ends (o : Options) (v : Variables) (bytes : List UInt8) :
    -- a line quits
    (∀ front p back, Reaches o bytes front p back → Quitting o p →
      (ofBytes o v bytes).close = .quit ∧
      bytes.take (bytes.length - (ofBytes o v bytes).unread) = front.flatten ++ p ∧
      (p.getLast? = some 10 → ∀ rest, ofBytes o v (front.flatten ++ (p ++ rest)) =
        { ofBytes o v bytes with unread := rest.length })) ∧
    -- a line is not UTF-8
    (∀ front p back, Reaches o bytes front p back → Garbled p →
      (ofBytes o v bytes).close = .invalidText ∧
      bytes.take (bytes.length - (ofBytes o v bytes).unread) = front.flatten ++ p ∧
      (∀ prompt, (ofBytes o v bytes).output prompt = (ofBytes o v front.flatten).output prompt) ∧
      (ofBytes o v bytes).printed = (ofBytes o v front.flatten).printed ∧
      (ofBytes o v bytes).memory = (ofBytes o v front.flatten).memory) ∧
    -- neither
    ((∀ front p back, Reaches o bytes front p back → ¬ Quitting o p ∧ ¬ Garbled p) →
      (ofBytes o v bytes).close = .endOfInput ∧ (ofBytes o v bytes).unread = 0) := by
  refine ⟨?_, ?_, ?_⟩
  · intro front p back hreach hquit
    rcases hreach.quit hquit v with ⟨hclose, hunread, hrest⟩
    rw [hunread]
    exact ⟨hclose, hreach.take, hrest⟩
  · intro front p back hreach hgarbled
    rcases hreach.garbled hgarbled v with ⟨hsame, hfront⟩
    refine ⟨?_, ?_, ?_, ?_, ?_⟩
    · rw [hsame]
    · rw [hsame]
      exact hreach.take
    · intro prompt
      rw [hsame]
      simp [Transcript.output, Transcript.lastPrompt, hfront]
    · rw [hsame]
      rfl
    · rw [hsame]
  · intro hneither
    rcases reaches_or_harmless o bytes with ⟨front, p, back, hreach, hend⟩ | hall
    · rcases hneither front p back hreach with ⟨hquit, hgarbled⟩
      exact absurd hend (not_or.2 ⟨hquit, hgarbled⟩)
    · exact ofBytes_of_harmless hall v

theorem harmless_newline (o : Options) : Harmless o [10] where
  not_quitting := by
    rintro ⟨line, m, hline, hflow⟩
    have hempty : lineText? [10] = some "" := by decide
    rw [hempty] at hline
    cases hline
    rw [Modes.ofLine_of_isBlank (by decide)] at hflow
    cases hflow
  not_garbled := by
    rw [Garbled]
    decide

/-- The lines are an empty one, then `exit()`, then `1`; or the second is a byte that is not UTF-8;
or there is only the empty one. -/
theorem reading_ends_exit_garbled_blank :
    (ofBytes {} ∅ [10, 101, 120, 105, 116, 40, 41, 10, 49, 10]).close = .quit ∧
    (ofBytes {} ∅ [10, 255, 10, 49, 10]).close = .invalidText ∧
    (ofBytes {} ∅ [10]).close = .endOfInput := by
  have hfront : ∀ q ∈ [[10]], Harmless {} q := by
    intro q hq
    rw [List.mem_singleton.1 hq]
    exact harmless_newline {}
  have hexit : Reaches {} [10, 101, 120, 105, 116, 40, 41, 10, 49, 10] [[10]]
      [101, 120, 105, 116, 40, 41, 10] [[49, 10]] := ⟨by decide, hfront⟩
  have hquit : Quitting {} [101, 120, 105, 116, 40, 41, 10] :=
    ⟨"exit()", {}, by cbv, by rw [Modes.ofLine_of_isExit (by decide)]⟩
  have hbyte : Reaches {} [10, 255, 10, 49, 10] [[10]] [255, 10] [[49, 10]] := ⟨by decide, hfront⟩
  have hgarbled : Garbled [255, 10] := by
    rw [Garbled]
    decide
  refine ⟨((reading_ends {} ∅ _).1 _ _ _ hexit hquit).1,
    ((reading_ends {} ∅ _).2.1 _ _ _ hbyte hgarbled).1, ((reading_ends {} ∅ [10]).2.2 ?_).1⟩
  rintro front p back ⟨hcut, -⟩
  have hp : p ∈ cutAfter 10 [10] := by simp [hcut]
  have hp' : p = [10] := by simpa [cutAfter] using hp
  rw [hp']
  exact ⟨(harmless_newline {}).not_quitting, (harmless_newline {}).not_garbled⟩

/-! ## Lines of a text -/

/-- The lines in front of the first piece that is not UTF-8. -/
def readable : List (List UInt8) → List String
  | [] => []
  | p :: ps => (lineText? p).elim [] fun line => line :: readable ps

theorem recounts_ofPieces (o : Options) (m : Machine) (ps : List (List UInt8)) :
    Recounts o m (readable ps) (ofPieces o m.memory ps) := by
  induction ps generalizing m with
  | nil => exact .nil o m rfl rfl (by simp [ofPieces])
  | cons p ps ih =>
      rw [ofPieces, readable]
      cases lineText? p with
      | none => exact .nil o m rfl rfl (by simp)
      | some line =>
          simp only [Option.elim_some]
          apply Recounts.begunWith
          exact ih

/-- A conversation over bytes is one over the lines that can be read. -/
theorem recounts_ofBytes (o : Options) (m : Machine) (bytes : List UInt8) :
    Recounts o m (readable (cutAfter 10 bytes)) (ofBytes o m.memory bytes) := by
  rw [ofBytes_eq_ofPieces]
  exact recounts_ofPieces o m _

theorem readable_utf8 (css : List (List Char)) :
    readable (css.map utf8) =
      css.map fun cs => String.ofList (Text.dropTrailing isLineEnd cs) := by
  induction css with
  | nil => rfl
  | cons cs css ih => simp [readable, lineText?_utf8, ih]

section Text

variable (o : Options) (m : Machine)

theorem recounts_text (text : String) :
    Recounts o m (Lines.ofText text) (ofBytes o m.memory text.toUTF8.data.toList) := by
  have hreadable : readable (cutAfter 10 text.toUTF8.data.toList) = Lines.ofText text := by
    rw [toUTF8_eq_utf8, cutAfter_utf8, readable_utf8, Lines.ofText]
  have hrecounts := recounts_ofBytes o m text.toUTF8.data.toList
  rwa [hreadable] at hrecounts

theorem close_text (text : String) :
    (ofBytes o m.memory text.toUTF8.data.toList).close =
      if (heard o m (Lines.ofText text)).any Turn.quits then .quit else .endOfInput := by
  have hquit := (recounts_text o m text).quit_iff
  have hvalid : (ofBytes o m.memory text.toUTF8.data.toList).close ≠ .invalidText := by
    intro hclose
    rcases (close_eq_invalidText_iff o m.memory _).1 hclose with ⟨front, p, back, hreach, hgarbled⟩
    have hp : p ∈ (cutAfter '\n' text.toList).map utf8 := by
      rw [← cutAfter_utf8, ← toUTF8_eq_utf8, hreach.cut]
      exact List.mem_append_right _ List.mem_cons_self
    rcases List.mem_map.1 hp with ⟨cs, -, rfl⟩
    exact hgarbled (valid_utf8 cs)
  split
  case isTrue hany => exact hquit.2 hany
  case isFalse hany =>
    cases hclose : (ofBytes o m.memory text.toUTF8.data.toList).close with
    | quit => exact absurd (hquit.1 hclose) hany
    | invalidText => exact absurd hclose hvalid
    | endOfInput => rfl

end Text

/-- What is read from bytes is answered line by line, as given lines are. -/
theorem line_by_line (o : Options) (m : Machine) :
    -- the bytes of a text
    (∀ text : String,
      let t := ofBytes o m.memory text.toUTF8.data.toList
      let xs := heard o m (Lines.ofText text)
      t.exchanges = xs.map Turn.exchange ∧
      t.close = (if xs.any Turn.quits then .quit else .endOfInput) ∧
      t.memory = (afterwards m xs).memory ∧
      (afterwards m xs).printed.text = m.printed.text ++ t.printed ∧
      (∀ prompt, t.output prompt =
        String.join ((events o m (Lines.ofText text)).map (Event.output prompt))) ∧
      (events o m (Lines.ofText text)).count .prompt =
        xs.length + if t.close = .endOfInput then 1 else 0) ∧
    -- the same lines read and given
    (∀ lines : List String,
      (∀ line ∈ lines, '\n' ∉ line.toList ∧ line.toList.getLast? ≠ some '\r') → o.prompt = none →
      let t := ofBytes o m.memory (String.join (lines.map (· ++ "\n"))).toUTF8.data.toList
      let s := ofLines o m.memory lines
      t.output (o.prompt.getD "") = s.output "" ∧ t.printed = s.printed ∧ t.memory = s.memory) ∧
    -- success
    (∀ lines : List String, (ofLines o m.memory lines).succeeded = true ↔
      ∀ x ∈ heard o m lines, x.reply.flow ≠ .failed) := by
  refine ⟨?_, ?_, ?_⟩
  · intro text t xs
    have ht : Recounts o m (Lines.ofText text) t := recounts_text o m text
    have hclose : t.close = if xs.any Turn.quits then .quit else .endOfInput := close_text o m text
    refine ⟨ht.exchanges, hclose, ht.memory, ht.printed, ht.output, ?_⟩
    rw [count_prompt_events, hclose]
    by_cases hquits : xs.any Turn.quits <;> simp [xs, hquits]
  · intro lines hlines hprompt t s
    have ht : Recounts o m lines t := by
      have htext := recounts_text o m (String.join (lines.map (· ++ "\n")))
      rwa [ofText_join hlines] at htext
    have hs : Recounts o m lines s := recounts_ofLines o m lines
    have hexchanges : t.exchanges = s.exchanges := ht.exchanges.trans hs.exchanges.symm
    refine ⟨?_, ?_, ht.memory.trans hs.memory.symm⟩
    · calc
        t.output (o.prompt.getD "") = t.output "" := by rw [hprompt, Option.getD_none]
        _ = s.output "" := (ht.output "").trans (hs.output "").symm
    · rw [Transcript.printed, hexchanges, Transcript.printed]
  · intro lines
    exact (recounts_ofLines o m lines).succeeded_iff

theorem line_by_line_exit :
    (∀ line ∈ ["LET X = 1", "exit()", "PRINT X"],
      '\n' ∉ line.toList ∧ line.toList.getLast? ≠ some '\r') ∧
    (ofBytes { prompt := none } ∅ "LET X = 1\nexit()\nPRINT X\n".toUTF8.data.toList).memory =
      (ofLines { prompt := none } ∅ ["LET X = 1", "exit()", "PRINT X"]).memory := by
  have hlines : ∀ line ∈ ["LET X = 1", "exit()", "PRINT X"],
      '\n' ∉ line.toList ∧ line.toList.getLast? ≠ some '\r' := by decide
  exact ⟨hlines, ((line_by_line { prompt := none } {}).2.1 _ hlines rfl).2.2⟩

end Listening
end TinyBasic
