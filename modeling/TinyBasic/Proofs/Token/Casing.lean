import TinyBasic.Console.Reply
import TinyBasic.Proofs.Text.Upcase
import TinyBasic.Proofs.Token.Munch

/-!
# Casing — tokens of lines in capitals

A line is put in capitals before it is scanned, and both passes have to know what a string is: the
first switches at every quote, and the second takes a string as one token. They never disagree. A
scan that is not inside a token is not inside a string either, so

* each token of a line in capitals is a part of the line as it was written, letter by letter if the
  token is a string, and in capitals if it is not (`scan_of_upcase`);
* a line that is scanned to its end has been in capitals all along, and is answered the same with
  and without them (`reply_of_scanned`).
-/

namespace TinyBasic
namespace Lexicon

open Scan Text

/-! ## Spellings -/

/-- The character is no quote, and its own capital. -/
def isPlain (c : Char) : Bool :=
  c != '"' && !c.isLower

theorem isPlain_iff {c : Char} : isPlain c = true ↔ c ≠ '"' ∧ ¬ c.isLower = true := by
  simp [isPlain]

theorem quote_not_mem_of_plain {cs : List Char} (h : ∀ c ∈ cs, isPlain c = true) : '"' ∉ cs := by
  intro hmem
  cases h _ hmem

theorem quotedAfter_of_plain {cs : List Char} (h : ∀ c ∈ cs, isPlain c = true) :
    quotedAfter false cs = false :=
  quotedAfter_of_not_mem (quote_not_mem_of_plain h)

theorem upcaseFrom_of_plain {cs : List Char} (h : ∀ c ∈ cs, isPlain c = true) :
    upcaseFrom false cs = cs := by
  rw [upcaseFrom_of_not_mem (quote_not_mem_of_plain h)]
  refine (List.map_congr_left ?_).trans (List.map_id cs)
  intro c hc
  exact Char.toUpper_eq_of_not_isLower (isPlain_iff.1 (h c hc)).2

theorem isPlain_of_isSpacing {c : Char} (h : isSpacing c = true) : isPlain c = true := by
  have hall : spacing.all isPlain = true := by decide
  exact List.all_eq_true.1 hall c (mem_spacing_iff.2 h)

theorem isPlain_of_isDigit {c : Char} (h : c.isDigit = true) : isPlain c = true := by
  rw [isPlain_iff]
  refine ⟨ne_quote rfl h, ?_⟩
  simp only [Char.isDigit, Char.isLower, Bool.and_eq_true, decide_eq_true_eq] at h ⊢
  intro hlower
  exact absurd (UInt32.le_trans hlower.1 h.2) (by decide)

theorem isPlain_of_isUpper {c : Char} (h : c.isUpper = true) : isPlain c = true :=
  isPlain_iff.2 ⟨ne_quote rfl h, Char.not_isLower_of_isUpper h⟩

theorem plain_of_spells {kind : Token.Kind} {word : List Char} (h : Spells kind word)
    (hkind : kind ≠ .str) : ∀ c ∈ word, isPlain c = true :=
  h.forall_mem hkind (fun _ => isPlain_of_isUpper) (fun _ => isPlain_of_isDigit) (by decide)

/-- A token leaves no string open. -/
theorem quotedAfter_of_spells {kind : Token.Kind} {word : List Char} (h : Spells kind word) :
    quotedAfter false word = false := by
  by_cases hkind : kind = .str
  · subst hkind
    rcases spells_str h with ⟨body, hbody, rfl⟩
    exact quotedAfter_string hbody
  · exact quotedAfter_of_plain (plain_of_spells h hkind)

theorem upcaseFrom_of_spells {kind : Token.Kind} {word : List Char} (h : Spells kind word) :
    upcaseFrom false word = word := by
  by_cases hkind : kind = .str
  · subst hkind
    rcases spells_str h with ⟨body, hbody, rfl⟩
    exact upcaseFrom_string hbody
  · exact upcaseFrom_of_plain (plain_of_spells h hkind)

/-! ## Scans -/

theorem quotedAfter_of_spacing {gap : List Char} (h : ∀ c ∈ gap, isSpacing c = true) :
    quotedAfter false gap = false :=
  quotedAfter_of_plain fun c hc => isPlain_of_isSpacing (h c hc)

theorem upcaseFrom_of_spacing {gap : List Char} (h : ∀ c ∈ gap, isSpacing c = true) :
    upcaseFrom false gap = gap :=
  upcaseFrom_of_plain fun c hc => isPlain_of_isSpacing (h c hc)

/-- Characters that are scanned to their end are in capitals outside strings. -/
theorem upcaseFrom_of_munches {pos : Nat} {cs : List Char} {s : Scan} (h : Munches pos cs s) :
    (∀ e, s.ending ≠ .failed e) → upcaseFrom false cs = cs := by
  induction h with
  | finish hgap =>
      intro _
      exact upcaseFrom_of_spacing hgap
  | @token _ _ _ gap word rest _ _ hgap hlongest _ _ _ ih =>
      intro hending
      have hspells := hlongest.spells
      calc
        upcaseFrom false (gap ++ (word ++ rest))
            = gap ++ upcaseFrom false (word ++ rest) := by
              rw [upcaseFrom_append, upcaseFrom_of_spacing hgap, quotedAfter_of_spacing hgap]
        _ = gap ++ (word ++ upcaseFrom false rest) := by
              rw [upcaseFrom_append, upcaseFrom_of_spells hspells, quotedAfter_of_spells hspells]
        _ = gap ++ (word ++ rest) := by
              rw [ih hending]
  | stuck =>
      intro hending
      exact absurd rfl (hending _)

theorem upcase_of_scanned {line : String} {ts : List Token}
    (h : (Scan.ofText line).result = .ok ts) : upcase line = line := by
  have hmunches : Munches 0 line.toList (ofText line) := munches_ofChars 0 line.toList
  generalize ofText line = s at h hmunches
  rcases s with ⟨_, ending⟩
  cases ending with
  | complete n =>
      have hending : ∀ e, Ending.complete n ≠ .failed e := by
        intro e he
        cases he
      rw [upcase, upcaseFrom_of_munches hmunches hending, String.ofList_toList]
  | failed e => cases h

/-- The token is from the characters `cs` at byte `pos`, though their capitals were scanned. In the
capitals it stands at the same place. -/
def Echoes (pos : Nat) (cs : List Char) (t : Token) : Prop :=
  ∃ front piece back, cs = front ++ (piece ++ back) ∧
    upcaseFrom false cs = upcaseFrom false front ++ (t.text.toList ++ upcaseFrom false back) ∧
    t.span = .ofRange (pos + byteLength front) (pos + byteLength front + byteLength piece) ∧
    t.text.toList = if t.kind = .str then piece else piece.map Char.toUpper

/-- The error is from the characters `cs` at byte `pos`, though their capitals were scanned. An open
string is as it was, and no letter is at fault. -/
def Halts (pos : Nat) (cs : List Char) : ScanError → Prop
  | .unterminatedString span => ∃ front back, cs = front ++ '"' :: back ∧
      upcaseFrom false cs = upcaseFrom false front ++ '"' :: back ∧
      span = .ofRange (pos + byteLength front) (pos + byteLength cs)
  | .unexpectedChar c _ => c.isAlpha = false

section Behind

variable {pos : Nat} {lead cs : List Char} (hlead : quotedAfter false lead = false)
include hlead

theorem Echoes.behind {t : Token} (h : Echoes (pos + byteLength lead) cs t) :
    Echoes pos (lead ++ cs) t := by
  rcases h with ⟨front, piece, back, rfl, hcapitals, hspan, htext⟩
  refine ⟨lead ++ front, piece, back, by simp, ?_, ?_, htext⟩
  · rw [upcaseFrom_append, hlead, hcapitals, upcaseFrom_append, hlead, List.append_assoc]
  · rw [hspan, byteLength_append, Nat.add_assoc pos]

theorem Halts.behind {e : ScanError} (h : Halts (pos + byteLength lead) cs e) :
    Halts pos (lead ++ cs) e := by
  cases e with
  | unexpectedChar c span => exact h
  | unterminatedString span =>
      rcases h with ⟨front, back, rfl, hcapitals, hspan⟩
      refine ⟨lead ++ front, back, by simp, ?_, ?_⟩
      · rw [upcaseFrom_append, hlead, hcapitals, upcaseFrom_append, hlead, List.append_assoc]
      · simp only [hspan, byteLength_append, Nat.add_assoc]

end Behind

/-- A word of the capitals is a word of the characters themselves. -/
theorem eq_of_upcaseFrom_word {kind : Token.Kind} {word piece : List Char}
    (h : Spells kind word) (hpiece : upcaseFrom false piece = word) :
    word = if kind = .str then piece else piece.map Char.toUpper := by
  split
  case isTrue hkind =>
    subst hkind
    rcases spells_str h with ⟨body, hbody, rfl⟩
    exact (eq_of_upcaseFrom_string hpiece hbody).symm
  case isFalse hkind =>
    exact eq_of_upcaseFrom_of_not_mem hpiece (quote_not_mem_of_plain (plain_of_spells h hkind))

/-- The character at which no token starts in the capitals. -/
theorem halts_of_stuck {pos : Nat} {cs rest : List Char} {c : Char}
    (hcs : upcaseFrom false cs = c :: rest)
    (hnone : ∀ kind word, Spells kind word → ¬ word <+: c :: rest) :
    Halts pos cs (errorAt pos c rest) := by
  simp only [errorAt]
  split
  case isTrue hquote =>
    subst hquote
    have hopen := quote_not_mem_of_no_spelling hnone
    have hsame := eq_of_upcaseFrom_open hcs hopen
    refine ⟨[], rest, hsame, hcs, ?_⟩
    rw [hsame, byteLength_nil, Nat.add_zero]
  case isFalse =>
    cases cs with
    | nil => cases hcs
    | cons d ds =>
        -- a capital would be a token, and it is no small letter
        have hupper : ¬ c.isUpper = true := by
          intro hc
          exact hnone .var [c] (.var hc) ⟨rest, rfl⟩
        simp only [upcaseFrom_cons, Bool.false_eq_true, if_false, List.cons.injEq] at hcs
        rcases hcs with ⟨rfl, -⟩
        rw [Halts, Char.isAlpha, Char.isLower_toUpper_eq_false, Bool.or_false]
        exact Bool.eq_false_iff.2 hupper

/-- Where the capitals are cut into spacing, a word and the rest, the characters themselves are cut
into three as well, and no string is open at the last cut. -/
theorem cut_of_upcaseFrom {kind : Token.Kind} {gap word rest cs : List Char}
    (hgap : ∀ c ∈ gap, isSpacing c = true) (hspells : Spells kind word)
    (hcs : upcaseFrom false cs = gap ++ (word ++ rest)) :
    ∃ front piece back, cs = front ++ (piece ++ back) ∧ upcaseFrom false front = gap ∧
      upcaseFrom false piece = word ∧ upcaseFrom false back = rest ∧
      quotedAfter false (front ++ piece) = false := by
  have hgapAfter := quotedAfter_of_spacing hgap
  have hwordAfter := quotedAfter_of_spells hspells
  rcases upcaseFrom_eq_append hcs with ⟨front, more, rfl, hfront, hmore⟩
  rw [hgapAfter] at hmore
  rcases upcaseFrom_eq_append hmore with ⟨piece, back, rfl, hpiece, hback⟩
  rw [hwordAfter] at hback
  refine ⟨front, piece, back, rfl, hfront, hpiece, hback, ?_⟩
  calc
    quotedAfter false (front ++ piece)
        = quotedAfter (quotedAfter false front) piece := quotedAfter_append false front piece
    _ = quotedAfter (quotedAfter false gap) piece := by
          rw [← hfront, quotedAfter_upcaseFrom]
    _ = quotedAfter false word := by
          rw [hgapAfter, ← hpiece, quotedAfter_upcaseFrom]
    _ = false := hwordAfter

/-- The scan of the capitals goes on outside strings, as the capitals themselves do. -/
theorem echoes_of_munches {pos : Nat} {us : List Char} {s : Scan} (h : Munches pos us s) :
    ∀ {cs}, upcaseFrom false cs = us →
      (∀ t ∈ s.tokens, Echoes pos cs t) ∧ ∀ e, s.ending = .failed e → Halts pos cs e := by
  induction h with
  | finish =>
      intro cs _
      refine ⟨List.forall_mem_nil _, ?_⟩
      intro e he
      cases he
  | @token pos start stop gap word rest kind s hgap hlongest hstart hstop _ ih =>
      intro cs hcs
      have hspells := hlongest.spells
      rcases cut_of_upcaseFrom hgap hspells hcs with
        ⟨front, piece, back, rfl, rfl, rfl, rfl, hlead⟩
      rw [byteLength_upcaseFrom] at hstart hstop
      have hbehind : stop = pos + byteLength (front ++ piece) := by
        rw [hstop, hstart, byteLength_append, Nat.add_assoc]
      rcases ih rfl with ⟨htokens, hending⟩
      rw [hbehind] at htokens hending
      refine ⟨List.forall_mem_cons.2 ⟨?_, ?_⟩, ?_⟩
      · refine ⟨front, piece, back, rfl, ?_, ?_, ?_⟩
        · rw [hcs, String.toList_ofList]
        · rw [hstop, hstart]
        · rw [String.toList_ofList]
          exact eq_of_upcaseFrom_word hspells rfl
      -- the others are behind the characters of this token
      · intro t ht
        rw [← List.append_assoc]
        exact (htokens t ht).behind hlead
      · intro e he
        rw [← List.append_assoc]
        exact (hending e he).behind hlead
  | @stuck pos gap rest c hgap _ hnone =>
      intro cs hcs
      have hgapAfter := quotedAfter_of_spacing hgap
      rcases upcaseFrom_eq_append hcs with ⟨front, more, rfl, hfront, hmore⟩
      rw [hgapAfter] at hmore
      have hlead : quotedAfter false front = false := by
        rw [← quotedAfter_upcaseFrom, hfront, hgapAfter]
      refine ⟨List.forall_mem_nil _, ?_⟩
      intro e he
      cases he
      rw [← hfront, byteLength_upcaseFrom]
      exact (halts_of_stuck hmore hnone).behind hlead

/-! ## Lines -/

/-- The span records two offsets of the line, and `P` holds of these. They are the offsets of the
span itself, unless 32 bits cannot hold them. -/
def Records (line : String) (span : Span) (P : Nat → Nat → Prop) : Prop :=
  ∃ start stop, span = .ofRange start stop ∧ start ≤ stop ∧ stop ≤ line.utf8ByteSize ∧ P start stop

theorem Records.exact {line : String} {span : Span} {P : Nat → Nat → Prop}
    (h : Records line span P) (hsize : line.utf8ByteSize ≤ Span.maxOffset) :
    P span.start span.stop := by
  rcases h with ⟨start, stop, rfl, hle, hstop, hP⟩
  rw [Span.ofRange_of_le (by omega) (by omega)]
  exact hP

/-- Between the two offsets the line has the text of the token, as it is in a string, and otherwise
up to small letters. -/
def HasPart (line : String) (t : Token) (start stop : Nat) : Prop :=
  ∃ piece : String, line.toByteArray.extract start stop = piece.toByteArray ∧
    t.text = if t.kind = .str then piece else piece.toUpper

theorem Echoes.records {line : String} {t : Token} (h : Echoes 0 line.toList t) :
    Records line t.span fun start stop =>
      (upcase line).toByteArray.extract start stop = t.text.toByteArray ∧
        HasPart line t start stop := by
  rcases h with ⟨front, piece, back, hcs, hcapitals, hspan, htext⟩
  have hsize := congrArg byteLength hcs
  have hcapitalsSize := congrArg byteLength hcapitals
  rw [byteLength_toList, byteLength_append, byteLength_append] at hsize
  simp only [byteLength_upcaseFrom, byteLength_append, byteLength_toList] at hcapitalsSize
  have hlength : byteLength t.text.toList = byteLength piece := by
    rw [byteLength_toList]
    omega
  rw [Nat.zero_add] at hspan
  refine ⟨_, _, hspan, Nat.le_add_right _ _, by omega, ?_, String.ofList piece, ?_, ?_⟩
  · rw [← toList_upcase] at hcapitals
    have hbytes := (bytes_of_piece hcapitals).2.2
    rwa [byteLength_upcaseFrom, hlength, String.ofList_toList] at hbytes
  · exact (bytes_of_piece hcs).2.2
  · rw [← String.toList_inj, htext]
    split
    case isTrue => rw [String.toList_ofList]
    case isFalse => rw [String.toUpper, String.toList_map, String.toList_ofList]

theorem Halts.records {line : String} {span : Span}
    (h : Halts 0 line.toList (.unterminatedString span)) :
    Records line span fun start stop =>
      stop = line.utf8ByteSize ∧
        (upcase line).toByteArray.extract start stop = line.toByteArray.extract start stop := by
  rcases h with ⟨front, back, hcs, hcapitals, hspan⟩
  rw [← toList_upcase] at hcapitals
  have hsize := congrArg byteLength hcs
  rw [byteLength_toList, byteLength_append] at hsize
  rw [Nat.zero_add, Nat.zero_add, byteLength_toList] at hspan
  refine ⟨_, _, hspan, by omega, Nat.le_refl _, rfl, ?_⟩
  -- the open string is the last piece of both
  rw [← List.append_nil ('"' :: back)] at hcs hcapitals
  have hbytes := (bytes_of_piece hcapitals).2.2
  rw [byteLength_upcaseFrom] at hbytes
  rw [hsize, hbytes]
  exact (bytes_of_piece hcs).2.2.symm

/-- Putting a line in capitals and scanning it agree on what a string is. -/
theorem scan_of_upcase (line : String) :
    (upcase line).utf8ByteSize = line.utf8ByteSize ∧ upcase (upcase line) = upcase line ∧
    (∀ t ∈ (Scan.ofText (upcase line)).tokens, Records line t.span fun start stop =>
      (upcase line).toByteArray.extract start stop = t.text.toByteArray ∧
        HasPart line t start stop) ∧
    (∀ span, (Scan.ofText (upcase line)).ending = .failed (.unterminatedString span) →
      Records line span fun start stop => stop = line.utf8ByteSize ∧
        (upcase line).toByteArray.extract start stop = line.toByteArray.extract start stop) ∧
    (∀ c span, (Scan.ofText (upcase line)).ending = .failed (.unexpectedChar c span) →
      c.isAlpha = false) ∧
    (line.utf8ByteSize ≤ Span.maxOffset →
      (∀ t ∈ (Scan.ofText (upcase line)).tokens, HasPart line t t.span.start t.span.stop) ∧
      ∀ span, (Scan.ofText (upcase line)).ending = .failed (.unterminatedString span) →
        (upcase line).toByteArray.extract span.start span.stop =
          line.toByteArray.extract span.start span.stop) := by
  have hmunches : Munches 0 (upcase line).toList (Scan.ofText (upcase line)) :=
    munches_ofChars 0 (upcase line).toList
  rcases echoes_of_munches hmunches (toList_upcase line).symm with ⟨htokens, hending⟩
  refine ⟨utf8ByteSize_upcase line, upcase_upcase line, ?_, ?_, ?_, ?_⟩
  · intro t ht
    exact (htokens t ht).records
  · intro span hspan
    exact (hending _ hspan).records
  · intro c span hc
    exact hending _ hc
  · intro hsize
    refine ⟨?_, ?_⟩
    · intro t ht
      exact ((htokens t ht).records.exact hsize).2
    · intro span hspan
      exact ((hending _ hspan).records.exact hsize).2

theorem scan_of_upcase_open_string :
    "print \"é\", x \"y".utf8ByteSize ≤ Span.maxOffset ∧
    HasPart "print \"é\", x \"y" ⟨.str, "\"é\"", ⟨6, 10⟩⟩ 6 10 ∧
    HasPart "print \"é\", x \"y" ⟨.var, "X", ⟨12, 13⟩⟩ 12 13 ∧
    "PRINT \"é\", X \"y".toByteArray.extract 14 16 =
      "print \"é\", x \"y".toByteArray.extract 14 16 := by
  have hsize : "print \"é\", x \"y".utf8ByteSize ≤ Span.maxOffset := by decide
  have hupcase : upcase "print \"é\", x \"y" = "PRINT \"é\", X \"y" := by decide
  have hscan : Scan.ofText "PRINT \"é\", X \"y" =
      ⟨[⟨.keyword, "PRINT", ⟨0, 5⟩⟩, ⟨.str, "\"é\"", ⟨6, 10⟩⟩, ⟨.comma, ",", ⟨10, 11⟩⟩,
        ⟨.var, "X", ⟨12, 13⟩⟩], .failed (.unterminatedString ⟨14, 16⟩)⟩ := by
    cbv
  have hcasing := (scan_of_upcase "print \"é\", x \"y").2.2.2.2.2 hsize
  rw [hupcase, hscan] at hcasing
  rcases hcasing with ⟨htokens, hopen⟩
  exact ⟨hsize, htokens ⟨.str, "\"é\"", ⟨6, 10⟩⟩ (by simp),
    htokens ⟨.var, "X", ⟨12, 13⟩⟩ (by simp), hopen ⟨14, 16⟩ rfl⟩

/-! ## Answers -/

/-- A line that is scanned to its end is in capitals already, so it makes no difference whether it
is put in capitals first. -/
theorem reply_of_scanned (line : String) {ts : List Token}
    (h : (Scan.ofText line).result = .ok ts) :
    upcase line = line ∧ ∀ (o : Options) (m : Machine),
      Reply.ofLine { o with upcase := true } line m =
        Reply.ofLine { o with upcase := false } line m := by
  have hsame := upcase_of_scanned h
  refine ⟨hsame, ?_⟩
  intro o m
  have hread : Reply.readAs { o with upcase := true } line =
      Reply.readAs { o with upcase := false } line := hsame
  simp only [Reply.ofLine, hread]

theorem reply_of_scanned_print :
    (Scan.ofText "PRINT \"é\"").result =
      .ok [⟨.keyword, "PRINT", ⟨0, 5⟩⟩, ⟨.str, "\"é\"", ⟨6, 10⟩⟩] ∧
    Reply.ofLine {} "PRINT \"é\"" {} = Reply.ofLine { upcase := false } "PRINT \"é\"" {} := by
  have hresult : (Scan.ofText "PRINT \"é\"").result =
      .ok [⟨.keyword, "PRINT", ⟨0, 5⟩⟩, ⟨.str, "\"é\"", ⟨6, 10⟩⟩] := by
    cbv
  exact ⟨hresult, (reply_of_scanned _ hresult).2 {} {}⟩

end Lexicon
end TinyBasic
