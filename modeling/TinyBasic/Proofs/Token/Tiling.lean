import TinyBasic.Proofs.Token.Stream

/-!
# Tiling — tokens cover their line

The tokens of a scan lie in the line one behind the other, and between them is nothing but
spacing. `Tiles pos ts cs` says so of tokens `ts` and characters `cs` that stand at byte `pos`: the
characters are the texts of the tokens in order, with spacing around and between them, and each
token has the span of its text.

A scan that fails has tokens that tile the line up to the character where it fails. Positions are
exact as long as 32 bits can hold them.
-/

namespace TinyBasic
namespace Lexicon

open Scan

/-! ## Tilings -/

/-- The characters at byte `pos` are the texts of the tokens in their order, each in its span, with
spacing around and between them. -/
inductive Tiles : Nat → List Token → List Char → Prop where
  | nil {pos : Nat} {gap : List Char} : (∀ c ∈ gap, isSpacing c = true) → Tiles pos [] gap
  | cons {pos : Nat} {gap rest : List Char} {t : Token} {ts : List Token} :
      (∀ c ∈ gap, isSpacing c = true) → t.text.toList ≠ [] →
        t.span = ⟨pos + byteLength gap, pos + byteLength gap + byteLength t.text.toList⟩ →
        Tiles t.span.stop ts rest → Tiles pos (t :: ts) (gap ++ (t.text.toList ++ rest))

/-- The token stands in the characters, whose first is at byte `pos`: some come before its text and
some behind, and its span counts the bytes of those before. -/
def Lies (pos : Nat) (t : Token) (cs : List Char) : Prop :=
  ∃ front back, cs = front ++ (t.text.toList ++ back) ∧ t.text.toList ≠ [] ∧
    t.span = ⟨pos + byteLength front, pos + byteLength front + byteLength t.text.toList⟩

theorem byteLength_pos {cs : List Char} (h : cs ≠ []) : 0 < byteLength cs := by
  cases cs with
  | nil => exact absurd rfl h
  | cons c cs =>
      have hc := c.utf8Size_pos
      rw [byteLength_cons]
      omega

theorem Lies.start_lt_stop {pos : Nat} {t : Token} {cs : List Char} (h : Lies pos t cs) :
    t.span.start < t.span.stop := by
  rcases h with ⟨front, back, -, hne, hspan⟩
  have hlength := byteLength_pos hne
  rw [hspan]
  dsimp only
  omega

theorem Lies.append {pos : Nat} {t : Token} {cs : List Char} (h : Lies pos t cs)
    (more : List Char) : Lies pos t (cs ++ more) := by
  rcases h with ⟨front, back, rfl, hne, hspan⟩
  exact ⟨front, back ++ more, by simp, hne, hspan⟩

theorem Tiles.le_start {pos : Nat} {ts : List Token} {cs : List Char} (h : Tiles pos ts cs) :
    ∀ t ∈ ts, pos ≤ t.span.start := by
  induction h with
  | nil => nofun
  | @cons pos gap rest t ts hgap hne hspan _ ih =>
      refine List.forall_mem_cons.2 ⟨by simp [hspan], ?_⟩
      intro u hu
      have hstop := ih u hu
      rw [hspan] at hstop
      dsimp only at hstop
      omega

/-- Each token ends before the next one starts. -/
theorem Tiles.pairwise {pos : Nat} {ts : List Token} {cs : List Char} (h : Tiles pos ts cs) :
    ts.Pairwise fun t u => t.span.stop ≤ u.span.start := by
  induction h with
  | nil => exact .nil
  | cons _ _ _ hrest ih => exact .cons hrest.le_start ih

theorem Tiles.lies {pos : Nat} {ts : List Token} {cs : List Char} (h : Tiles pos ts cs) :
    ∀ t ∈ ts, Lies pos t cs := by
  induction h with
  | nil => nofun
  | @cons pos gap rest t ts hgap hne hspan _ ih =>
      refine List.forall_mem_cons.2 ⟨⟨gap, rest, rfl, hne, hspan⟩, ?_⟩
      intro u hu
      rcases ih u hu with ⟨front, back, rfl, hune, huspan⟩
      -- a later token has this one in front of it, and the spacing before this one
      refine ⟨gap ++ (t.text.toList ++ front), back, by simp, hune, ?_⟩
      rw [huspan, hspan]
      simp only [byteLength_append, Nat.add_assoc]

/-! ## Scans -/

/-- The error of a scan that stops at byte `pos` in front of `c`, with `back` behind it. -/
def Stops (pos : Nat) (c : Char) (back : List Char) (e : ScanError) : Prop :=
  if c = '"' then
    '"' ∉ back ∧ e = .unterminatedString ⟨pos, pos + byteLength (c :: back)⟩
  else
    isSpacing c = false ∧ e = .unexpectedChar c ⟨pos, pos + c.utf8Size⟩

/-- The tokens of the scan tile the characters up to where it ended. -/
def Covers (pos : Nat) (cs : List Char) (s : Scan) : Prop :=
  match s.ending with
  | .complete stop => Tiles pos s.tokens cs ∧ stop = pos + byteLength cs
  | .failed e => ∃ front c back, cs = front ++ c :: back ∧ Tiles pos s.tokens front ∧
      Stops (pos + byteLength front) c back e

theorem stops_errorAt {pos : Nat} {c : Char} {back : List Char} (hc : isSpacing c = false)
    (hnone : ∀ kind word, Spells kind word → ¬ word <+: c :: back)
    (hsize : pos + byteLength (c :: back) ≤ Span.maxOffset) :
    Stops pos c back (errorAt pos c back) := by
  rw [byteLength_cons] at hsize
  simp only [Stops, errorAt]
  split
  case isTrue hquote =>
    subst hquote
    refine ⟨quote_not_mem_of_no_spelling hnone, ?_⟩
    rw [byteLength_cons, Span.ofRange_of_le (by omega) (by omega)]
  case isFalse =>
    refine ⟨hc, ?_⟩
    rw [Span.ofRange_of_le (by omega) (by omega)]

/-- A token in front of a scan, with spacing before it. -/
theorem Covers.cons {pos : Nat} {gap rest : List Char} {t : Token} {s : Scan}
    (hgap : ∀ c ∈ gap, isSpacing c = true) (hne : t.text.toList ≠ [])
    (hspan : t.span = ⟨pos + byteLength gap, pos + byteLength gap + byteLength t.text.toList⟩)
    (h : Covers t.span.stop rest s) :
    Covers pos (gap ++ (t.text.toList ++ rest)) (Scan.cons t s) := by
  have hstop : t.span.stop = pos + byteLength gap + byteLength t.text.toList := by
    rw [hspan]
  rcases s with ⟨ts, ending⟩
  cases ending with
  | complete stop =>
      rcases h with ⟨htiles, hend⟩
      refine ⟨.cons hgap hne hspan htiles, ?_⟩
      simp only [hend, hstop, byteLength_append, Nat.add_assoc]
  | failed e =>
      rcases h with ⟨front, c, back, rfl, htiles, hstops⟩
      refine ⟨gap ++ (t.text.toList ++ front), c, back, by simp, .cons hgap hne hspan htiles, ?_⟩
      rw [hstop] at hstops
      simpa only [byteLength_append, Nat.add_assoc] using hstops

theorem covers_of_munches {pos : Nat} {cs : List Char} {s : Scan} (h : Munches pos cs s) :
    pos + byteLength cs ≤ Span.maxOffset → Covers pos cs s := by
  induction h with
  | finish hgap =>
      intro _
      exact ⟨.nil hgap, rfl⟩
  | @token pos start stop gap word rest kind s hgap hlongest hstart hstop _ ih =>
      intro hsize
      simp only [byteLength_append] at hsize
      have hcovers := ih (by omega)
      rcases spells_cons hlongest.spells with ⟨c, cs, hcs, -⟩
      rw [Span.ofRange_of_le (by omega) (by omega)]
      -- the text of the token is the word again
      have hmore : Covers pos (gap ++ ((String.ofList word).toList ++ rest))
          (Scan.cons ⟨kind, String.ofList word, ⟨start, stop⟩⟩ s) := by
        refine Covers.cons (t := ⟨kind, String.ofList word, ⟨start, stop⟩⟩) hgap ?_ ?_ hcovers
        · simp [hcs]
        · rw [String.toList_ofList, hstop, hstart]
      rwa [String.toList_ofList] at hmore
  | @stuck pos gap rest c hgap hc hnone =>
      intro hsize
      simp only [byteLength_append] at hsize
      exact ⟨gap, c, rest, rfl, .nil hgap, stops_errorAt hc hnone (by omega)⟩

theorem Covers.tokens {pos : Nat} {cs : List Char} {s : Scan} (h : Covers pos cs s) :
    ∃ front back, cs = front ++ back ∧ Tiles pos s.tokens front := by
  rcases s with ⟨ts, ending⟩
  cases ending with
  | complete stop => exact ⟨cs, [], by simp, h.1⟩
  | failed e =>
      rcases h with ⟨front, c, back, hcs, htiles, -⟩
      exact ⟨front, c :: back, hcs, htiles⟩

theorem covers_ofText {text : String} (h : text.utf8ByteSize ≤ Span.maxOffset) :
    Covers 0 text.toList (Scan.ofText text) := by
  refine covers_of_munches (munches_ofChars 0 text.toList) ?_
  rw [byteLength_toList, Nat.zero_add]
  exact h

/-! ## Bytes -/

/-- A span that lies in a line has its ends between characters, and the bytes of its text. -/
theorem Lies.bytes {text : String} {t : Token} (h : Lies 0 t text.toList) :
    String.Pos.Raw.IsValid text ⟨t.span.start⟩ ∧ String.Pos.Raw.IsValid text ⟨t.span.stop⟩ ∧
      text.toByteArray.extract t.span.start t.span.stop = t.text.toByteArray := by
  rcases h with ⟨front, back, hcs, -, hspan⟩
  have hbytes := bytes_of_piece hcs
  rw [String.ofList_toList] at hbytes
  rw [hspan]
  simpa only [Nat.zero_add] using hbytes

theorem Lies.length {pos : Nat} {t : Token} {cs : List Char} (h : Lies pos t cs) :
    t.span.length = t.text.utf8ByteSize ∧ t.span.isEmpty = false := by
  rcases h with ⟨front, back, -, hne, hspan⟩
  have hlength : t.span.length = byteLength t.text.toList := by
    rw [hspan, Span.length, Nat.add_sub_cancel_left]
  refine ⟨by rw [hlength, byteLength_toList], ?_⟩
  rw [Span.isEmpty, hlength, beq_eq_false_iff_ne]
  exact (byteLength_pos hne).ne'

/-- The tokens that a stream gives tile its line up to the end, or up to the character at which the
stream fails. -/
theorem tokens_tile_line (m : Matcher) (hm : m.Lawful) (text : String)
    (hsize : text.utf8ByteSize ≤ Span.maxOffset) :
    (∀ t ∈ ((Tokens.ofText text).drain m).1,
      t.span.start < t.span.stop ∧ t.span.isEmpty = false ∧
      t.span.length = t.text.utf8ByteSize ∧
      String.Pos.Raw.IsValid text ⟨t.span.start⟩ ∧ String.Pos.Raw.IsValid text ⟨t.span.stop⟩ ∧
      text.toByteArray.extract t.span.start t.span.stop = t.text.toByteArray) ∧
    ((Tokens.ofText text).drain m).1.Pairwise (fun t u => t.span.stop ≤ u.span.start) ∧
    (((Tokens.ofText text).drain m).2 = none →
      Tiles 0 ((Tokens.ofText text).drain m).1 text.toList) ∧
    (∀ e, ((Tokens.ofText text).drain m).2 = some e →
      ∃ front c back, text.toList = front ++ c :: back ∧
        Tiles 0 ((Tokens.ofText text).drain m).1 front ∧ Stops (byteLength front) c back e) := by
  have hcovers := covers_ofText hsize
  rw [drain_ofText hm]
  generalize Scan.ofText text = s at hcovers ⊢
  rcases hcovers.tokens with ⟨front, back, hcs, htiles⟩
  refine ⟨?_, htiles.pairwise, ?_, ?_⟩
  · intro t ht
    -- if the scan fails, then the token lies in the characters before the failure
    have hlies : Lies 0 t text.toList := by
      rw [hcs]
      exact (htiles.lies t ht).append back
    exact ⟨hlies.start_lt_stop, hlies.length.2, hlies.length.1, hlies.bytes⟩
  · rcases s with ⟨ts, _ | e⟩
    · intro _
      exact hcovers.1
    · intro hnone
      cases hnone
  · rcases s with ⟨ts, _ | e⟩
    · intro _ hsome
      cases hsome
    · intro _ hsome
      cases hsome
      simpa only [Covers, Nat.zero_add] using hcovers

/-- The matcher rejects `GO` as a whole, and the stream counts its letters one by one. -/
theorem tokens_tile_line_accent :
    (backingOut none).Lawful ∧ "GO \"é\" é".utf8ByteSize ≤ Span.maxOffset ∧
    (Tokens.ofText "GO \"é\" é").drain (backingOut none) =
      ([⟨.var, "G", ⟨0, 1⟩⟩, ⟨.var, "O", ⟨1, 2⟩⟩, ⟨.str, "\"é\"", ⟨3, 7⟩⟩],
        some (.unexpectedChar 'é' ⟨8, 10⟩)) ∧
    "GO \"é\" é".toByteArray.extract 3 7 = "\"é\"".toByteArray ∧
    ∃ front c back, "GO \"é\" é".toList = front ++ c :: back ∧
      Tiles 0 [⟨.var, "G", ⟨0, 1⟩⟩, ⟨.var, "O", ⟨1, 2⟩⟩, ⟨.str, "\"é\"", ⟨3, 7⟩⟩] front ∧
      Stops (byteLength front) c back (.unexpectedChar 'é' ⟨8, 10⟩) := by
  have hlawful : (backingOut none).Lawful := lawful_backingOut (.inl rfl)
  have hsize : "GO \"é\" é".utf8ByteSize ≤ Span.maxOffset := by decide
  have hscan : Scan.ofText "GO \"é\" é" =
      ⟨[⟨.var, "G", ⟨0, 1⟩⟩, ⟨.var, "O", ⟨1, 2⟩⟩, ⟨.str, "\"é\"", ⟨3, 7⟩⟩],
        .failed (.unexpectedChar 'é' ⟨8, 10⟩)⟩ := by
    cbv
  have hdrain := drain_ofText hlawful "GO \"é\" é"
  rw [hscan] at hdrain
  have htile := tokens_tile_line (backingOut none) hlawful "GO \"é\" é" hsize
  rw [hdrain] at htile
  have hstring := htile.1 ⟨.str, "\"é\"", ⟨3, 7⟩⟩ (by simp)
  exact ⟨hlawful, hsize, hdrain, hstring.2.2.2.2.2, htile.2.2.2 _ rfl⟩

end Lexicon
end TinyBasic
