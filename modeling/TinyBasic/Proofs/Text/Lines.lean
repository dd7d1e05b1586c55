import Mathlib
import TinyBasic.Console.Transcript

/-!
# Lines — a text in pieces, and its bytes

A text is cut into lines behind each newline. `cutAfter` does this for lists of characters and for
lists of bytes alike, and the two go together: in UTF-8 a newline is a byte of its own that is part
of no other character, so the lines of the bytes are the bytes of the lines (`cutAfter_utf8`).
Nothing is lost by cutting (`flatten_cutAfter`), and only the last line may be without a newline
(`ended_of_mem_dropLast`).

`cutAfter_induction` is how statements about all lines are proved.
-/

namespace TinyBasic
namespace Lines

/-! ## Cutting -/

section CutAfter

variable {α : Type}

/-- The pieces with `w` put in front of the first, or `w` alone if there are none. -/
def glue (w : List α) : List (List α) → List (List α)
  | [] => [w]
  | p :: ps => (w ++ p) :: ps

theorem glue_glue (v w : List α) (ps : List (List α)) :
    glue v (glue w ps) = glue (v ++ w) ps := by
  cases ps with
  | nil => rfl
  | cons p ps => simp only [glue, List.append_assoc]

/-- The list in pieces, cut behind each `e`. What stands behind the last `e` is a piece too, unless
it is empty. -/
def cutAfter [DecidableEq α] (e : α) : List α → List (List α)
  | [] => []
  | a :: l => if a = e then [a] :: cutAfter e l else glue [a] (cutAfter e l)

/-- The piece has an `e` at its end, and no other. -/
def Ended (e : α) (p : List α) : Prop :=
  ∃ w, e ∉ w ∧ p = w ++ [e]

variable [DecidableEq α] {e : α} {w l : List α}

theorem cutAfter_append (hne : w ≠ []) (h : e ∉ w) (l : List α) :
    cutAfter e (w ++ l) = glue w (cutAfter e l) := by
  induction w with
  | nil => exact absurd rfl hne
  | cons a w ih =>
      have ha : a ≠ e := fun hae => h (hae ▸ List.mem_cons_self)
      have hw : e ∉ w := fun hmem => h (List.mem_cons_of_mem a hmem)
      rw [List.cons_append, cutAfter, if_neg ha]
      cases w with
      | nil => rfl
      | cons b w => rw [ih (List.cons_ne_nil b w) hw, glue_glue, List.singleton_append]

theorem cutAfter_of_not_mem (hne : w ≠ []) (h : e ∉ w) : cutAfter e w = [w] := by
  have hcut := cutAfter_append hne h []
  rwa [List.append_nil] at hcut

theorem cutAfter_line (h : e ∉ w) (l : List α) :
    cutAfter e (w ++ e :: l) = (w ++ [e]) :: cutAfter e l := by
  cases w with
  | nil => rw [List.nil_append, cutAfter, if_pos rfl, List.nil_append]
  | cons a w =>
      rw [cutAfter_append (List.cons_ne_nil a w) h, cutAfter, if_pos rfl, glue]

/-- A list and its pieces are both empty, or the list is a single piece without `e`, or it starts
with a piece that has its `e`. -/
theorem cutAfter_induction {motive : List α → List (List α) → Prop} (nil : motive [] [])
    (last : ∀ w, w ≠ [] → e ∉ w → motive w [w])
    (line : ∀ w l, e ∉ w → motive l (cutAfter e l) →
      motive (w ++ e :: l) ((w ++ [e]) :: cutAfter e l)) (l : List α) :
    motive l (cutAfter e l) := by
  -- the pieces come line by line, while the list is taken apart one element at a time
  induction hlen : l.length using Nat.strong_induction_on generalizing l with
  | _ n ih =>
      by_cases hmem : e ∈ l
      · rcases List.eq_append_cons_of_mem hmem with ⟨w, l', rfl, hw⟩
        rw [cutAfter_line hw]
        refine line w l' hw (ih l'.length ?_ l' rfl)
        rw [← hlen, List.length_append, List.length_cons]
        omega
      · by_cases hne : l = []
        · rw [hne]
          exact nil
        · rw [cutAfter_of_not_mem hne hmem]
          exact last l hne hmem

theorem flatten_cutAfter (e : α) (l : List α) : (cutAfter e l).flatten = l := by
  refine cutAfter_induction (e := e) (motive := fun l ps => ps.flatten = l) ?_ ?_ ?_ l
  · rfl
  · intro w _ _
    rw [List.flatten_singleton]
  · intro w l _ ih
    rw [List.flatten_cons, ih, List.append_assoc, List.singleton_append]

theorem ended_of_mem_dropLast {p : List α} : p ∈ (cutAfter e l).dropLast → Ended e p := by
  refine cutAfter_induction (e := e)
    (motive := fun _ ps => p ∈ ps.dropLast → Ended e p) ?_ ?_ ?_ l
  · intro h
    cases h
  · intro w _ _ h
    cases h
  · intro w l hw ih h
    cases hps : cutAfter e l with
    | nil =>
        rw [hps] at h
        cases h
    | cons q qs =>
        rw [hps] at ih h
        rw [List.dropLast_cons_of_ne_nil (List.cons_ne_nil q qs)] at h
        rcases List.mem_cons.1 h with rfl | h
        · exact ⟨w, hw, rfl⟩
        · exact ih h

theorem cutAfter_of_ended {ps : List (List α)} (h : ∀ p ∈ ps, Ended e p) (l : List α) :
    cutAfter e (ps.flatten ++ l) = ps ++ cutAfter e l := by
  induction ps with
  | nil => rfl
  | cons p ps ih =>
      rcases h p List.mem_cons_self with ⟨w, hw, rfl⟩
      have htail := ih fun q hq => h q (List.mem_cons_of_mem _ hq)
      rw [List.flatten_cons, List.append_assoc, List.append_assoc, List.singleton_append,
        cutAfter_line hw, htail, List.cons_append]

theorem ended_of_getLast? {p : List α} (hlast : p.getLast? = some e) :
    p ∈ cutAfter e l → Ended e p := by
  refine cutAfter_induction (e := e) (motive := fun _ ps => p ∈ ps → Ended e p) ?_ ?_ ?_ l
  · intro h
    cases h
  · intro w _ hw h
    cases List.mem_singleton.1 h
    exact absurd (List.mem_of_getLast? hlast) hw
  · intro w l hw ih h
    rcases List.mem_cons.1 h with rfl | h
    · exact ⟨w, hw, rfl⟩
    · exact ih h

/-- What stands in front of a piece is cut as before, and if the piece has its `e` then it does not
matter what stands behind it. -/
theorem cutAfter_of_eq_append {front back : List (List α)} {p : List α}
    (h : cutAfter e l = front ++ p :: back) :
    cutAfter e front.flatten = front ∧
      (p.getLast? = some e → ∀ rest, cutAfter e (front.flatten ++ (p ++ rest)) =
        front ++ p :: cutAfter e rest) := by
  have hfront : ∀ q ∈ front, Ended e q := by
    intro q hq
    apply ended_of_mem_dropLast (l := l)
    rw [h, List.dropLast_append_of_ne_nil (List.cons_ne_nil p back)]
    exact List.mem_append_left _ hq
  refine ⟨?_, ?_⟩
  · have hcut := cutAfter_of_ended hfront []
    rwa [List.append_nil, cutAfter, List.append_nil] at hcut
  · intro hlast rest
    have hp : Ended e p := ended_of_getLast? (l := l) hlast (by simp [h])
    -- a piece with its `e` is cut off wherever it stands, like those in front of it
    have hall : ∀ q ∈ front ++ [p], Ended e q :=
      List.forall_mem_append.2 ⟨hfront, List.forall_mem_singleton.2 hp⟩
    have hcut := cutAfter_of_ended hall rest
    rwa [List.flatten_append, List.flatten_singleton, List.append_assoc, List.append_assoc,
      List.singleton_append] at hcut

end CutAfter

/-! ## Bytes -/

/-- The bytes of characters in UTF-8. -/
def utf8 (cs : List Char) : List UInt8 :=
  cs.flatMap String.utf8EncodeChar

@[simp] theorem utf8_nil : utf8 [] = [] := rfl

@[simp] theorem utf8_cons (c : Char) (cs : List Char) :
    utf8 (c :: cs) = String.utf8EncodeChar c ++ utf8 cs := rfl

@[simp] theorem utf8_append (cs ds : List Char) : utf8 (cs ++ ds) = utf8 cs ++ utf8 ds :=
  List.flatMap_append

theorem toByteArray_utf8 (cs : List Char) : (utf8 cs).toByteArray = (String.ofList cs).toByteArray := by
  rw [String.toByteArray_ofList]
  rfl

theorem toUTF8_eq_utf8 (text : String) : text.toUTF8.data.toList = utf8 text.toList := by
  rw [String.toUTF8_eq_toByteArray, ← String.utf8Encode_toList]
  exact List.toList_data_toByteArray

theorem newline_ne_ofNat {n : Nat} (hlow : 128 ≤ n) (hhigh : n < 256) :
    (10 : UInt8) ≠ UInt8.ofNat n := by
  intro h
  have hnat : 10 = n % 256 := by simpa using congrArg UInt8.toNat h
  omega

theorem utf8EncodeChar_newline : String.utf8EncodeChar '\n' = [10] := by
  decide

/-- The newline is a byte of its own, and part of no other character. -/
theorem newline_mem_utf8EncodeChar {c : Char} :
    (10 : UInt8) ∈ String.utf8EncodeChar c ↔ c = '\n' := by
  constructor
  · intro h
    simp only [String.utf8EncodeChar] at h
    split at h
    case isTrue hsmall =>
      have hbyte : (10 : UInt8) = UInt8.ofNat c.val.toNat := by simpa using h
      have hnat : 10 = c.val.toNat % 256 := by simpa using congrArg UInt8.toNat hbyte
      have hval : c.toNat = 10 := by
        rw [← Char.toNat_val]
        omega
      rw [← Char.ofNat_toNat c, hval]
    case isFalse =>
      -- all bytes of a longer character have their highest bit set
      split at h
      case isTrue =>
        simp only [List.mem_cons, List.not_mem_nil, or_false] at h
        rcases h with h | h <;> exact absurd h (newline_ne_ofNat (by omega) (by omega))
      case isFalse =>
        split at h
        case isTrue =>
          simp only [List.mem_cons, List.not_mem_nil, or_false] at h
          rcases h with h | h | h <;> exact absurd h (newline_ne_ofNat (by omega) (by omega))
        case isFalse =>
          simp only [List.mem_cons, List.not_mem_nil, or_false] at h
          rcases h with h | h | h | h <;> exact absurd h (newline_ne_ofNat (by omega) (by omega))
  · rintro rfl
    decide

/-- The lines of bytes are the bytes of lines. -/
theorem cutAfter_utf8 (cs : List Char) :
    cutAfter 10 (utf8 cs) = (cutAfter '\n' cs).map utf8 := by
  induction cs with
  | nil => rfl
  | cons c cs ih =>
      by_cases hc : c = '\n'
      · rw [utf8_cons, hc, utf8EncodeChar_newline, List.singleton_append, cutAfter, cutAfter, if_pos rfl,
          if_pos rfl, ih]
        rfl
      · have hmem : (10 : UInt8) ∉ String.utf8EncodeChar c := mt newline_mem_utf8EncodeChar.1 hc
        rw [utf8_cons, cutAfter_append String.utf8EncodeChar_ne_nil hmem, ih, cutAfter, if_neg hc]
        cases cutAfter '\n' cs with
        | nil => simp [glue]
        | cons p ps => simp [glue]

/-! ## The text of a line -/

/-- Whether a character ends lines. All those at the end of a line are dropped. -/
def isLineEnd (c : Char) : Bool :=
  c == '\n' || c == '\r'

/-- The lines of a text, each without the characters that end it. -/
def ofText (text : String) : List String :=
  (cutAfter '\n' text.toList).map fun piece => String.ofList (Text.dropTrailing isLineEnd piece)

theorem lineText?_utf8 (cs : List Char) :
    Transcript.lineText? (utf8 cs) = some (String.ofList (Text.dropTrailing isLineEnd cs)) := by
  have htext : String.fromUTF8? (utf8 cs).toByteArray = some (String.ofList cs) := by
    rw [toByteArray_utf8, String.fromUTF8?, dif_pos (String.ofList cs).isValidUTF8]
    rfl
  rw [Transcript.lineText?, htext, Option.map_some, String.toList_ofList]
  rfl

theorem lineText?_eq_none_iff {bytes : List UInt8} :
    Transcript.lineText? bytes = none ↔ ¬ bytes.toByteArray.IsValidUTF8 := by
  rw [Transcript.lineText?, Option.map_eq_none_iff, String.fromUTF8?]
  split
  case isTrue hvalid => simp [hvalid]
  case isFalse hvalid => simp [hvalid]

theorem exists_utf8_of_valid {bytes : List UInt8} (h : bytes.toByteArray.IsValidUTF8) :
    ∃ cs, bytes = utf8 cs := by
  rcases h with ⟨cs, hcs⟩
  refine ⟨cs, ?_⟩
  have hlist := congrArg (fun b => b.data.toList) hcs
  simp only [List.utf8Encode, List.toList_data_toByteArray] at hlist
  exact hlist

theorem valid_utf8 (cs : List Char) : (utf8 cs).toByteArray.IsValidUTF8 := by
  rw [toByteArray_utf8]
  exact (String.ofList cs).isValidUTF8

theorem dropTrailing_newline (cs : List Char) :
    Text.dropTrailing isLineEnd (cs ++ ['\n']) = Text.dropTrailing isLineEnd cs := by
  simp [Text.dropTrailing, isLineEnd]

theorem dropTrailing_of_getLast? {cs : List Char} (hnewline : '\n' ∉ cs)
    (hreturn : cs.getLast? ≠ some '\r') : Text.dropTrailing isLineEnd cs = cs := by
  rcases List.eq_nil_or_concat cs with rfl | ⟨ds, c, rfl⟩
  · rfl
  · have hn : c ≠ '\n' := by
      rintro rfl
      simp at hnewline
    have hr : c ≠ '\r' := by
      rintro rfl
      simp at hreturn
    simp [Text.dropTrailing, isLineEnd, hn, hr]

/-- Lines that are written with a newline behind each are the lines of the text. -/
theorem ofText_join {lines : List String}
    (h : ∀ line ∈ lines, '\n' ∉ line.toList ∧ line.toList.getLast? ≠ some '\r') :
    ofText (String.join (lines.map (· ++ "\n"))) = lines := by
  have hlist : (String.join (lines.map (· ++ "\n"))).toList =
      (lines.map fun line => line.toList ++ ['\n']).flatten := by
    induction lines with
    | nil => simp
    | cons line lines ih => simp [ih fun q hq => h q (List.mem_cons_of_mem _ hq)]
  have hended : ∀ p ∈ lines.map fun line => line.toList ++ ['\n'], Ended '\n' p := by
    intro p hp
    rcases List.mem_map.1 hp with ⟨line, hline, rfl⟩
    exact ⟨line.toList, (h line hline).1, rfl⟩
  have hcut := cutAfter_of_ended hended []
  rw [List.append_nil, cutAfter, List.append_nil] at hcut
  rw [ofText, hlist, hcut, List.map_map]
  calc
    _ = lines.map id := by
      apply List.map_congr_left
      intro line hline
      simp [dropTrailing_newline, dropTrailing_of_getLast? (h line hline).1 (h line hline).2]
    _ = lines := List.map_id lines

/-- What stands in front of a newline is made of whole characters, if all of it is. -/
theorem exists_utf8_of_newline {w : List UInt8} {cs : List Char} (h : w ++ [10] = utf8 cs) :
    ∃ ds, w = utf8 ds := by
  rcases List.eq_nil_or_concat cs with rfl | ⟨ds, c, rfl⟩
  · simp at h
  · rw [List.concat_eq_append, utf8_append, utf8_cons, utf8_nil, List.append_nil] at h
    have hlast : (String.utf8EncodeChar c).getLast? = some 10 := by
      have hboth := congrArg List.getLast? h
      rw [List.getLast?_append_of_ne_nil _ String.utf8EncodeChar_ne_nil] at hboth
      simpa using hboth.symm
    rw [newline_mem_utf8EncodeChar.1 (List.mem_of_getLast? hlast), utf8EncodeChar_newline] at h
    exact ⟨ds, List.append_cancel_right h⟩

/-- A newline at its end makes no difference to a line, neither to what it is nor to whether it is
UTF-8. -/
theorem lineText?_newline (w : List UInt8) :
    Transcript.lineText? (w ++ [10]) = Transcript.lineText? w := by
  by_cases hw : w.toByteArray.IsValidUTF8
  · rcases exists_utf8_of_valid hw with ⟨cs, rfl⟩
    have hbytes : utf8 cs ++ [10] = utf8 (cs ++ ['\n']) := by
      rw [utf8_append, utf8_cons, utf8EncodeChar_newline, utf8_nil, List.append_nil]
    rw [hbytes, lineText?_utf8, lineText?_utf8, dropTrailing_newline]
  · rw [lineText?_eq_none_iff.2 hw, lineText?_eq_none_iff]
    intro hvalid
    rcases exists_utf8_of_valid hvalid with ⟨cs, hcs⟩
    rcases exists_utf8_of_newline hcs with ⟨ds, rfl⟩
    exact hw (valid_utf8 ds)

end Lines
end TinyBasic
