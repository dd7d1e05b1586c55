/-!
# ByteLength — sizes in UTF-8

Places in a line are counted in bytes of its UTF-8 form, while lines are handled as lists of
characters. `byteLength` is the number of bytes that a list of characters takes up.
-/

namespace TinyBasic

/-- The number of bytes that characters take up in UTF-8. -/
def byteLength : List Char → Nat
  | [] => 0
  | c :: cs => c.utf8Size + byteLength cs

@[simp] theorem byteLength_nil : byteLength [] = 0 := rfl

@[simp] theorem byteLength_cons (c : Char) (cs : List Char) :
    byteLength (c :: cs) = c.utf8Size + byteLength cs := rfl

@[simp] theorem byteLength_append (as bs : List Char) :
    byteLength (as ++ bs) = byteLength as + byteLength bs := by
  induction as with
  | nil => simp
  | cons a as ih => simp [ih, Nat.add_assoc]

/-- It is the size of the string that the characters make up. -/
theorem byteLength_toList (s : String) : byteLength s.toList = s.utf8ByteSize := by
  have key : ∀ cs : List Char, byteLength cs = (String.ofList cs).utf8ByteSize := by
    intro cs
    induction cs with
    | nil => simp
    | cons c cs ih =>
        rw [byteLength_cons, ih, ← String.utf8ByteSize_singleton, ← String.utf8ByteSize_append]
        congr 1
        rw [← String.toList_inj]
        simp
  rw [key, String.ofList_toList]

/-- The characters that the first `n` bytes make up. A character of which `n` bytes hold only a part
is among them. -/
def takeBytes (n : Nat) : List Char → List Char
  | [] => []
  | c :: cs => if n = 0 then [] else c :: takeBytes (n - c.utf8Size) cs

/-- The characters behind those of the first `n` bytes. -/
def dropBytes (n : Nat) : List Char → List Char
  | [] => []
  | c :: cs => if n = 0 then c :: cs else dropBytes (n - c.utf8Size) cs

@[simp] theorem takeBytes_byteLength (front rest : List Char) :
    takeBytes (byteLength front) (front ++ rest) = front := by
  induction front with
  | nil => cases rest <;> simp [takeBytes]
  | cons c cs ih =>
      have hc := c.utf8Size_pos
      rw [List.cons_append, takeBytes, if_neg (by simp; omega), byteLength_cons,
        Nat.add_sub_cancel_left, ih]

@[simp] theorem dropBytes_byteLength (front rest : List Char) :
    dropBytes (byteLength front) (front ++ rest) = rest := by
  induction front with
  | nil => cases rest <;> simp [dropBytes]
  | cons c cs ih =>
      have hc := c.utf8Size_pos
      rw [List.cons_append, dropBytes, if_neg (by simp; omega), byteLength_cons,
        Nat.add_sub_cancel_left, ih]

/-- What a cut leaves is at most what lies behind it. -/
theorem byteLength_dropBytes_le (n : Nat) (cs : List Char) :
    byteLength (dropBytes n cs) ≤ byteLength cs - n := by
  induction cs generalizing n with
  | nil => simp [dropBytes]
  | cons c cs ih =>
      rw [dropBytes]
      split
      case isTrue hn => omega
      case isFalse hn =>
        have hcut := ih (n - c.utf8Size)
        rw [byteLength_cons]
        omega

/-- A piece of a text starts and stops between characters, and its bytes are those of the text from
where it starts to where it stops. -/
theorem bytes_of_piece {text : String} {front piece back : List Char}
    (h : text.toList = front ++ (piece ++ back)) :
    String.Pos.Raw.IsValid text ⟨byteLength front⟩ ∧
      String.Pos.Raw.IsValid text ⟨byteLength front + byteLength piece⟩ ∧
      text.toByteArray.extract (byteLength front) (byteLength front + byteLength piece) =
        (String.ofList piece).toByteArray := by
  have htext : text = String.ofList front ++ (String.ofList piece ++ String.ofList back) := by
    rw [← String.toList_inj]
    simpa using h
  have hfront : byteLength front = (String.ofList front).utf8ByteSize := by
    rw [← byteLength_toList, String.toList_ofList]
  have hpiece : byteLength piece = (String.ofList piece).utf8ByteSize := by
    rw [← byteLength_toList, String.toList_ofList]
  rw [hfront, hpiece]
  refine ⟨?_, ?_, ?_⟩
  · exact String.Pos.Raw.isValid_iff_exists_append.2 ⟨_, _, htext, rfl⟩
  · rw [← String.append_assoc] at htext
    refine String.Pos.Raw.isValid_iff_exists_append.2 ⟨_, _, htext, ?_⟩
    rw [← String.utf8ByteSize_append]
    rfl
  · rw [htext, String.toByteArray_append, String.toByteArray_append,
      ← String.size_toByteArray, ← String.size_toByteArray]
    refine (ByteArray.extract_append_size_add (i := 0)).trans ?_
    exact ByteArray.extract_append_eq_left rfl

end TinyBasic
