import Abacus.Session

/-!
An input stream that is text. In UTF-8 the byte of a line feed stands for a line feed and occurs in
the bytes of no other character, so a stream that is the encoding of a text is cut into the
encodings of the lines of the text, and each of them is read as the line it encodes.
-/
namespace Abacus

/-- The lines of a text that is typed in: its pieces between line feeds, without the empty one
after a line feed at the very end. -/
def typedLines (text : String) : List String :=
  let pieces := Text.lines text.toList
  (if pieces.getLast? = some [] then pieces.dropLast else pieces).map String.ofList

namespace Text

/-- The bytes of a character hold that of a line feed only if it is a line feed. -/
theorem lineFeed_mem_utf8EncodeChar {c : Char} (h : (10 : UInt8) ∈ String.utf8EncodeChar c) :
    c = '\n' := by
  have hbyte : ∀ n : Nat, (10 : UInt8) = UInt8.ofNat n → n % 256 = 10 := by
    intro n hn
    have hmod := congrArg UInt8.toNat hn
    rw [UInt8.toNat_ofNat'] at hmod
    exact hmod.symm
  -- A code of one byte is the character's number, and in longer codes every byte is at least 0x80.
  have hvalue : c.val.toNat = 10 := by
    rw [String.utf8EncodeChar.eq_def] at h
    dsimp only at h
    split at h
    · have := hbyte _ (List.mem_singleton.mp h)
      omega
    · split at h
      · simp only [List.mem_cons, List.not_mem_nil, or_false] at h
        rcases h with h | h
        all_goals
          have := hbyte _ h
          omega
      · split at h
        · simp only [List.mem_cons, List.not_mem_nil, or_false] at h
          rcases h with h | h | h
          all_goals
            have := hbyte _ h
            omega
        · simp only [List.mem_cons, List.not_mem_nil, or_false] at h
          rcases h with h | h | h | h
          all_goals
            have := hbyte _ h
            omega
  exact Char.toNat_inj.mp hvalue

/-- Elements that part nothing stay together in front of the first piece. -/
theorem pieces_append {α : Type} {p : α → Bool} {front : List α} (h : ∀ a ∈ front, p a = false)
    (rest : List α) : pieces p (front ++ rest) = (pieces p rest).modifyHead (front ++ ·) := by
  induction front with
  | nil =>
    rw [List.nil_append]
    cases pieces p rest <;> rfl
  | cons a front ih =>
    have ha : p a = false := h a List.mem_cons_self
    have hfront := ih fun b hb => h b (List.mem_cons_of_mem a hb)
    rw [List.cons_append, pieces, ha, hfront]
    cases pieces p rest <;> rfl

/-- The bytes of a text are cut at line feeds where the text is. -/
theorem pieces_flatMap_utf8EncodeChar (cs : List Char) :
    pieces (· == 10) (cs.flatMap String.utf8EncodeChar) =
      (lines cs).map (·.flatMap String.utf8EncodeChar) := by
  induction cs with
  | nil => rfl
  | cons c cs ih =>
    rw [List.flatMap_cons]
    by_cases hc : c = '\n'
    · subst hc
      have hline : String.utf8EncodeChar '\n' = [10] := by decide
      rw [hline, List.singleton_append, pieces, ih]
      rfl
    · have hbytes : ∀ b ∈ String.utf8EncodeChar c, (b == 10) = false := by
        intro b hb
        rw [beq_eq_false_iff_ne]
        rintro rfl
        exact hc (lineFeed_mem_utf8EncodeChar hb)
      have hchar : (c == '\n') = false := by simpa using hc
      rw [pieces_append hbytes, ih, lines, lines, pieces, hchar]
      cases pieces (· == '\n') cs <;> simp

end Text

/-- The loop that lists the bytes of an array from a place on. -/
theorem toList_loop (bytes : ByteArray) (start : Nat) (listed : List UInt8) :
    ByteArray.toList.loop bytes start listed = listed.reverse ++ bytes.data.toList.drop start := by
  have hsize : bytes.data.toList.length = bytes.size := rfl
  rw [ByteArray.toList.loop.eq_def]
  by_cases hstart : start < bytes.size
  · have hget : bytes.get! start = bytes.data.toList[start] := getElem!_pos bytes.data start hstart
    rw [if_pos hstart, toList_loop bytes (start + 1), hget, List.reverse_cons, List.append_assoc,
      List.singleton_append, ← List.drop_eq_getElem_cons]
  · rw [if_neg hstart, List.drop_eq_nil_of_le (by omega), List.append_nil]
termination_by bytes.size - start

theorem toList_toUTF8 (text : String) :
    text.toUTF8.toList = text.toList.flatMap String.utf8EncodeChar := by
  have hloop : text.toUTF8.toList = text.toUTF8.data.toList := toList_loop text.toUTF8 0 []
  rw [hloop, String.toUTF8_eq_toByteArray, ← String.utf8Encode_toList]
  exact List.toList_data_toByteArray

theorem fromUTF8?_flatMap (cs : List Char) :
    String.fromUTF8? ⟨(cs.flatMap String.utf8EncodeChar).toArray⟩ = some (String.ofList cs) := by
  have hbytes : ⟨(cs.flatMap String.utf8EncodeChar).toArray⟩ = cs.utf8Encode := by
    rw [List.utf8Encode]
    apply ByteArray.ext
    rw [← Array.toList_inj, List.toList_data_toByteArray]
  rw [hbytes]
  exact dif_pos ByteArray.isValidUTF8_utf8Encode

/-- A text that is typed in is read as its lines. -/
theorem inputLines_toUTF8 (text : String) :
    inputLines text.toUTF8 = (typedLines text).map some := by
  have hempty : (Text.lines text.toList).getLast?.map (·.flatMap String.utf8EncodeChar) = some [] ↔
      (Text.lines text.toList).getLast? = some [] := by
    cases (Text.lines text.toList).getLast? with
    | none => simp
    | some line =>
      cases line with
      | nil => simp
      | cons c line => simp [String.utf8EncodeChar_ne_nil]
  have hdecode : (fun bytes => String.fromUTF8? ⟨bytes.toArray⟩) ∘
      (·.flatMap String.utf8EncodeChar) = some ∘ String.ofList := funext fromUTF8?_flatMap
  rw [inputLines, toList_toUTF8, Text.pieces_flatMap_utf8EncodeChar, typedLines]
  simp only [List.getLast?_map, hempty]
  split
  · rw [← List.map_dropLast, List.map_map, List.map_map, hdecode]
  · rw [List.map_map, List.map_map, hdecode]

end Abacus
