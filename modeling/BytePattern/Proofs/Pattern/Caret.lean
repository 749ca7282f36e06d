import BytePattern.Proofs.Pattern.Cause
import BytePattern.Text

set_option autoImplicit false

/-!
# Patterns: where the caret stands

An error is shown above its pattern with a caret that is indented by the offset, and an
offset counts bytes.  The offset is always that of a whole character, because what an
error points at is a mark, and a mark is no part of the bytes of another character.  So
the only thing that moves the caret away from its character is a character before it
that takes more than one byte, and every such character moves it to the right.
-/

namespace BytePattern

/-! ## Characters and their bytes -/

namespace Text

theorem isUTF8FirstByte_of_lt {b : UInt8} (h : b < 0x80) : b.IsUTF8FirstByte := by
  have hlt : b.toNat < 2 ^ 7 := UInt8.lt_iff_toNat_lt.1 h
  have hand : b.toNat &&& 2 ^ 7 = 0 := by
    refine Nat.eq_of_testBit_eq fun i => ?_
    rw [Nat.testBit_and, Nat.testBit_two_pow, Nat.zero_testBit]
    by_cases hi : 7 = i
    · rw [← hi, Nat.testBit_lt_two_pow hlt, Bool.false_and]
    · rw [decide_eq_false hi, Bool.and_false]
  exact Or.inl (UInt8.toNat_inj.1 ((UInt8.toNat_and b 128).trans hand))

/-- A byte below 0x80 begins a character. -/
theorem exists_split_of_getElem? {chars : List Char} {k : Nat} {b : UInt8}
    (h : (encode chars)[k]? = some b) (hb : b < 0x80) :
    ∃ before rest, chars = before ++ rest ∧ (encode before).length = k := by
  induction chars generalizing k with
  | nil => cases h
  | cons c chars ih =>
    rw [encode_cons] at h
    rcases Nat.lt_or_ge k (String.utf8EncodeChar c).length with hlt | hge
    · -- no byte of a character but the first is one that begins a character
      rw [List.getElem?_append_left hlt, List.getElem?_eq_getElem hlt] at h
      have hfirst := isUTF8FirstByte_of_lt hb
      rw [← Option.some.inj h, UInt8.isUTF8FirstByte_getElem_utf8EncodeChar] at hfirst
      exact ⟨[], c :: chars, rfl, hfirst.symm⟩
    · rw [List.getElem?_append_right hge] at h
      obtain ⟨before, rest, rfl, hlength⟩ := ih h
      refine ⟨c :: before, rest, rfl, ?_⟩
      rw [encode_cons, List.length_append, hlength]
      omega

/-- Characters have as many bytes as there are of them when all are below 0x80, and
more when one is not. -/
theorem length_encode (chars : List Char) :
    chars.length ≤ (encode chars).length ∧
      ((encode chars).length = chars.length ↔ ∀ c ∈ chars, c.toNat < 0x80) := by
  induction chars with
  | nil => simp
  | cons c chars ih =>
    obtain ⟨hle, hiff⟩ := ih
    have hpos : 0 < c.utf8Size := c.utf8Size_pos
    have hone : c.utf8Size = 1 ↔ c.toNat < 0x80 := by
      rw [Char.utf8Size_eq_one_iff, UInt32.le_iff_toNat_le]
      exact Nat.lt_succ_iff.symm
    rw [encode_cons, List.length_append, String.length_utf8EncodeChar, List.length_cons,
      List.forall_mem_cons, ← hone, ← hiff]
    omega

/-- The text ends in two lines. -/
def EndsInLines (text above last : List Char) : Prop :=
  ∃ first, text = first ++ '\n' :: (above ++ '\n' :: last) ∧ '\n' ∉ above ∧ '\n' ∉ last

end Text

/-! ## Offsets of errors -/

/-- The cause of a fault is a byte below 0x80, or the end of the pattern. -/
theorem Fault.PointsAt.lt_or_length {pattern : List UInt8} {k : Nat} {fault : Fault}
    (h : fault.PointsAt pattern k) :
    k = pattern.length ∨ ∃ b < (0x80 : UInt8), pattern[k]? = some b := by
  have hbraced : ∀ {body : List UInt8}, Grammar.Braced pattern k body →
      ∃ b < (0x80 : UInt8), pattern[k]? = some b := by
    rintro body ⟨_, before, rest, rfl, rfl⟩
    exact ⟨Mark.openCounts, by decide, getElem?_length_append before _ _⟩
  cases fault with
  | unexpectedByte _ => exact absurd h not_false
  | unterminatedGroup => exact Or.inr ⟨_, by decide, h.1⟩
  | unterminatedBracket =>
    obtain ⟨before, inside, _, _, rfl, _, _, rfl | rfl⟩ := h
    · exact Or.inr ⟨Mark.openBracket, by decide, getElem?_length_append before _ _⟩
    · exact Or.inr ⟨Mark.openBracket, by decide, getElem?_length_append before _ _⟩
  | unterminatedQuantifier => exact Or.inr ⟨_, by decide, h.1⟩
  | invalidBound _ =>
    obtain ⟨_, h, _⟩ := h
    exact Or.inr (hbraced h)
  | invalidFieldCount _ =>
    obtain ⟨_, _, h, _⟩ := h
    exact Or.inr (hbraced h)
  | reversedBounds _ _ =>
    obtain ⟨_, _, h, _⟩ := h
    exact Or.inr (hbraced h)
  | repeatTooLarge _ =>
    obtain ⟨_, _, h, _⟩ := h
    exact Or.inr (hbraced h)
  | nothingToRepeat =>
    obtain ⟨b, hmem, hb⟩ := h
    refine Or.inr ⟨b, ?_, hb⟩
    simp only [List.mem_cons, List.not_mem_nil, or_false] at hmem
    rcases hmem with rfl | rfl | rfl | rfl <;> decide
  | danglingRange => exact Or.inr ⟨_, by decide, h⟩
  | unmatchedClose => exact Or.inr ⟨_, by decide, h.1⟩
  | emptyExpression =>
    rcases h with hend | ⟨b, hmem, hb⟩
    · exact Or.inl hend
    · refine Or.inr ⟨b, ?_, hb⟩
      simp only [List.mem_cons, List.not_mem_nil, or_false] at hmem
      rcases hmem with rfl | rfl <;> decide

/-- An error is at a byte below 0x80 of its pattern, or at the end. -/
theorem lt_or_length_of_parse {pattern : List UInt8} {e : PatternError}
    (h : parse pattern = .error e) :
    e.offset = pattern.length ∨ ∃ b < (0x80 : UInt8), pattern[e.offset]? = some b := by
  rcases parse_eq_error h with ⟨before, b, rest, r, rfl, hrun, hfails⟩ | ⟨r, hrun, hstops⟩
  · exact (hfails.pointsAt (Reading.run hrun) rest).lt_or_length
  · exact (hstops.pointsAt (Reading.run hrun)).lt_or_length

/-- An error in a text is in front of a character of it, or at the end. -/
theorem exists_split_of_parse {pattern : String} {e : PatternError}
    (h : parse (Text.bytes pattern) = .error e) :
    ∃ before rest, pattern.toList = before ++ rest ∧ (Text.encode before).length = e.offset := by
  rw [Text.bytes_eq_encode] at h
  rcases lt_or_length_of_parse h with hend | ⟨b, hlt, hb⟩
  · exact ⟨pattern.toList, [], (List.append_nil _).symm, hend.symm⟩
  · exact Text.exists_split_of_getElem? hb hlt

/-! ## The caret -/

namespace PatternError

variable {pattern : String}

/-- The last line of an error that is shown. -/
def caretLine (e : PatternError) : List Char :=
  [' ', '|', ' '] ++ List.replicate e.offset ' ' ++ ['^']

theorem idxOf_caretLine (e : PatternError) : e.caretLine.idxOf '^' = 3 + e.offset := by
  have hindent : '^' ∉ [' ', '|', ' '] ++ List.replicate e.offset ' ' := by simp
  rw [caretLine, List.idxOf_append, if_neg hindent, List.idxOf_cons_self, List.length_append,
    List.length_replicate, Nat.zero_add]
  rfl

/-- An error shows its pattern on a line, and the caret on the line under it. -/
theorem endsInLines_display (e : PatternError) (hline : '\n' ∉ pattern.toList) :
    Text.EndsInLines (e.display .plain pattern).toList ([' ', '|', ' '] ++ pattern.toList)
      e.caretLine := by
  refine ⟨(e.text .plain).toList, ?_, by simp [hline], by simp [caretLine]⟩
  simp [display, indent, caretLine]

end PatternError

/-- The character that an error is at is on the line above the caret, as far from its
beginning as there are characters before it, and the caret is as far from the beginning of
its own line as these characters have bytes.  So the caret is under the character exactly
when there are no characters but those of one byte before it. -/
theorem caret_column {pattern : String} {e : PatternError}
    (h : parse (Text.bytes pattern) = .error e) (hline : '\n' ∉ pattern.toList) :
    ∃ before rest above last, pattern.toList = before ++ rest ∧
      (Text.encode before).length = e.offset ∧
      Text.EndsInLines (e.display .plain pattern).toList above last ∧
      above = [' ', '|', ' '] ++ before ++ rest ∧
      last.idxOf '^' = 3 + e.offset ∧
      (last.idxOf '^' = 3 + before.length ↔ ∀ c ∈ before, c.toNat < 0x80) := by
  obtain ⟨before, rest, hsplit, hlength⟩ := exists_split_of_parse h
  refine ⟨before, rest, _, _, hsplit, hlength, e.endsInLines_display hline, ?_,
    e.idxOf_caretLine, ?_⟩
  · rw [hsplit, List.append_assoc]
  · rw [e.idxOf_caretLine, ← hlength, Nat.add_left_cancel_iff]
    exact (Text.length_encode before).2

/-- In `ab(c` the caret is under the parenthesis. -/
theorem caret_column_letters : parse (Text.bytes "ab(c") = .error ⟨.unterminatedGroup, 2⟩ ∧
    ∃ before rest above last, "ab(c".toList = before ++ rest ∧ (Text.encode before).length = 2 ∧
      Text.EndsInLines (PatternError.display .plain ⟨.unterminatedGroup, 2⟩ "ab(c").toList
        above last ∧ last.idxOf '^' = 3 + before.length := by
  have h : parse (Text.bytes "ab(c") = .error ⟨.unterminatedGroup, 2⟩ := by
    rw [Text.bytes_eq_encode]
    rfl
  have hbytes : ("ab(c".toList.all fun c => c.toNat < 0x80) = true := by decide
  obtain ⟨before, rest, above, last, hsplit, hlength, hlines, _, _, hcaret⟩ :=
    caret_column h (by decide)
  have hbefore : ∀ c ∈ before, c.toNat < 0x80 := fun c hc =>
    of_decide_eq_true (List.all_eq_true.1 hbytes c (hsplit ▸ List.mem_append_left rest hc))
  exact ⟨h, before, rest, above, last, hsplit, hlength, hlines, hcaret.2 hbefore⟩

/-- In `é(` the parenthesis has four characters before it on its line, and the caret has
five. -/
theorem caret_column_accent : parse (Text.bytes "é(") = .error ⟨.unterminatedGroup, 2⟩ ∧
    (Text.encode ['é']).length = 2 ∧
    Text.EndsInLines (PatternError.display .plain ⟨.unterminatedGroup, 2⟩ "é(").toList
      " | é(".toList " |   ^".toList ∧
    " | é(".toList.idxOf '(' = 4 ∧ " |   ^".toList.idxOf '^' = 5 := by
  have h : parse (Text.bytes "é(") = .error ⟨.unterminatedGroup, 2⟩ := by
    rw [Text.bytes_eq_encode]
    rfl
  refine ⟨h, by decide, ?_, by decide, by decide⟩
  exact PatternError.endsInLines_display ⟨.unterminatedGroup, 2⟩ (by decide)

end BytePattern
