import BytePattern.Proofs.Pattern.Writing

set_option autoImplicit false

/-!
# Patterns: the written form is read back

Where every byte of a token tree shows as itself, its written form is the
pattern that is written for the tree.  So the written form of what was read is a
pattern again, and is read as the same tokens.
-/

namespace BytePattern

/-- The byte is shown as itself: it is printable, and neither a quote nor the
backslash. -/
def Byte.Legible (b : UInt8) : Prop :=
  0x20 ≤ b ∧ b ≤ 0x7e ∧ b ≠ 0x22 ∧ b ≠ 0x27 ∧ b ≠ 0x5c

/-- The bytes of the token itself are shown as themselves, and those of a set also
stand for themselves between brackets. -/
def Token.Legible : Token → Prop
  | .literal byte => Byte.Legible byte
  | .bracket set =>
    ∀ b ∈ set, Byte.Legible b ∧ b ≠ Mark.dash ∧ b ≠ Mark.closeBracket
  | .either _ _ => True
  | .repeated _ _ _ => True
  | .group _ => True
  | .sequence _ => True

theorem Byte.Legible.encode_escape {b : UInt8} (h : Byte.Legible b) :
    Text.encode (Byte.escape b) = [b] := by
  obtain ⟨hlow, hhigh, hdouble, hsingle, hslash⟩ := h
  rw [Byte.escape_of_printable hlow hhigh hdouble hsingle hslash]
  refine Text.encode_ofUInt8 ?_
  rw [UInt8.le_iff_toNat_le] at hhigh
  rw [UInt8.lt_iff_toNat_lt]
  exact Nat.lt_of_le_of_lt hhigh (by decide)

theorem Byte.encode_escapes {bytes : List UInt8} (h : ∀ b ∈ bytes, Byte.Legible b) :
    Text.encode (bytes.flatMap Byte.escape) = bytes := by
  induction bytes with
  | nil => rfl
  | cons b bytes ih =>
    obtain ⟨hb, hbytes⟩ := List.forall_mem_cons.1 h
    rw [List.flatMap_cons, Text.encode_append, hb.encode_escape, ih hbytes]
    rfl

/-- Members that all stand for themselves are what is written for a set. -/
theorem ByteSet.inside_eq_members {set : ByteSet}
    (h : ∀ b ∈ set, b ≠ Mark.dash ∧ b ≠ Mark.closeBracket) : set.inside = set.members := by
  have hclose : Mark.closeBracket ∉ set := fun hmem => (h _ hmem).2 rfl
  have hdash : Mark.dash ∉ set := fun hmem => (h _ hmem).1 rfl
  unfold ByteSet.inside
  rw [if_neg hclose, if_neg hdash, List.append_nil, List.append_nil, List.filter_eq_self]
  intro b hb
  simpa using (h b hb).symm

mutual

/-- The written form of legible tokens, as bytes. -/
theorem Token.encode_spelling :
    ∀ token : Token, token.Throughout Token.Legible → Text.encode token.spelling = token.written
  | .literal byte, h => by
    rw [Token.Throughout, Token.Legible] at h
    rw [Token.spelling, Token.written, h.encode_escape]
  | .bracket set, h => by
    rw [Token.Throughout, Token.Legible] at h
    rw [Token.spelling, Token.written, ByteSet.inside_eq_members fun b hb => (h b hb).2,
      Text.encode_cons_of_lt (by decide), Text.encode_append,
      Byte.encode_escapes fun b hb => (h b hb).1, Text.encode_cons_of_lt (by decide)]
    rfl
  | .either left right, h => by
    rw [Token.Throughout] at h
    rw [Token.spelling, Token.written, Text.encode_append, Text.encode_cons_of_lt (by decide),
      Token.encode_spelling left h.2.1, Token.encode_spelling right h.2.2]
    rfl
  | .repeated min max body, h => by
    rw [Token.Throughout] at h
    rw [Token.spelling, Token.written, Text.encode_append, Token.encode_spelling body h.2]
  | .group tokens, h => by
    rw [Token.Throughout] at h
    rw [Token.spelling, Token.written, Text.encode_cons_of_lt (by decide), Text.encode_append,
      Token.encode_spellings tokens h.2, Text.encode_cons_of_lt (by decide)]
    rfl
  | .sequence tokens, h => by
    rw [Token.Throughout] at h
    rw [Token.spelling, Token.written, Token.encode_spellings tokens h.2]

theorem Token.encode_spellings :
    ∀ tokens : List Token, Token.AllThroughout Token.Legible tokens →
      Text.encode (Token.spellings tokens) = Token.allWritten tokens
  | [], _ => by
    rw [Token.spellings, Token.allWritten, Text.encode_nil]
  | token :: tokens, h => by
    rw [Token.AllThroughout] at h
    rw [Token.spellings, Token.allWritten, Text.encode_append, Token.encode_spelling token h.1,
      Token.encode_spellings tokens h.2]

end

theorem Token.toList_join_text (tokens : List Token) :
    (String.join (tokens.map Token.text)).toList = Token.spellings tokens := by
  rw [String.toList_join]
  induction tokens with
  | nil => rfl
  | cons token tokens ih =>
    rw [List.map_cons, List.flatMap_cons, ih, Token.spellings, Token.text, String.toList_ofList]

/-- The texts of legible tokens that were read, one after the other, are read as
the same tokens. -/
theorem parse_join_text {pattern : List UInt8} {tokens : List Token}
    (h : parse pattern = .ok tokens) (hlegible : Token.AllThroughout Token.Legible tokens) :
    parse (Text.bytes (String.join (tokens.map Token.text))) = .ok tokens := by
  rw [Text.bytes_eq_encode, Token.toList_join_text, Token.encode_spellings tokens hlegible]
  exact parse_allWritten (readable_of_parse h)

/-- The text of what is read from `(a|[b-d])+`, in which the counts and the members
of the set are written out. -/
theorem parse_join_text_group :
    ∃ tokens, parse [0x28, 0x61, 0x7c, 0x5b, 0x62, 0x2d, 0x64, 0x5d, 0x29, 0x2b] = .ok tokens ∧
      Token.AllThroughout Token.Legible tokens ∧
      parse (Text.bytes (String.join (tokens.map Token.text))) = .ok tokens := by
  have h : parse [0x28, 0x61, 0x7c, 0x5b, 0x62, 0x2d, 0x64, 0x5d, 0x29, 0x2b] =
      .ok [.repeated 1 .unbounded (.group [.either (.sequence [.literal 0x61])
        (.sequence [.bracket (.ofRanges [(0x62, 0x64)])])])] := rfl
  have hset : ∀ b ∈ ByteSet.ofRanges [(0x62, 0x64)],
      Byte.Legible b ∧ b ≠ Mark.dash ∧ b ≠ Mark.closeBracket := by
    unfold Byte.Legible
    decide +kernel
  have hlegible : Token.AllThroughout Token.Legible
      [.repeated 1 .unbounded (.group [.either (.sequence [.literal 0x61])
        (.sequence [.bracket (.ofRanges [(0x62, 0x64)])])])] := by
    simp only [Token.AllThroughout, Token.Throughout, Token.Legible, true_and, and_true]
    exact ⟨by unfold Byte.Legible; decide, hset⟩
  exact ⟨_, h, hlegible, parse_join_text h hlegible⟩

end BytePattern
