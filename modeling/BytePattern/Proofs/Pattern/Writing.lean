import BytePattern.Proofs.Pattern.Image

set_option autoImplicit false

/-!
# Patterns: what is written is read back

The grammar derives every readable token list from the pattern that is written
for it, so writing is a section of reading and the readable lists are exactly
what is read.
-/

namespace BytePattern

open Grammar

/-! ## Counts -/

theorem Text.encode_digitChar {d : Nat} (h : d < 10) :
    ∃ b, Text.encode [Nat.digitChar d] = [b] ∧ Digit b d := by
  have hall : ∀ d : Fin 10, Text.encode [Nat.digitChar d] = [UInt8.ofNat (0x30 + d)] := by decide
  have hlt : 0x30 + d < UInt8.size := Nat.lt_of_lt_of_le (Nat.add_lt_add_left h 0x30) (by decide)
  exact ⟨_, hall ⟨d, h⟩, Nat.le_of_lt_succ h, UInt8.toNat_ofNat_of_lt' hlt⟩

/-- The digits of a number are a numeral of it. -/
theorem Grammar.numeral_decimal (n : Nat) : Numeral (Text.encode (Text.decimal n)) n := by
  induction n using Nat.strongRecOn with
  | ind n ih =>
    unfold Text.decimal
    rw [Nat.toDigits_eq_if (by decide)]
    split
    · rename_i hlt
      obtain ⟨b, hb, hdigit⟩ := Text.encode_digitChar hlt
      rw [hb]
      exact .digit hdigit
    · rename_i hge
      obtain ⟨b, hb, hdigit⟩ := Text.encode_digitChar (Nat.mod_lt n (by decide : 0 < 10))
      have hmore := Numeral.more (ih (n / 10) (by omega)) hdigit
      rw [Nat.mul_comm, Nat.div_add_mod] at hmore
      rw [Text.encode_append, hb]
      exact hmore

/-- The counts of a repetition are written as a quantifier. -/
theorem Grammar.quantifies_quantifier {min : Nat} {max : UpperBound}
    (h : Quantifier.Valid ⟨min, max⟩) :
    Quantifies (Text.encode (max.quantifier min)) ⟨min, max⟩ := by
  have hmin : Counts (Text.encode (Text.decimal min)) min := Or.inl (numeral_decimal min)
  have hclose : Text.encode ['\x7d'] = [Mark.closeCounts] := by decide
  have hcomma : ∀ text, Text.encode (',' :: text) = Mark.comma :: Text.encode text :=
    Text.encode_cons_of_lt (by decide)
  unfold UpperBound.quantifier
  rw [Text.encode_cons_of_lt (by decide), Text.encode_append, hclose]
  cases max with
  | unbounded =>
    rw [if_neg (by simp), Text.encode_append, hcomma, List.append_assoc]
    exact .atLeast hmin h
  | bounded bound =>
    have hbound : Counts (Text.encode (Text.decimal bound)) bound := Or.inl (numeral_decimal bound)
    by_cases heq : bound = min
    · subst heq
      rw [if_pos rfl]
      exact .exactly hmin h.2
    · rw [if_neg (by simpa using heq), Text.encode_append, hcomma]
      exact .between hmin hbound h.1 h.2

/-! ## Sets -/

/-- Bytes that stand for themselves. -/
theorem Grammar.entries_singles {bytes : List UInt8}
    (h : ∀ b ∈ bytes, b ≠ Mark.closeBracket ∧ b ≠ Mark.dash) :
    Entries bytes (bytes.map fun b => (b, b)) := by
  induction bytes with
  | nil => exact .nil
  | cons b bytes ih =>
    obtain ⟨hb, hbytes⟩ := List.forall_mem_cons.1 h
    exact .cons (.single hb.1 hb.2) (ih hbytes)

/-- The entries of a set as ranges. -/
def ByteSet.ranges (set : ByteSet) : List (UInt8 × UInt8) :=
  ((set.members.filter fun b => b ≠ Mark.closeBracket ∧ b ≠ Mark.dash).map fun b => (b, b)) ++
    ((if Mark.closeBracket ∈ set then [(Mark.beforeClose, Mark.closeBracket)] else []) ++
      if Mark.dash ∈ set then [(Mark.comma, Mark.dash)] else [])

theorem ByteSet.entries_inside (set : ByteSet) : Entries set.inside set.ranges := by
  have hsingle : ∀ {b : UInt8}, b ≠ Mark.closeBracket → b ≠ Mark.dash → ∀ c : UInt8,
      Entries [b, Mark.dash, c] [(b, c)] := by
    intro b hclose hdash c
    exact Entry.entries (.extend c (.single hclose hdash))
  unfold ByteSet.inside ByteSet.ranges
  refine Entries.append (entries_singles ?_) (Entries.append ?_ ?_)
  · intro b hb
    simpa using (List.mem_filter.1 hb).2
  · split
    · exact hsingle (by decide) (by decide) _
    · exact .nil
  · split
    · exact hsingle (by decide) (by decide) _
    · exact .nil

theorem ByteSet.mem_ranges {set : ByteSet} {range : UInt8 × UInt8} :
    range ∈ set.ranges ↔
      (∃ b ∈ set, (b ≠ Mark.closeBracket ∧ b ≠ Mark.dash) ∧ range = (b, b)) ∨
        (Mark.closeBracket ∈ set ∧ range = (Mark.beforeClose, Mark.closeBracket)) ∨
          (Mark.dash ∈ set ∧ range = (Mark.comma, Mark.dash)) := by
  have hif : ∀ {p : Prop} [Decidable p] {r : UInt8 × UInt8},
      range ∈ (if p then [r] else []) ↔ p ∧ range = r := by
    intro p _ r
    split <;> simp [*]
  unfold ByteSet.ranges
  rw [List.mem_append, List.mem_append, hif, hif]
  simp only [List.mem_map, List.mem_filter, decide_eq_true_eq, ByteSet.mem_members, and_assoc,
    @eq_comm _ _ range]

/-- What is written for a set stands for the set. -/
theorem ByteSet.covers_ranges {set : ByteSet} (h : set.Writable) : Covers set.ranges set := by
  have hpair : ∀ {b c d : UInt8}, d.toNat = c.toNat + 1 → c ≤ b → b ≤ d → b = c ∨ b = d := by
    intro b c d hnext hlow hhigh
    rw [UInt8.le_iff_toNat_le] at hlow hhigh
    rw [← UInt8.toNat_inj, ← UInt8.toNat_inj]
    omega
  refine fun b => ⟨fun hb => ?_, fun hb => ?_⟩
  · by_cases hclose : b = Mark.closeBracket
    · subst hclose
      exact ⟨_, ByteSet.mem_ranges.2 (Or.inr (Or.inl ⟨hb, rfl⟩)), by decide, by decide⟩
    · by_cases hdash : b = Mark.dash
      · subst hdash
        exact ⟨_, ByteSet.mem_ranges.2 (Or.inr (Or.inr ⟨hb, rfl⟩)), by decide, by decide⟩
      · exact ⟨(b, b), ByteSet.mem_ranges.2 (Or.inl ⟨b, hb, ⟨hclose, hdash⟩, rfl⟩),
          UInt8.le_refl b, UInt8.le_refl b⟩
  · obtain ⟨range, hrange, hlow, hhigh⟩ := hb
    rcases ByteSet.mem_ranges.1 hrange with ⟨c, hc, _, rfl⟩ | ⟨hclose, rfl⟩ | ⟨hdash, rfl⟩
    · rwa [UInt8.le_antisymm hhigh hlow]
    · rcases hpair rfl hlow hhigh with rfl | rfl
      · exact h.1 hclose
      · exact hclose
    · rcases hpair rfl hlow hhigh with rfl | rfl
      · exact h.2 hdash
      · exact hdash

theorem Grammar.atom_bracket {mode : Mode} {set : ByteSet} (h : set.Writable) :
    Atom mode (Token.bracket set).written (.bracket set) := by
  rw [Token.written]
  exact .bracket set.entries_inside (ByteSet.covers_ranges h)

/-! ## Items and sequences -/

mutual

/-- The grammar derives an item from what is written for it. -/
theorem Grammar.item_written {mode : Mode} :
    ∀ token : Token, token.ItemIn mode → Item mode token.written token
  | .literal byte, h => by
    obtain ⟨_, hallowed, hclosers⟩ := h
    rw [Token.Throughout, Token.Allowed] at hallowed
    rw [Token.ClosersIn] at hclosers
    rw [Token.written]
    exact .atom (.literal ⟨hallowed, hclosers⟩)
  | .bracket set, h => by
    have hallowed := h.allowed
    rw [Token.Throughout, Token.Allowed] at hallowed
    exact .atom (atom_bracket hallowed)
  | .either _ _, h => h.isItem.elim
  | .repeated min max body, h => by
    obtain ⟨_, hallowed, hclosers⟩ := h
    rw [Token.Throughout, Token.Allowed] at hallowed
    rw [Token.ClosersIn] at hclosers
    obtain ⟨⟨hbody, hcounts⟩, hinside⟩ := hallowed
    rw [Token.written]
    exact .quantified (item_written body ⟨hbody, hinside, hclosers⟩)
      (quantifies_quantifier (Quantifier.valid_iff.2 hcounts))
  | .group tokens, h => by
    obtain ⟨_, hallowed, hclosers⟩ := h
    rw [Token.Throughout, Token.Allowed] at hallowed
    rw [Token.ClosersIn] at hclosers
    rw [Token.written]
    exact .atom (.group (sequence_written tokens ⟨hallowed.1, hallowed.2, hclosers⟩))
  | .sequence _, h => h.isItem.elim

theorem Grammar.items_written {mode : Mode} :
    ∀ tokens : List Token, tokens ≠ [] → (∀ token ∈ tokens, token.ItemIn mode) →
      Items mode (Token.allWritten tokens) tokens
  | [], hne, _ => absurd rfl hne
  | [token], _, h => by
    rw [Token.allWritten, Token.allWritten, List.append_nil]
    exact .one (item_written token (h token List.mem_cons_self))
  | token :: next :: tokens, _, h => by
    obtain ⟨htoken, hrest⟩ := List.forall_mem_cons.1 h
    rw [Token.allWritten]
    exact .more (item_written token htoken)
      (items_written (next :: tokens) (List.cons_ne_nil _ _) hrest)

theorem Grammar.sequence_written {mode : Mode} :
    ∀ tokens : List Token, Token.SequenceIn mode tokens →
      Sequence mode (Token.allWritten tokens) tokens
  | tokens, h => by
    obtain ⟨hsequenced, hallowed, hclosers⟩ := h
    cases hsequenced with
    | items hne hitems =>
      exact .items (items_written tokens hne (Token.forall_itemIn hitems hallowed hclosers))
    | @either left right hne hitems hright =>
      simp only [Token.AllThroughout, Token.Throughout, Token.Allowed, true_and, and_true]
        at hallowed
      simp only [Token.AllClosersIn, Token.ClosersIn, and_true] at hclosers
      simp only [Token.allWritten, Token.written, List.append_nil]
      exact .either
        (items_written left hne (Token.forall_itemIn hitems hallowed.1 hclosers.1))
        (sequence_written right ⟨hright, hallowed.2, hclosers.2⟩)

end

/-! ## Reading -/

/-- What is read from a pattern is readable. -/
theorem readable_of_parse {pattern : List UInt8} {tokens : List Token}
    (h : parse pattern = .ok tokens) : Token.Readable tokens :=
  Token.sequenceIn_top.1 (sequence_of_parse h).sequenceIn

/-- Reading what is written for readable tokens gives the tokens back. -/
theorem parse_allWritten {tokens : List Token} (h : Token.Readable tokens) :
    parse (Token.allWritten tokens) = .ok tokens :=
  parse_of_sequence (sequence_written tokens (Token.sequenceIn_top.2 h))

/-- The token lists that are read from patterns are the readable ones. -/
theorem exists_parse_iff_readable (tokens : List Token) :
    (∃ pattern, parse pattern = .ok tokens) ↔ Token.Readable tokens := by
  constructor
  · intro h
    obtain ⟨pattern, hpattern⟩ := h
    exact readable_of_parse hpattern
  · intro h
    exact ⟨Token.allWritten tokens, parse_allWritten h⟩

end BytePattern
