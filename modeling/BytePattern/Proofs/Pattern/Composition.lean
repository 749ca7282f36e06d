import BytePattern.Proofs.Pattern.Image

set_option autoImplicit false

/-!
# Patterns: patterns put together

The mode in which a text stands decides only whether a closing parenthesis may be a
literal of it, so a derivation in one mode is one in every mode that allows the
closing parentheses of its tokens.  That is all it takes to put one pattern after
another, beside another or in parentheses: brackets, braces and groups end where they
ended before, and the rules of the grammar do the rest.
-/

namespace BytePattern

open Grammar

/-! ## From one mode to another -/

mutual

/-- A token without closing parentheses may stand in every mode. -/
theorem Token.closersIn_of_throughout (mode : Mode) :
    ∀ token : Token, token.Throughout Token.NotCloser → token.ClosersIn mode
  | .literal _, h => by
    rw [Token.Throughout, Token.NotCloser] at h
    rw [Token.ClosersIn]
    exact fun hbyte => absurd hbyte h
  | .bracket _, _ => by
    rw [Token.ClosersIn]
    exact trivial
  | .either left right, h => by
    rw [Token.Throughout] at h
    rw [Token.ClosersIn]
    exact ⟨left.closersIn_of_throughout mode h.2.1, right.closersIn_of_throughout _ h.2.2⟩
  | .repeated _ _ body, h => by
    rw [Token.Throughout] at h
    rw [Token.ClosersIn]
    exact body.closersIn_of_throughout mode h.2
  | .group tokens, h => by
    rw [Token.Throughout] at h
    rw [Token.ClosersIn]
    exact Token.allClosersIn_of_throughout .group tokens h.2
  | .sequence tokens, h => by
    rw [Token.Throughout] at h
    rw [Token.ClosersIn]
    exact Token.allClosersIn_of_throughout mode tokens h.2

theorem Token.allClosersIn_of_throughout (mode : Mode) :
    ∀ tokens : List Token, Token.AllThroughout Token.NotCloser tokens →
      Token.AllClosersIn mode tokens
  | [], _ => by
    rw [Token.AllClosersIn]
    exact trivial
  | token :: tokens, h => by
    rw [Token.AllThroughout] at h
    rw [Token.AllClosersIn]
    exact ⟨token.closersIn_of_throughout mode h.1,
      Token.allClosersIn_of_throughout mode tokens h.2⟩

end

-- The inside of a group stands in the mode of groups whatever the mode around it, so
-- its derivation is kept as it is.
mutual

theorem Grammar.Atom.inMode {mode mode' : Mode} {text : List UInt8} {token : Token} :
    Atom mode text token → token.ClosersIn mode' → Atom mode' text token
  | .literal hplain, h => by
    rw [Token.ClosersIn] at h
    exact .literal ⟨hplain.1, h⟩
  | .bracket hentries hset, _ => .bracket hentries hset
  | .group hsequence, _ => .group hsequence

theorem Grammar.Item.inMode {mode mode' : Mode} {text : List UInt8} {token : Token} :
    Item mode text token → token.ClosersIn mode' → Item mode' text token
  | .atom hatom, h => .atom (hatom.inMode h)
  | .quantified hitem hmark, h => by
    rw [Token.ClosersIn] at h
    exact .quantified (hitem.inMode h) hmark

theorem Grammar.Items.inMode {mode mode' : Mode} {text : List UInt8} {tokens : List Token} :
    Items mode text tokens → Token.AllClosersIn mode' tokens → Items mode' text tokens
  | .one hitem, h => by
    rw [Token.AllClosersIn] at h
    exact .one (hitem.inMode h.1)
  | .more hitem hitems, h => by
    rw [Token.AllClosersIn] at h
    exact .more (hitem.inMode h.1) (hitems.inMode h.2)

/-- A sequence of one mode is one of every mode that allows its closing parentheses. -/
theorem Grammar.Sequence.inMode {mode mode' : Mode} {text : List UInt8} {tokens : List Token} :
    Sequence mode text tokens → Token.AllClosersIn mode' tokens → Sequence mode' text tokens
  | .items hitems, h => .items (hitems.inMode h)
  | .either hleft hright, h => by
    simp only [Token.AllClosersIn, Token.ClosersIn, and_true] at h
    exact .either (hleft.inMode h.1) (hright.inMode h.2)

end

/-! ## Items and groups among sequences -/

/-- A sequence that is no pair of alternatives is some items. -/
theorem Grammar.Sequence.items_of_no_either {mode : Mode} {text : List UInt8}
    {tokens : List Token} (h : Sequence mode text tokens)
    (hnone : ∀ left right, Token.either left right ∉ tokens) : Items mode text tokens := by
  cases h with
  | items hitems => exact hitems
  | either _ _ => exact absurd List.mem_cons_self (hnone _ _)

/-- A group by itself is written as its sequence in parentheses. -/
theorem Grammar.Sequence.exists_of_group {mode : Mode} {text : List UInt8} {tokens : List Token}
    (h : Sequence mode text [.group tokens]) :
    ∃ inside, text = Mark.openGroup :: (inside ++ [Mark.closeGroup]) ∧
      Sequence .group inside tokens := by
  cases h with
  | items hitems =>
    cases hitems with
    | more _ hnil => exact absurd rfl hnil.ne_nil
    | one hitem =>
      cases hitem with
      | atom hatom =>
        cases hatom with
        | group hinside => exact ⟨_, rfl, hinside⟩

/-- A pattern may be put in parentheses when it has no closing one for a literal, and
what stands in parentheses is such a pattern. -/
theorem Grammar.sequence_group_iff {text : List UInt8} {tokens : List Token} :
    Sequence .group text tokens ↔
      Sequence .top text tokens ∧ Token.AllThroughout Token.NotCloser tokens := by
  constructor
  · intro h
    have hclosers := (Token.allClosersIn_inner (by decide) tokens).1 h.sequenceIn.closers
    exact ⟨h.inMode (Token.allClosersIn_of_throughout .top tokens hclosers), hclosers⟩
  · rintro ⟨h, hclosers⟩
    exact h.inMode (Token.allClosersIn_of_throughout .group tokens hclosers)

/-! ## Patterns -/

/-- Of two patterns, one after the other is read as the tokens of both where neither is
a pair of alternatives, and with a bar between them they are a pair of alternatives
where the first is none and the second has no closing parenthesis for a literal.  A
pattern in parentheses is read as a single group exactly when it can be read by itself,
as the tokens in the group, and has no closing parenthesis for a literal. -/
theorem parse_compose (p q : List UInt8) :
    (∀ a b, parse p = .ok a → parse q = .ok b →
      ((∀ left right, Token.either left right ∉ a) →
        (∀ left right, Token.either left right ∉ b) → parse (p ++ q) = .ok (a ++ b)) ∧
      ((∀ left right, Token.either left right ∉ a) → Token.AllThroughout Token.NotCloser b →
        parse (p ++ Mark.bar :: q) = .ok [.either (.sequence a) (.sequence b)])) ∧
    ∀ t, parse (Mark.openGroup :: (p ++ [Mark.closeGroup])) = .ok [.group t] ↔
      parse p = .ok t ∧ Token.AllThroughout Token.NotCloser t := by
  refine ⟨fun a b hp hq => ⟨fun ha hb => ?_, fun ha hb => ?_⟩, fun t => ⟨fun h => ?_, ?_⟩⟩
  · have hleft := (sequence_of_parse hp).items_of_no_either ha
    have hright := (sequence_of_parse hq).items_of_no_either hb
    exact parse_of_sequence (.items (hleft.append hright))
  · have hleft := (sequence_of_parse hp).items_of_no_either ha
    have hclosers := Token.allClosersIn_of_throughout .alternative b hb
    have hright := (sequence_of_parse hq).inMode hclosers
    exact parse_of_sequence (.either hleft hright)
  · obtain ⟨inside, htext, hinside⟩ := (sequence_of_parse h).exists_of_group
    obtain rfl := List.append_cancel_right (List.tail_eq_of_cons_eq htext)
    obtain ⟨hsequence, hclosers⟩ := sequence_group_iff.1 hinside
    exact ⟨parse_of_sequence hsequence, hclosers⟩
  · rintro ⟨hp, hclosers⟩
    have hinside := sequence_group_iff.2 ⟨sequence_of_parse hp, hclosers⟩
    exact parse_of_sequence (.items (.one (.atom (.group hinside))))

/-- The patterns `a)` and `b*`, together, and the second in parentheses. -/
theorem parse_compose_star :
    parse [0x61, 0x29] = .ok [.literal 0x61, .literal 0x29] ∧
      parse [0x62, 0x2a] = .ok [.repeated 0 .unbounded (.literal 0x62)] ∧
      parse ([0x61, 0x29] ++ [0x62, 0x2a]) =
        .ok ([.literal 0x61, .literal 0x29] ++ [.repeated 0 .unbounded (.literal 0x62)]) ∧
      parse ([0x61, 0x29] ++ Mark.bar :: [0x62, 0x2a]) =
        .ok [.either (.sequence [.literal 0x61, .literal 0x29])
          (.sequence [.repeated 0 .unbounded (.literal 0x62)])] ∧
      parse (Mark.openGroup :: ([0x62, 0x2a] ++ [Mark.closeGroup])) =
        .ok [.group [.repeated 0 .unbounded (.literal 0x62)]] := by
  have hp : parse [0x61, 0x29] = .ok [.literal 0x61, .literal 0x29] := rfl
  have hq : parse [0x62, 0x2a] = .ok [.repeated 0 .unbounded (.literal 0x62)] := rfl
  have hpair := (parse_compose [0x61, 0x29] [0x62, 0x2a]).1 _ _ hp hq
  have hgroup := (parse_compose [0x62, 0x2a] []).2 [.repeated 0 .unbounded (.literal 0x62)]
  have hclosers : Token.AllThroughout Token.NotCloser
      [.repeated 0 .unbounded (.literal 0x62)] := by
    simp only [Token.AllThroughout, Token.Throughout, Token.NotCloser]
    decide
  refine ⟨hp, hq, hpair.1 (by simp) (by simp), hpair.2 (by simp) hclosers, ?_⟩
  exact hgroup.2 ⟨hq, hclosers⟩

end BytePattern
