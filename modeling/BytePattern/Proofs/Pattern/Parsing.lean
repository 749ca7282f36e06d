import BytePattern.Proofs.Pattern.Acceptance
import BytePattern.Proofs.Pattern.Reading

set_option autoImplicit false

/-!
# Patterns: reading is the grammar

The two directions put together: a pattern is read as some tokens exactly when
the grammar derives these tokens from it.  What the grammar says of its tokens is
therefore true of everything that is read.
-/

namespace BytePattern

open Grammar

/-- A pattern is read as tokens exactly when it is a sequence of the grammar with
these tokens. -/
theorem parse_eq_ok_iff (pattern : List UInt8) (tokens : List Token) :
    parse pattern = .ok tokens ↔ Sequence .top pattern tokens :=
  ⟨sequence_of_parse, parse_of_sequence⟩

/-! ## Bounds in order -/

theorem Grammar.Quantifies.atLeast_min {mark : List UInt8} {q : Quantifier}
    (h : Quantifies mark q) : q.max.AtLeast q.min := by
  cases h with
  | star => exact trivial
  | plus => exact trivial
  | query => exact Nat.zero_le 1
  | exactly _ _ => exact Nat.le_refl _
  | atLeast _ _ => exact trivial
  | between _ _ hle _ => exact hle

mutual

theorem Grammar.Atom.ordered {mode : Mode} {text : List UInt8} {token : Token} :
    Atom mode text token → token.Ordered
  | .literal _ => by
    rw [Token.Ordered]
    exact trivial
  | .bracket _ _ => by
    rw [Token.Ordered]
    exact trivial
  | .group hsequence => by
    rw [Token.Ordered]
    exact hsequence.ordered

theorem Grammar.Item.ordered {mode : Mode} {text : List UInt8} {token : Token} :
    Item mode text token → token.Ordered
  | .atom hatom => hatom.ordered
  | .quantified hitem hmark => by
    rw [Token.Ordered]
    exact ⟨hmark.atLeast_min, hitem.ordered⟩

theorem Grammar.Items.ordered {mode : Mode} {text : List UInt8} {tokens : List Token} :
    Items mode text tokens → Token.AllOrdered tokens
  | .one hitem => by
    rw [Token.AllOrdered, Token.AllOrdered]
    exact ⟨hitem.ordered, trivial⟩
  | .more hitem hitems => by
    rw [Token.AllOrdered]
    exact ⟨hitem.ordered, hitems.ordered⟩

theorem Grammar.Sequence.ordered {mode : Mode} {text : List UInt8} {tokens : List Token} :
    Sequence mode text tokens → Token.AllOrdered tokens
  | .items hitems => hitems.ordered
  | .either hleft hright => by
    simp only [Token.AllOrdered, Token.Ordered]
    exact ⟨⟨hleft.ordered, hright.ordered⟩, trivial⟩

end

/-- Every repetition that is read has its bounds in order. -/
theorem allOrdered_of_parse {pattern : List UInt8} {tokens : List Token}
    (h : parse pattern = .ok tokens) : Token.AllOrdered tokens :=
  (sequence_of_parse h).ordered

/-- A sequence has a token. -/
theorem Grammar.Sequence.ne_nil {mode : Mode} {text : List UInt8} {tokens : List Token}
    (h : Sequence mode text tokens) : tokens ≠ [] := by
  cases h with
  | items hitems => exact hitems.ne_nil
  | either _ _ => exact List.cons_ne_nil _ _

end BytePattern
