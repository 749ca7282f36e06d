import BytePattern.Pattern.Basic
import BytePattern.Token

set_option autoImplicit false

/-!
# Patterns: the trees that are read

Which token trees a pattern can be read as, said of the trees alone and without the text of a
pattern.  How sequences are built is a condition on lists of tokens, what bytes, sets and
counts may stand in the tree is a condition on each token by itself, and where a closing
parenthesis may be a literal depends on the way down to it.

For each tree there is also a pattern, byte for byte, that is meant to be read as the tree.
It differs from the written form on one line, which has escapes, in the bytes with a printable
form of their own, and in the two members of a set that cannot stand for themselves between
brackets: a closing bracket and a dash are written as the end of a range from the byte before
them.
-/

namespace BytePattern

/-! ## Conditions on every token of a tree -/

mutual

/-- The property holds of the token and of every token inside it. -/
def Token.Throughout (p : Token → Prop) : Token → Prop
  | .literal byte => p (.literal byte)
  | .bracket set => p (.bracket set)
  | .either left right => p (.either left right) ∧ left.Throughout p ∧ right.Throughout p
  | .repeated min max body => p (.repeated min max body) ∧ body.Throughout p
  | .group tokens => p (.group tokens) ∧ Token.AllThroughout p tokens
  | .sequence tokens => p (.sequence tokens) ∧ Token.AllThroughout p tokens

/-- The property holds of the tokens and of every token inside them. -/
def Token.AllThroughout (p : Token → Prop) : List Token → Prop
  | [] => True
  | token :: tokens => token.Throughout p ∧ Token.AllThroughout p tokens

end

/-! ## Sequences -/

/-- The token can be one of several in a sequence: it is neither a pair of
alternatives nor a plain sequence. -/
def Token.IsItem : Token → Prop
  | .literal _ => True
  | .bracket _ => True
  | .either _ _ => False
  | .repeated _ _ _ => True
  | .group _ => True
  | .sequence _ => False

/-- The tokens are some items, or a single pair of alternatives with items on the
left and such tokens again on the right. -/
inductive Token.Sequenced : List Token → Prop where
  | items {tokens : List Token} :
      tokens ≠ [] → (∀ token ∈ tokens, token.IsItem) → Sequenced tokens
  | either {left right : List Token} :
      left ≠ [] → (∀ token ∈ left, token.IsItem) → Sequenced right →
      Sequenced [.either (.sequence left) (.sequence right)]

/-! ## Bytes, sets and counts -/

/-- The bound, if there is one, is no more than the limit. -/
def UpperBound.AtMost (max : UpperBound) (limit : Nat) : Prop :=
  match max with
  | .unbounded => True
  | .bounded bound => bound ≤ limit

/-- The set can be written between brackets.  A closing bracket and a dash are
written only as the end of a range, and this range starts at another byte, so it
contains the byte before them. -/
def ByteSet.Writable (set : ByteSet) : Prop :=
  (0x5d ∈ set → 0x5c ∈ set) ∧ (0x2d ∈ set → 0x2c ∈ set)

/-- What the token has to be by itself, wherever it stands in the tree. -/
def Token.Allowed : Token → Prop
  | .literal byte =>
    byte ∉ [Mark.openGroup, Mark.openBracket, Mark.openCounts, Mark.bar, Mark.star, Mark.plus,
      Mark.query]
  | .bracket set => set.Writable
  | .either _ _ => True
  | .repeated min max body =>
    body.IsItem ∧ min ≤ repeatLimit ∧ max.AtLeast min ∧ max.AtMost repeatLimit
  | .group tokens => Token.Sequenced tokens
  | .sequence _ => True

/-! ## Closing parentheses -/

/-- The token is no closing parenthesis. -/
def Token.NotCloser : Token → Prop
  | .literal byte => byte ≠ Mark.closeGroup
  | .bracket _ => True
  | .either _ _ => True
  | .repeated _ _ _ => True
  | .group _ => True
  | .sequence _ => True

mutual

/-- A literal in the token is a closing parenthesis only outside every group and
outside the right side of every pair of alternatives. -/
def Token.ClosersOutside : Token → Prop
  | .literal _ => True
  | .bracket _ => True
  | .either left right => left.ClosersOutside ∧ right.Throughout Token.NotCloser
  | .repeated _ _ body => body.ClosersOutside
  | .group tokens => Token.AllThroughout Token.NotCloser tokens
  | .sequence tokens => Token.AllClosersOutside tokens

/-- The same for each of the tokens. -/
def Token.AllClosersOutside : List Token → Prop
  | [] => True
  | token :: tokens => token.ClosersOutside ∧ Token.AllClosersOutside tokens

end

/-! ## Trees -/

/-- The tokens are those of a pattern. -/
structure Token.Readable (tokens : List Token) : Prop where
  sequenced : Token.Sequenced tokens
  allowed : Token.AllThroughout Token.Allowed tokens
  closers : Token.AllClosersOutside tokens

/-! ## A pattern for each tree -/

/-- The byte before the closing bracket. -/
abbrev Mark.beforeClose : UInt8 := 0x5c

/-- What stands between the brackets for a set: the members that stand for
themselves, and after them the two that need a range. -/
def ByteSet.inside (set : ByteSet) : List UInt8 :=
  (set.members.filter fun b => b ≠ Mark.closeBracket ∧ b ≠ Mark.dash) ++
    ((if Mark.closeBracket ∈ set then [Mark.beforeClose, Mark.dash, Mark.closeBracket] else []) ++
      if Mark.dash ∈ set then [Mark.comma, Mark.dash, Mark.dash] else [])

mutual

/-- A pattern for a token. -/
def Token.written : Token → List UInt8
  | .literal byte => [byte]
  | .bracket set => Mark.openBracket :: set.inside ++ [Mark.closeBracket]
  | .either left right => left.written ++ Mark.bar :: right.written
  | .repeated min max body => body.written ++ Text.encode (max.quantifier min)
  | .group tokens => Mark.openGroup :: Token.allWritten tokens ++ [Mark.closeGroup]
  | .sequence tokens => Token.allWritten tokens

/-- A pattern for tokens, one after the other. -/
def Token.allWritten : List Token → List UInt8
  | [] => []
  | token :: tokens => token.written ++ Token.allWritten tokens

end

end BytePattern
