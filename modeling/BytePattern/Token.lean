import BytePattern.Byte
import BytePattern.Text

set_option autoImplicit false

/-!
# Tokens

A pattern is read into a list of token trees.  A token matches one byte, one byte of a set,
one of two alternatives, a number of copies of its body, or its members one after the other;
groups and plain sequences match alike and differ in how they are written.

A token tree is written back as a pattern: bytes in their printable form, set members
ascending and without ranges, every repetition with its counts in braces, and parentheses
exactly where the tree has a group.
-/

namespace BytePattern

/-- How many copies a repetition admits at most. -/
inductive UpperBound where
  | unbounded
  | bounded (count : Nat)
  deriving DecidableEq, Repr, Inhabited

/-- A node of a token tree. -/
inductive Token where
  /-- exactly this byte -/
  | literal (byte : UInt8)
  /-- any one byte of the set -/
  | bracket (set : ByteSet)
  /-- what either side matches -/
  | either (left right : Token)
  /-- copies of the body, from `min` to `max` -/
  | repeated (min : Nat) (max : UpperBound) (body : Token)
  /-- the members in order, written in parentheses -/
  | group (tokens : List Token)
  /-- the members in order, written as they stand -/
  | sequence (tokens : List Token)
  deriving Repr

namespace Token

instance : Inhabited Token := ⟨sequence []⟩

end Token

/-- The bound is no less than the number. -/
def UpperBound.AtLeast (max : UpperBound) (min : Nat) : Prop :=
  match max with
  | .unbounded => True
  | .bounded bound => min ≤ bound

mutual

/-- Every repetition in the token has its bounds in order. -/
def Token.Ordered : Token → Prop
  | .literal _ => True
  | .bracket _ => True
  | .either left right => left.Ordered ∧ right.Ordered
  | .repeated min max body => max.AtLeast min ∧ body.Ordered
  | .group tokens => Token.AllOrdered tokens
  | .sequence tokens => Token.AllOrdered tokens

/-- Every repetition in the tokens has its bounds in order. -/
def Token.AllOrdered : List Token → Prop
  | [] => True
  | token :: tokens => token.Ordered ∧ Token.AllOrdered tokens

end

/-! ## The written form -/

open Text (decimal)

/-- The decimal digits of a bound; an open bound has none. -/
def UpperBound.spelling : UpperBound → List Char
  | .unbounded => []
  | .bounded count => decimal count

/-- The counts of a repetition, in braces: one number when both bounds are it. -/
def UpperBound.quantifier (min : Nat) (max : UpperBound) : List Char :=
  '\x7b' :: ((if max = .bounded min then decimal min
    else decimal min ++ ',' :: max.spelling) ++ ['\x7d'])

mutual

/-- The written form of a token. -/
def Token.spelling : Token → List Char
  | .literal byte => Byte.escape byte
  | .bracket set => '[' :: (set.members.flatMap Byte.escape ++ [']'])
  | .either left right => left.spelling ++ '|' :: right.spelling
  | .repeated min max body => body.spelling ++ max.quantifier min
  | .group tokens => '(' :: (Token.spellings tokens ++ [')'])
  | .sequence tokens => Token.spellings tokens

/-- The written forms of tokens, one after the other. -/
def Token.spellings : List Token → List Char
  | [] => []
  | token :: tokens => token.spelling ++ Token.spellings tokens

end

/-- The written form of a token, as a text. -/
def Token.text (token : Token) : String := String.ofList token.spelling

end BytePattern
