import BytePattern.Pattern.Grammar

set_option autoImplicit false

/-!
# Patterns: what an error says

An error is the right one when the text of the pattern bears it out, and what that
means for each fault is said here of the text alone.  Which groups are open at an
offset is decided by the text before it, piece after piece from the left: brackets
and braces hide the parentheses between them, and a closing parenthesis closes the
innermost group or, where none is open, nothing.

Most errors are there as soon as the byte that shows them has been read.  The others
are those of a pattern that ends too early, and for them it matters whether there is
a text that goes on with it.
-/

namespace BytePattern

open Grammar

namespace Grammar

/-! ## Open groups -/

/-- The text stands at the offset with the groups of the first list open, and leaves
those of the second open.  Groups are given by the offset of their parenthesis,
innermost first. -/
inductive Nesting : Nat → List Nat → List UInt8 → List Nat → Prop where
  | nil {n : Nat} {around : List Nat} : Nesting n around [] around
  | openGroup {n : Nat} {around left : List Nat} {rest : List UInt8} :
      Nesting (n + 1) (n :: around) rest left → Nesting n around (Mark.openGroup :: rest) left
  | closeGroup {n : Nat} {around left : List Nat} {rest : List UInt8} :
      Nesting (n + 1) around.tail rest left → Nesting n around (Mark.closeGroup :: rest) left
  | bracket {n : Nat} {around left : List Nat} {inside rest : List UInt8}
      {ranges : List (UInt8 × UInt8)} : Entries inside ranges →
      Nesting (n + (inside.length + 2)) around rest left →
      Nesting n around (Mark.openBracket :: (inside ++ Mark.closeBracket :: rest)) left
  | counts {n : Nat} {around left : List Nat} {body rest : List UInt8} :
      Mark.closeCounts ∉ body → Nesting (n + (body.length + 2)) around rest left →
      Nesting n around (Mark.openCounts :: (body ++ Mark.closeCounts :: rest)) left
  | other {n : Nat} {around left : List Nat} {b : UInt8} {rest : List UInt8} :
      b ∉ [Mark.openGroup, Mark.closeGroup, Mark.openBracket, Mark.openCounts] →
      Nesting (n + 1) around rest left → Nesting n around (b :: rest) left

/-- The pattern ends in the bracket opened at the offset, maybe right after a dash. -/
def EndsInBracket (pattern : List UInt8) (k : Nat) : Prop :=
  ∃ (before inside : List UInt8) (around : List Nat) (ranges : List (UInt8 × UInt8)),
    before.length = k ∧ Nesting 0 [] before around ∧ Entries inside ranges ∧
      (pattern = before ++ Mark.openBracket :: inside ∨
        pattern = before ++ Mark.openBracket :: (inside ++ [Mark.dash]))

/-- The text stands between the braces opened at the offset. -/
def Braced (pattern : List UInt8) (k : Nat) (body : List UInt8) : Prop :=
  Mark.closeCounts ∉ body ∧ ∃ before rest : List UInt8, before.length = k ∧
    pattern = before ++ Mark.openCounts :: (body ++ Mark.closeCounts :: rest)

end Grammar

/-! ## Causes -/

/-- The fault has its cause at the offset. -/
def Fault.PointsAt (pattern : List UInt8) (k : Nat) : Fault → Prop
  | .unexpectedByte _ => False
  | .unterminatedGroup =>
    pattern[k]? = some Mark.openGroup ∧ ∃ around, Nesting 0 [] pattern (k :: around)
  | .unterminatedBracket => EndsInBracket pattern k
  | .unterminatedQuantifier =>
    pattern[k]? = some Mark.openCounts ∧ Mark.closeCounts ∉ pattern.drop (k + 1)
  | .invalidBound cause => ∃ body, Braced pattern k body ∧
    ∃ field ∈ Quantifier.fields body, Count.read field = .error cause
  | .invalidFieldCount count =>
    3 ≤ count ∧ ∃ body, Braced pattern k body ∧ count = 1 + body.count Mark.comma
  | .reversedBounds min max => max < min ∧ ∃ body, Braced pattern k body ∧
    ∃ least greatest, Quantifier.fields body = [least, greatest] ∧
      Count.read least = .ok min ∧ Count.read greatest = .ok max
  | .repeatTooLarge count => repeatLimit < count ∧ ∃ body, Braced pattern k body ∧
    ∃ field ∈ Quantifier.fields body, Count.read field = .ok count
  | .nothingToRepeat =>
    ∃ b ∈ [Mark.star, Mark.plus, Mark.query, Mark.openCounts], pattern[k]? = some b
  | .danglingRange => pattern[k]? = some Mark.dash
  | .unmatchedClose => pattern[k]? = some Mark.closeGroup ∧
    ∃ j < k, pattern[j]? = some Mark.bar ∧ Nesting 0 [] (pattern.take j) []
  | .emptyExpression =>
    k = pattern.length ∨ ∃ b ∈ [Mark.closeGroup, Mark.bar], pattern[k]? = some b

/-! ## Errors of the end -/

namespace PatternError

/-- The error does not come from the pattern ending where it does. -/
def Definitive (pattern : List UInt8) (e : PatternError) : Prop :=
  e.fault ∉ [.unterminatedGroup, .unterminatedBracket, .unterminatedQuantifier] ∧
    e ≠ ⟨.emptyExpression, pattern.length⟩

/-- The error comes from the pattern ending where it does, in a group, where an
alternative has no item, or in a bracket that is not ruined by its first byte. -/
def Completable (pattern : List UInt8) (e : PatternError) : Prop :=
  e.fault = .unterminatedGroup ∨ e = ⟨.emptyExpression, pattern.length⟩ ∨
    (e.fault = .unterminatedBracket ∧
      pattern.drop e.offset ≠ [Mark.openBracket, Mark.dash])

end PatternError

end BytePattern
