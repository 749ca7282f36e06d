import BytePattern.Pattern.Reader

set_option autoImplicit false

/-!
# Patterns: what is said against braces

A pair of braces can be wrong in several ways at once, and the error of the pattern
names one of them.  The ways have an order, and the one that is named is the first of
them that applies.  Where none applies, the braces repeat the token before them, and
this is the last one of the last alternative however deep that alternative is.
-/

namespace BytePattern

/-! ## Where braces stand -/

/-- After the text a pattern stands between two items: it is one by itself, or would
only have to go on. -/
def BetweenItems (before : List UInt8) : Prop :=
  (∃ tokens, parse before = .ok tokens) ∨
    (∃ opened, parse before = .error ⟨.unterminatedGroup, opened⟩) ∨
      parse before = .error ⟨.emptyExpression, before.length⟩

/-- After the text the open sequence is without an item, which is an error when the
pattern ends there or when its group is closed there. -/
def NothingOpen (before : List UInt8) : Prop :=
  parse before = .error ⟨.emptyExpression, before.length⟩ ∨
    parse (before ++ [Mark.closeGroup]) = .error ⟨.emptyExpression, before.length⟩

/-! ## Bounds and objections -/

/-- The fields between braces name the bounds.  A single field is both of them, and an
empty second field is no upper bound. -/
inductive Quantifier.Names : List (List UInt8) → Nat → UpperBound → Prop where
  | exactly {field : List UInt8} {count : Nat} : Count.read field = .ok count →
      Names [field] count (.bounded count)
  | atLeast {least : List UInt8} {min : Nat} : Count.read least = .ok min →
      Names [least, []] min .unbounded
  | between {least greatest : List UInt8} {min max : Nat} : Count.read least = .ok min →
      Count.read greatest = .ok max → Names [least, greatest] min (.bounded max)

open Quantifier

/-- What there is to say against braces after a text and with a body, each objection with
its place in the order and the fault that it is. -/
inductive Objection (before body : List UInt8) : Nat → Fault → Prop where
  | fieldCount : 3 ≤ (fields body).length →
      Objection before body 1 (.invalidFieldCount (fields body).length)
  | firstBound {first : List UInt8} {more : List (List UInt8)} {cause : CountFault} :
      fields body = first :: more → Count.read first = .error cause →
      Objection before body 2 (.invalidBound cause)
  | secondBound {least greatest : List UInt8} {cause : CountFault} :
      fields body = [least, greatest] → greatest ≠ [] → Count.read greatest = .error cause →
      Objection before body 3 (.invalidBound cause)
  | reversed {min max : Nat} : Names (fields body) min (.bounded max) → max < min →
      Objection before body 4 (.reversedBounds min max)
  | largeMax {min max : Nat} : Names (fields body) min (.bounded max) → repeatLimit < max →
      Objection before body 5 (.repeatTooLarge max)
  | largeMin {min : Nat} {max : UpperBound} : Names (fields body) min max → repeatLimit < min →
      Objection before body 6 (.repeatTooLarge min)
  | nothing : NothingOpen before → Objection before body 7 .nothingToRepeat

/-- None of the objections with an earlier place applies. -/
def NoneBefore (before body : List UInt8) (place : Nat) : Prop :=
  ∀ earlier < place, ∀ fault, ¬ Objection before body earlier fault

/-- The fault is the first objection that applies. -/
def FirstObjection (before body : List UInt8) (fault : Fault) : Prop :=
  ∃ place, Objection before body place fault ∧ NoneBefore before body place

/-! ## The token that braces repeat -/

mutual

/-- The token repeated, or its last alternative with its last token repeated. -/
def Token.repeatEnd (min : Nat) (max : UpperBound) : Token → Token
  | .literal byte => .repeated min max (.literal byte)
  | .bracket set => .repeated min max (.bracket set)
  | .either left right => .either left (right.repeatEnd min max)
  | .repeated least greatest body => .repeated min max (.repeated least greatest body)
  | .group tokens => .repeated min max (.group tokens)
  | .sequence tokens => .sequence (Token.repeatLast min max tokens)

/-- The tokens with the last one repeated, in the last alternative where they are
alternatives. -/
def Token.repeatLast (min : Nat) (max : UpperBound) : List Token → List Token
  | [] => []
  | [token] => [token.repeatEnd min max]
  | token :: next :: tokens => token :: Token.repeatLast min max (next :: tokens)

end

end BytePattern
