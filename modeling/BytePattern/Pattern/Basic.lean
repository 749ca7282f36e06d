import BytePattern.Byte
import BytePattern.Count
import BytePattern.Text

set_option autoImplicit false

/-!
# Patterns: marks and faults

The bytes that a pattern does not match but is built with.  Which of them have their meaning
depends on where they stand: all but the closing and inner marks between tokens, only two
between brackets, only two between braces.

A malformed pattern has one error: a fault and the offset of the byte it was found at.  Faults
are causes, with the numbers that their wording names; the wording, the numbering and the
two-line display with a caret are here and nowhere else.
-/

namespace BytePattern

/-! ## The bytes with a meaning -/

namespace Mark

/-- `(` opens a group. -/
abbrev openGroup : UInt8 := 0x28
/-- `)` closes a group. -/
abbrev closeGroup : UInt8 := 0x29
/-- `*` repeats any number of times. -/
abbrev star : UInt8 := 0x2a
/-- `+` repeats at least once. -/
abbrev plus : UInt8 := 0x2b
/-- `,` separates the counts between braces. -/
abbrev comma : UInt8 := 0x2c
/-- `-` makes a range between brackets. -/
abbrev dash : UInt8 := 0x2d
/-- `?` repeats at most once. -/
abbrev query : UInt8 := 0x3f
/-- `[` opens a bracket. -/
abbrev openBracket : UInt8 := 0x5b
/-- `]` closes a bracket. -/
abbrev closeBracket : UInt8 := 0x5d
/-- `{` opens the counts of a repetition. -/
abbrev openCounts : UInt8 := 0x7b
/-- `|` separates alternatives. -/
abbrev bar : UInt8 := 0x7c
/-- `}` closes the counts of a repetition. -/
abbrev closeCounts : UInt8 := 0x7d

end Mark

/-! ## What can be wrong -/

/-- The largest number of copies that a counted repetition may name. -/
def repeatLimit : Nat := 1000

/-- What is wrong with a pattern. -/
inductive Fault where
  /-- a certain byte had to come next -/
  | unexpectedByte (expected : UInt8)
  /-- an open parenthesis has no partner -/
  | unterminatedGroup
  /-- an open bracket has no partner -/
  | unterminatedBracket
  /-- an open brace has no partner -/
  | unterminatedQuantifier
  /-- a field between braces is no count -/
  | invalidBound (cause : CountFault)
  /-- there are neither one nor two fields between braces -/
  | invalidFieldCount (count : Nat)
  /-- the counts between braces are in the wrong order -/
  | reversedBounds (min max : Nat)
  /-- a quantifier has no token before it -/
  | nothingToRepeat
  /-- a dash in a bracket has no byte before it -/
  | danglingRange
  /-- an alternative has no token -/
  | emptyExpression
  /-- a closing parenthesis has no partner -/
  | unmatchedClose
  /-- a count is above the limit -/
  | repeatTooLarge (count : Nat)
  deriving DecidableEq, Repr

namespace Fault

/-- The number of the fault. -/
def code : Fault → Nat
  | unexpectedByte _ => 1
  | unterminatedGroup => 2
  | unterminatedBracket => 3
  | unterminatedQuantifier => 4
  | invalidBound _ => 5
  | invalidFieldCount _ => 6
  | reversedBounds _ _ => 7
  | nothingToRepeat => 8
  | danglingRange => 9
  | emptyExpression => 10
  | unmatchedClose => 11
  | repeatTooLarge _ => 12

/-- The wording of the fault. -/
def message : Fault → String
  | unexpectedByte expected => "expected '" ++ String.ofList (Byte.escape expected) ++ "'"
  | unterminatedGroup => "unterminated group"
  | unterminatedBracket => "unterminated character group"
  | unterminatedQuantifier => "unterminated range quantifier"
  | invalidBound cause => "invalid quantifier bound: " ++ cause.message
  | invalidFieldCount count =>
    "there must be 1 or 2 values specified for the quantifier: provided " ++ toString count
  | reversedBounds min max =>
    "quantifier upper bound " ++ toString max ++ " is below lower bound " ++ toString min
  | nothingToRepeat => "quantifier does not follow anything"
  | danglingRange => "range has no start"
  | emptyExpression => "empty expression"
  | unmatchedClose => "')' closes no group"
  | repeatTooLarge count =>
    "quantifier count " ++ toString count ++ " exceeds the limit of " ++ toString repeatLimit

/-- The number of the fault in brackets, with three digits. -/
def label (f : Fault) : String := "[" ++ String.ofList (Text.padded 3 f.code) ++ "]"

end Fault

/-- A fault and the offset of the byte it was found at. -/
structure PatternError where
  fault : Fault
  offset : Nat
  deriving DecidableEq, Repr

namespace PatternError

/-- The error on one line. -/
def text (style : Style) (e : PatternError) : String :=
  style.paint .boldRed e.fault.label ++ " " ++ e.fault.message ++ " at offset " ++ toString e.offset

/-- What stands before the caret on its line. -/
def indent (e : PatternError) : String := String.ofList (List.replicate e.offset ' ')

/-- The error above its pattern, with a caret indented by the offset. -/
def display (style : Style) (e : PatternError) (pattern : String) : String :=
  e.text style ++ "\n | " ++ pattern ++ "\n | " ++ e.indent ++ style.paint .green "^"

end PatternError

end BytePattern
