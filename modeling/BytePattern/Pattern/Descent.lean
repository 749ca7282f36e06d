import BytePattern.Pattern.Reader

set_option autoImplicit false

/-!
# Patterns: recursive descent

A second way of reading a pattern, from the top down.  One procedure for each construct,
all sharing a cursor, call one another, and what follows a bar is a sequence of its own.
Nothing here holds the cursor inside the pattern, and nothing but a number given from
outside keeps the calls from going on for ever.  A descent has no result when its calls nest
deeper than that, and none when a slice of the pattern is taken from behind its end.  How
deep they nest, and that the tokens and the errors are those of `parse`, is to be proved and
is not built in.

A descent keeps a record of where its cursor has stood and of the calls that have
returned tokens.  The tokens of a sequence that is still open are held latest first.
-/

namespace BytePattern

namespace Descent

/-! ## Courses -/

/-- The procedures that call one another. -/
inductive Procedure where
  /-- a sequence: that of the pattern or of the group opened at an offset, and in either
  case the whole of it or what follows a bar -/
  | sequence (opened : Option Nat) (alternative : Bool)
  /-- a part of a sequence: an item, a quantifier, or a bar and what follows it -/
  | part
  | group
  | bracket
  | bar
  | shorthand
  | counts
  deriving DecidableEq, Repr

/-- A call that has returned tokens, where the cursor stood when it was made and when it
returned, and the tokens. -/
structure Return where
  procedure : Procedure
  before : Nat
  after : Nat
  tokens : List Token
  deriving Repr

/-- How far a descent has come: where the cursor stands, where it has stood before, and the
calls that have returned tokens, latest first. -/
structure Course where
  cursor : Nat
  past : List Nat
  returns : List Return
  deriving Repr

/-- Before the first call. -/
def Course.start : Course := ⟨0, [], []⟩

/-- The course after the cursor has been moved on. -/
def Course.advanced (c : Course) (count : Nat) : Course :=
  { c with cursor := c.cursor + count, past := c.cursor :: c.past }

/-- The course after a call that was made at an offset has returned tokens. -/
def Course.returned (c : Course) (procedure : Procedure) (before : Nat) (tokens : List Token) :
    Course :=
  { c with returns := ⟨procedure, before, c.cursor, tokens⟩ :: c.returns }

end Descent

/-- A descent with a course, which ends with a value, ends with an error, or has no result. -/
abbrev Descent (α : Type) : Type := ExceptT PatternError (StateT Descent.Course Option) α

namespace Descent

/-- No result. -/
def stuck {α : Type} : Descent α := ExceptT.lift (StateT.lift none)

/-! ## The cursor -/

/-- Where the cursor stands. -/
def cursor : Descent Nat := do return (← get).cursor

/-- The byte at the cursor, if it stands before the end. -/
def peek (pattern : List UInt8) : Descent (Option UInt8) := do return pattern[(← get).cursor]?

/-- Moves the cursor on. -/
def advance (count : Nat) : Descent Unit := modify fun c => c.advanced count

/-- The byte at the cursor, which is moved past it. -/
def take (pattern : List UInt8) : Descent (Option UInt8) := do
  match ← peek pattern with
  | some b =>
    advance 1
    return some b
  | none => return none

/-- Moves the cursor past a byte that has to stand there. -/
def expect (pattern : List UInt8) (b : UInt8) : Descent Unit := do
  if (← peek pattern) = some b then advance 1
  else throw ⟨.unexpectedByte b, ← cursor⟩

/-- The pattern from the cursor on.  There is no such slice behind the end. -/
def rest (pattern : List UInt8) : Descent (List UInt8) := do
  let offset ← cursor
  if offset ≤ pattern.length then return pattern.drop offset
  else stuck

/-- What stands before the next such byte, and the cursor is moved past that byte. -/
def takeUntil (pattern : List UInt8) (b : UInt8) : Descent (Option (List UInt8)) := do
  let text ← rest pattern
  if b ∈ text then
    let body := text.takeWhile fun c => c ≠ b
    advance (body.length + 1)
    return some body
  else return none

/-- Records that a call made at an offset returns tokens. -/
def returning (procedure : Procedure) (before : Nat) (tokens : List Token) :
    Descent (List Token) := do
  modify fun c => c.returned procedure before tokens
  return tokens

/-! ## Sequences that are open -/

/-- The tokens of a sequence in order, if there is one. -/
def finished (context : List Token) (offset : Nat) : Descent (List Token) :=
  match context with
  | [] => throw ⟨.emptyExpression, offset⟩
  | _ :: _ => return context.reverse

/-- The last token repeated, if there is one. -/
def repeatLast (context : List Token) (offset : Nat) (q : Quantifier) : Descent (List Token) :=
  match context with
  | [] => throw ⟨.nothingToRepeat, offset⟩
  | last :: before => return .repeated q.min q.max last :: before

/-! ## Quantifiers and brackets -/

/-- A quantifier of one byte. -/
def shorthand (pattern : List UInt8) (context : List Token) : Descent (List Token) := do
  let start ← cursor
  match (← take pattern).bind Quantifier.ofByte? with
  | some q => returning .shorthand start (← repeatLast context start q)
  | none => throw ⟨.unexpectedByte Mark.star, start⟩

/-- A quantifier in braces. -/
def counts (pattern : List UInt8) (context : List Token) : Descent (List Token) := do
  let start ← cursor
  expect pattern Mark.openCounts
  match ← takeUntil pattern Mark.closeCounts with
  | some body =>
    match Quantifier.ofBody body with
    | .ok q => returning .counts start (← repeatLast context start q)
    | .error fault => throw ⟨fault, start⟩
  | none => throw ⟨.unterminatedQuantifier, start⟩

/-- The ranges up to the closing bracket, after those that were found, latest first. -/
def ranges (pattern : List UInt8) (opened : Nat) :
    Nat → List (UInt8 × UInt8) → Descent (List (UInt8 × UInt8))
  | 0, _ => stuck
  | depth + 1, found => do
    let start ← cursor
    match ← take pattern with
    | some b =>
      if b = Mark.closeBracket then return found
      else if b = Mark.dash then
        match ← take pattern with
        | some high =>
          match found with
          | (low, _) :: before => ranges pattern opened depth ((low, high) :: before)
          | [] => throw ⟨.danglingRange, start⟩
        | none => throw ⟨.unterminatedBracket, opened⟩
      else ranges pattern opened depth ((b, b) :: found)
    | none => throw ⟨.unterminatedBracket, opened⟩

/-- A bracket. -/
def bracket (pattern : List UInt8) (depth : Nat) (context : List Token) :
    Descent (List Token) := do
  let start ← cursor
  expect pattern Mark.openBracket
  let found ← ranges pattern start depth []
  returning .bracket start (.bracket (.ofRanges found) :: context)

/-! ## Sequences -/

mutual

/-- A sequence, that of the group opened at an offset if there is one. -/
def sequence (pattern : List UInt8) : Nat → Option Nat → Bool → Descent (List Token)
  | 0, _, _ => stuck
  | depth + 1, opened, alternative => do
    let start ← cursor
    let context ← parts pattern depth opened alternative []
    returning (.sequence opened alternative) start (← finished context start)

/-- Part after part up to where the sequence ends. -/
def parts (pattern : List UInt8) :
    Nat → Option Nat → Bool → List Token → Descent (List Token)
  | 0, _, _, _ => stuck
  | depth + 1, opened, alternative, context => do
    match ← peek pattern, opened with
    | none, some offset => throw ⟨.unterminatedGroup, offset⟩
    | none, none => return context
    | some b, _ =>
      if b = Mark.closeGroup ∧ opened.isSome then return context
      else if b = Mark.closeGroup ∧ alternative then throw ⟨.unmatchedClose, ← cursor⟩
      else parts pattern depth opened alternative (← part pattern depth opened context)

/-- One part of a sequence. -/
def part (pattern : List UInt8) : Nat → Option Nat → List Token → Descent (List Token)
  | 0, _, _ => stuck
  | depth + 1, opened, context => do
    let start ← cursor
    match ← peek pattern with
    | some b => returning .part start (← begun pattern depth opened context b)
    | none => returning .part start context

/-- What the byte at the cursor begins. -/
def begun (pattern : List UInt8) :
    Nat → Option Nat → List Token → UInt8 → Descent (List Token)
  | 0, _, _, _ => stuck
  | depth + 1, opened, context, b =>
    if b = Mark.openGroup then group pattern depth context
    else if b = Mark.openBracket then bracket pattern depth context
    else if (Quantifier.ofByte? b).isSome then shorthand pattern context
    else if b = Mark.openCounts then counts pattern context
    else if b = Mark.bar then bar pattern depth opened context
    else do
      advance 1
      return .literal b :: context

/-- A group. -/
def group (pattern : List UInt8) : Nat → List Token → Descent (List Token)
  | 0, _ => stuck
  | depth + 1, context => do
    let start ← cursor
    expect pattern Mark.openGroup
    let tokens ← sequence pattern depth (some start) false
    expect pattern Mark.closeGroup
    returning .group start (.group tokens :: context)

/-- A bar and what follows it, joined to what stands before it. -/
def bar (pattern : List UInt8) : Nat → Option Nat → List Token → Descent (List Token)
  | 0, _, _ => stuck
  | depth + 1, opened, context => do
    let start ← cursor
    expect pattern Mark.bar
    let left ← finished context start
    let right ← sequence pattern depth opened true
    returning .bar start [.either (.sequence left) (.sequence right)]

end

/-- The descent through a whole pattern, with its course, when its calls and the rounds of its
loops nest no deeper than the number. -/
def ofPattern (depth : Nat) (pattern : List UInt8) :
    Option (Except PatternError (List Token) × Course) :=
  (sequence pattern depth none false).run.run .start

/-! ## Safe courses -/

/-- A sequence ends at the offset: before a closing parenthesis in a group, and at the end of
the pattern elsewhere. -/
def SequenceEnds (pattern : List UInt8) (opened : Option Nat) (offset : Nat) : Prop :=
  match opened with
  | some _ => pattern[offset]? = some Mark.closeGroup
  | none => offset = pattern.length

/-- A call has not moved the cursor back or out of the pattern.  A sequence has come to where
it ends, and a part has taken a byte and left a token. -/
structure Return.Sound (pattern : List UInt8) (r : Return) : Prop where
  forward : r.before ≤ r.after
  inside : r.after ≤ pattern.length
  ends : ∀ opened alternative, r.procedure = .sequence opened alternative →
    SequenceEnds pattern opened r.after
  progress : r.procedure = .part → r.before < r.after ∧ r.tokens ≠ []

/-- The cursor has never stood behind the end of the pattern and has never been moved back,
and all calls that have returned tokens are sound. -/
structure Course.Safe (pattern : List UInt8) (c : Course) : Prop where
  inside : ∀ offset ∈ c.cursor :: c.past, offset ≤ pattern.length
  forward : (c.cursor :: c.past).Pairwise (· ≥ ·)
  returns : ∀ r ∈ c.returns, r.Sound pattern

end Descent

end BytePattern
