import BytePattern.Pattern.Quantifier

set_option autoImplicit false

/-!
# Patterns: reading

A pattern is read in one pass, byte by byte, and no byte is looked at twice.
What a byte means depends on where it stands, between items, between brackets,
right after a dash or between braces, and that is the `Context`.  What has been
read so far is a `Level`, the alternatives of the sequence that is still open,
and under it the levels of the groups around it, each with the offset of the
parenthesis that waits for its partner.

A step either takes the byte or names the one fault that it shows, so an error
depends on the bytes up to it alone; only the errors of `Reader.finish` depend
on the pattern ending where it does.  At every moment an alternative without
items has read no byte of its own, which is why an empty one is always reported
at the current offset.

The closing parenthesis has three readings: inside a group it ends the group,
on the right of a bar it has no partner, and elsewhere it is a literal.
-/

namespace BytePattern

/-! ## The sequence that is open -/

/-- The alternatives of an open sequence: those that a bar has ended, latest
first, and the items of the last one, latest first. -/
structure Level where
  ended : List (List Token)
  items : List Token
  deriving Repr

namespace Level

/-- The sequence of which nothing has been read. -/
def empty : Level := ⟨[], []⟩

instance : Inhabited Level := ⟨empty⟩

/-- One more item at the end. -/
def push (level : Level) (token : Token) : Level := { level with items := token :: level.items }

/-- The last item repeated, if there is one. -/
def quantify? (level : Level) (q : Quantifier) : Option Level :=
  match level.items with
  | [] => none
  | last :: before => some { level with items := .repeated q.min q.max last :: before }

/-- The last alternative ended by a bar, if it has an item. -/
def bar? (level : Level) : Option Level :=
  match level.items with
  | [] => none
  | _ :: _ => some ⟨level.items.reverse :: level.ended, []⟩

/-- An alternative joined to the tokens on the right of its bar. -/
def join (right left : List Token) : List Token := [.either (.sequence left) (.sequence right)]

/-- The tokens of the whole sequence, alternatives nested to the right, if the
last alternative has an item. -/
def tokens? (level : Level) : Option (List Token) :=
  match level.items with
  | [] => none
  | _ :: _ => some (level.ended.foldl join level.items.reverse)

end Level

/-! ## The reader -/

/-- Where the next byte stands. -/
inductive Context where
  /-- between the items of a sequence -/
  | items
  /-- between the brackets opened at an offset, after some ranges, latest first -/
  | bracket (opened : Nat) (ranges : List (UInt8 × UInt8))
  /-- between brackets, right after a dash -/
  | range (opened dash : Nat) (ranges : List (UInt8 × UInt8))
  /-- between the braces opened at an offset, after some bytes, latest first -/
  | counts (opened : Nat) (body : List UInt8)
  deriving DecidableEq, Repr

/-- What is known after some bytes of a pattern: how many, where the next one
stands, the open sequence, and the groups around it, innermost first, each with
the offset of its parenthesis and the sequence that it is to join. -/
structure Reader where
  offset : Nat
  context : Context
  level : Level
  outer : List (Nat × Level)
  deriving Repr

namespace Reader

/-- Before the first byte. -/
def start : Reader := ⟨0, .items, .empty, []⟩

instance : Inhabited Reader := ⟨start⟩

/-- The reader past the next byte. -/
def next (r : Reader) (context : Context) (level : Level) : Reader :=
  ⟨r.offset + 1, context, level, r.outer⟩

/-- The reader past the next byte, or a fault at that byte when there is no
sequence to go on with. -/
def nextOr (r : Reader) (fault : Fault) : Option Level → Except PatternError Reader
  | some level => .ok (r.next .items level)
  | none => .error ⟨fault, r.offset⟩

/-- A closing parenthesis between items. -/
def close (r : Reader) : Except PatternError Reader :=
  match r.outer with
  | (_, around) :: outer =>
    match r.level.tokens? with
    | some tokens => .ok ⟨r.offset + 1, .items, around.push (.group tokens), outer⟩
    | none => .error ⟨.emptyExpression, r.offset⟩
  | [] =>
    if r.level.ended.isEmpty then .ok (r.next .items (r.level.push (.literal Mark.closeGroup)))
    else .error ⟨.unmatchedClose, r.offset⟩

/-- A byte between items. -/
def stepItems (r : Reader) (b : UInt8) : Except PatternError Reader :=
  if b = Mark.openGroup then .ok ⟨r.offset + 1, .items, .empty, (r.offset, r.level) :: r.outer⟩
  else if b = Mark.closeGroup then r.close
  else if b = Mark.openBracket then .ok (r.next (.bracket r.offset []) r.level)
  else if b = Mark.openCounts then .ok (r.next (.counts r.offset []) r.level)
  else if b = Mark.bar then r.nextOr .emptyExpression r.level.bar?
  else match Quantifier.ofByte? b with
    | some q => r.nextOr .nothingToRepeat (r.level.quantify? q)
    | none => .ok (r.next .items (r.level.push (.literal b)))

/-- A byte between the brackets opened at an offset. -/
def stepBracket (r : Reader) (opened : Nat) (ranges : List (UInt8 × UInt8)) (b : UInt8) : Reader :=
  if b = Mark.closeBracket then
    r.next .items (r.level.push (.bracket (.ofRanges ranges)))
  else if b = Mark.dash then r.next (.range opened r.offset ranges) r.level
  else r.next (.bracket opened ((b, b) :: ranges)) r.level

/-- A byte right after a dash between brackets: the new end of the last range. -/
def stepRange (r : Reader) (opened dash : Nat) (b : UInt8) :
    List (UInt8 × UInt8) → Except PatternError Reader
  | [] => .error ⟨.danglingRange, dash⟩
  | (low, _) :: ranges => .ok (r.next (.bracket opened ((low, b) :: ranges)) r.level)

/-- A byte between the braces opened at an offset. -/
def stepCounts (r : Reader) (opened : Nat) (body : List UInt8) (b : UInt8) :
    Except PatternError Reader :=
  if b = Mark.closeCounts then
    match Quantifier.ofBody body.reverse with
    | .error fault => .error ⟨fault, opened⟩
    | .ok q =>
      match r.level.quantify? q with
      | some level => .ok (r.next .items level)
      | none => .error ⟨.nothingToRepeat, opened⟩
  else .ok (r.next (.counts opened (b :: body)) r.level)

/-- The reader after one more byte. -/
def step (r : Reader) (b : UInt8) : Except PatternError Reader :=
  match r.context with
  | .items => r.stepItems b
  | .bracket opened ranges => .ok (r.stepBracket opened ranges b)
  | .range opened dash ranges => r.stepRange opened dash b ranges
  | .counts opened body => r.stepCounts opened body b

/-- The reader after more bytes. -/
def run (r : Reader) (bytes : List UInt8) : Except PatternError Reader := bytes.foldlM step r

/-- The tokens of a pattern that ends here. -/
def finish (r : Reader) : Except PatternError (List Token) :=
  match r.context with
  | .bracket opened _ => .error ⟨.unterminatedBracket, opened⟩
  | .range opened _ _ => .error ⟨.unterminatedBracket, opened⟩
  | .counts opened _ => .error ⟨.unterminatedQuantifier, opened⟩
  | .items =>
    match r.outer with
    | (opened, _) :: _ => .error ⟨.unterminatedGroup, opened⟩
    | [] =>
      match r.level.tokens? with
      | some tokens => .ok tokens
      | none => .error ⟨.emptyExpression, r.offset⟩

/-! ## Runs -/

@[simp] theorem run_nil (r : Reader) : r.run [] = .ok r := rfl

theorem run_cons (r : Reader) (b : UInt8) (bytes : List UInt8) :
    r.run (b :: bytes) = (r.step b).bind fun s => s.run bytes := rfl

/-- Reading in two parts is reading one after the other. -/
theorem run_append (r : Reader) (xs ys : List UInt8) :
    r.run (xs ++ ys) = (r.run xs).bind fun s => s.run ys := by
  induction xs generalizing r with
  | nil => rfl
  | cons b xs ih =>
    rw [List.cons_append, run_cons, run_cons]
    cases h : r.step b with
    | error e => rfl
    | ok s => exact ih s

end Reader

/-- The tokens of a pattern, or what is wrong with it. -/
def parse (pattern : List UInt8) : Except PatternError (List Token) :=
  (Reader.start.run pattern).bind Reader.finish

end BytePattern
