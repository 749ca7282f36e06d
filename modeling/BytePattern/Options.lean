set_option autoImplicit false

/-!
# Options

The two switches that a matcher is compiled with.  They also have a written
form, a word of bits in which each known switch owns one bit and every other
bit is unknown: reading a word back is strict or truncating, and the operations
of sets never leave the known bits.
-/

namespace BytePattern

/-- The switches of a matcher. -/
structure Options where
  /-- Never explore a position twice in one search. -/
  optimize : Bool
  /-- Report the token tree and the graph of the automaton after compiling. -/
  debug : Bool
  deriving DecidableEq, Repr

namespace Options

/-- No switch is on. -/
def none : Options := ⟨false, false⟩

/-- Every switch is on. -/
def all : Options := ⟨true, true⟩

instance : Inhabited Options := ⟨none⟩

/-- The bit of the first switch. -/
def optimizeBit : UInt32 := 64

/-- The bit of the second switch. -/
def debugBit : UInt32 := 128

/-- The word in which the bits of the switches that are on are set. -/
def bits (o : Options) : UInt32 :=
  (if o.optimize then optimizeBit else 0) ||| (if o.debug then debugBit else 0)

/-- The switches of a word, whatever its unknown bits are. -/
def truncate (word : UInt32) : Options :=
  ⟨word &&& optimizeBit ≠ 0, word &&& debugBit ≠ 0⟩

/-- The switches of a word that has no unknown bit. -/
def ofBits? (word : UInt32) : Option Options :=
  if word &&& all.bits = word then some (truncate word) else Option.none

/-- The switches on in either. -/
def union (a b : Options) : Options := ⟨a.optimize || b.optimize, a.debug || b.debug⟩

/-- The switches on in both. -/
def inter (a b : Options) : Options := ⟨a.optimize && b.optimize, a.debug && b.debug⟩

/-- The switches on in the first and off in the second. -/
def diff (a b : Options) : Options := ⟨a.optimize && !b.optimize, a.debug && !b.debug⟩

/-- The switches on in exactly one. -/
def symmDiff (a b : Options) : Options := ⟨a.optimize ^^ b.optimize, a.debug ^^ b.debug⟩

/-- The known switches that are off. -/
def compl (a : Options) : Options := ⟨!a.optimize, !a.debug⟩

/-- Every switch of the second is on in the first. -/
def contains (a b : Options) : Bool := a.inter b == b

/-- Some switch is on in both. -/
def intersects (a b : Options) : Bool := a.inter b != none

/-- No switch is on. -/
def isEmpty (a : Options) : Bool := a == none

/-- Every switch is on. -/
def isAll (a : Options) : Bool := a == all

/-- The names of the switches that are on, in a fixed order. -/
def names (o : Options) : List String :=
  (if o.optimize then ["OPTIMIZE"] else []) ++ (if o.debug then ["DEBUG"] else [])

/-- The names of the switches that are on, or the name of the empty choice. -/
def text (o : Options) : String :=
  if o.isEmpty then "NO_FLAG" else " | ".intercalate o.names

/-- The choice with a name. -/
def ofName? : String → Option Options
  | "NO_FLAG" => some none
  | "OPTIMIZE" => some ⟨true, false⟩
  | "DEBUG" => some ⟨false, true⟩
  | _ => Option.none

theorem truncate_bits (o : Options) : truncate o.bits = o := by
  obtain ⟨a, b⟩ := o
  cases a <;> cases b <;> decide

theorem ofBits?_bits (o : Options) : ofBits? o.bits = some o := by
  obtain ⟨a, b⟩ := o
  cases a <;> cases b <;> decide

end Options

end BytePattern
