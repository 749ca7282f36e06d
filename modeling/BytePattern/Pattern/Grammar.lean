import BytePattern.Pattern.Quantifier

set_option autoImplicit false

/-!
# Patterns: the grammar

The patterns and their token trees as a relation, without a reader.  A sequence
stands in one of three modes, at the top before any bar, on the right of a bar
of the top level, or in a group, and the mode decides only whether a closing
parenthesis may stand for itself.  Between brackets every byte stands for itself
but the closing bracket, and a dash makes the byte after it, whatever it is, the
end of the range before it.
-/

namespace BytePattern.Grammar

/-- Where a sequence stands. -/
inductive Mode where
  | top
  | alternative
  | group
  deriving DecidableEq, Repr

/-- Where what follows a bar stands. -/
def Mode.afterBar : Mode → Mode
  | .group => .group
  | _ => .alternative

/-! ## Quantifiers -/

/-- The byte is the decimal digit of the number: the ten digits follow one another, from
zero at 0x30 on. -/
def Digit (b : UInt8) (d : Nat) : Prop := d ≤ 9 ∧ b.toNat = 0x30 + d

/-- The text is a decimal numeral of the number: at least one digit. -/
inductive Numeral : List UInt8 → Nat → Prop where
  | digit {b : UInt8} {d : Nat} : Digit b d → Numeral [b] d
  | more {text : List UInt8} {n : Nat} {b : UInt8} {d : Nat} :
      Numeral text n → Digit b d → Numeral (text ++ [b]) (n * 10 + d)

/-- A numeral with or without a plus sign. -/
def Counts (text : List UInt8) (n : Nat) : Prop :=
  Numeral text n ∨ ∃ digits, text = Mark.plus :: digits ∧ Numeral digits n

/-- The text is a quantifier. -/
inductive Quantifies : List UInt8 → Quantifier → Prop where
  | star : Quantifies [Mark.star] ⟨0, .unbounded⟩
  | plus : Quantifies [Mark.plus] ⟨1, .unbounded⟩
  | query : Quantifies [Mark.query] ⟨0, .bounded 1⟩
  | exactly {text : List UInt8} {n : Nat} : Counts text n → n ≤ repeatLimit →
      Quantifies (Mark.openCounts :: text ++ [Mark.closeCounts]) ⟨n, .bounded n⟩
  | atLeast {text : List UInt8} {n : Nat} : Counts text n → n ≤ repeatLimit →
      Quantifies (Mark.openCounts :: text ++ [Mark.comma, Mark.closeCounts]) ⟨n, .unbounded⟩
  | between {least greatest : List UInt8} {m n : Nat} : Counts least m → Counts greatest n →
      m ≤ n → n ≤ repeatLimit →
      Quantifies (Mark.openCounts :: least ++ Mark.comma :: greatest ++ [Mark.closeCounts])
        ⟨m, .bounded n⟩

/-! ## Brackets -/

/-- The text is one entry of a bracket, and stands for an inclusive range. -/
inductive Entry : List UInt8 → UInt8 × UInt8 → Prop where
  | single {b : UInt8} : b ≠ Mark.closeBracket → b ≠ Mark.dash → Entry [b] (b, b)
  | extend {text : List UInt8} {low high : UInt8} (b : UInt8) :
      Entry text (low, high) → Entry (text ++ [Mark.dash, b]) (low, b)

/-- The text is the inside of a bracket, entry after entry. -/
inductive Entries : List UInt8 → List (UInt8 × UInt8) → Prop where
  | nil : Entries [] []
  | cons {text rest : List UInt8} {range : UInt8 × UInt8} {ranges : List (UInt8 × UInt8)} :
      Entry text range → Entries rest ranges → Entries (text ++ rest) (range :: ranges)

/-- The set has the bytes of the inclusive ranges and no others. -/
def Covers (ranges : List (UInt8 × UInt8)) (set : ByteSet) : Prop :=
  ∀ b, b ∈ set ↔ ∃ range ∈ ranges, range.1 ≤ b ∧ b ≤ range.2

theorem Covers.unique {ranges : List (UInt8 × UInt8)} {s t : ByteSet} (hs : Covers ranges s)
    (ht : Covers ranges t) : s = t := ByteSet.ext fun b => (hs b).trans (ht b).symm

/-- The order of the ranges does not matter. -/
theorem covers_reverse (ranges : List (UInt8 × UInt8)) :
    Covers ranges.reverse (.ofRanges ranges) := by
  intro b
  simp only [ByteSet.mem_ofRanges, List.mem_reverse]

/-! ## Items and sequences -/

/-- The byte stands for itself between items. -/
def Plain (mode : Mode) (b : UInt8) : Prop :=
  b ∉ [Mark.openGroup, Mark.openBracket, Mark.openCounts, Mark.bar, Mark.star, Mark.plus,
    Mark.query] ∧ (b = Mark.closeGroup → mode = .top)

mutual

/-- The text is one item without its quantifiers. -/
inductive Atom : Mode → List UInt8 → Token → Prop where
  | literal {mode : Mode} {b : UInt8} : Plain mode b → Atom mode [b] (.literal b)
  | bracket {mode : Mode} {text : List UInt8} {ranges : List (UInt8 × UInt8)} {set : ByteSet} :
      Entries text ranges → Covers ranges set →
      Atom mode (Mark.openBracket :: text ++ [Mark.closeBracket]) (.bracket set)
  | group {mode : Mode} {text : List UInt8} {tokens : List Token} :
      Sequence .group text tokens →
      Atom mode (Mark.openGroup :: text ++ [Mark.closeGroup]) (.group tokens)

/-- The text is one item with its quantifiers. -/
inductive Item : Mode → List UInt8 → Token → Prop where
  | atom {mode : Mode} {text : List UInt8} {token : Token} :
      Atom mode text token → Item mode text token
  | quantified {mode : Mode} {text mark : List UInt8} {token : Token} {q : Quantifier} :
      Item mode text token → Quantifies mark q →
      Item mode (text ++ mark) (.repeated q.min q.max token)

/-- The text is at least one item. -/
inductive Items : Mode → List UInt8 → List Token → Prop where
  | one {mode : Mode} {text : List UInt8} {token : Token} :
      Item mode text token → Items mode text [token]
  | more {mode : Mode} {text rest : List UInt8} {token : Token} {tokens : List Token} :
      Item mode text token → Items mode rest tokens → Items mode (text ++ rest) (token :: tokens)

/-- The text is a sequence: items, or alternatives nested to the right. -/
inductive Sequence : Mode → List UInt8 → List Token → Prop where
  | items {mode : Mode} {text : List UInt8} {tokens : List Token} :
      Items mode text tokens → Sequence mode text tokens
  | either {mode : Mode} {left right : List UInt8} {l r : List Token} :
      Items mode left l → Sequence mode.afterBar right r →
      Sequence mode (left ++ Mark.bar :: right) [.either (.sequence l) (.sequence r)]

end

end BytePattern.Grammar
