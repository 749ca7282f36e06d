import BytePattern.Byte

set_option autoImplicit false

/-!
# Symbols

What an edge of an automaton is labelled with, and what is read at an offset: a
byte, one of two marks that stand outside every input, or nothing.  The marks
are no bytes, so no input can be mistaken for them.
-/

namespace BytePattern

/-- The label of an edge. -/
inductive Symbol where
  | byte (b : UInt8)
  | startOfText
  | endOfText
  | epsilon
  deriving DecidableEq, Repr

namespace Symbol

instance : Inhabited Symbol := ⟨epsilon⟩

/-- Where the symbol stands in the order of symbols: bytes by value, then the
two marks, then epsilon. -/
def rank : Symbol → Nat
  | byte b => b.toNat
  | startOfText => 256
  | endOfText => 257
  | epsilon => 258

theorem rank_injective {s t : Symbol} (h : s.rank = t.rank) : s = t := by
  cases s with
  | byte b =>
    have := b.toNat_lt
    cases t with
    | byte c => exact congrArg byte (UInt8.toNat_inj.1 h)
    | startOfText => simp only [rank] at h; omega
    | endOfText => simp only [rank] at h; omega
    | epsilon => simp only [rank] at h; omega
  | startOfText =>
    cases t with
    | byte c => have := c.toNat_lt; simp only [rank] at h; omega
    | startOfText => rfl
    | endOfText => simp [rank] at h
    | epsilon => simp [rank] at h
  | endOfText =>
    cases t with
    | byte c => have := c.toNat_lt; simp only [rank] at h; omega
    | startOfText => simp [rank] at h
    | endOfText => rfl
    | epsilon => simp [rank] at h
  | epsilon =>
    cases t with
    | byte c => have := c.toNat_lt; simp only [rank] at h; omega
    | startOfText => simp [rank] at h
    | endOfText => simp [rank] at h
    | epsilon => rfl

/-- Every symbol, in ascending order. -/
def all : List Symbol := ByteSet.alphabet.map byte ++ [startOfText, endOfText, epsilon]

theorem mem_all (s : Symbol) : s ∈ all := by
  cases s with
  | byte b => simp [all, ByteSet.mem_alphabet]
  | startOfText => simp [all]
  | endOfText => simp [all]
  | epsilon => simp [all]

/-- The symbols of a list in ascending order. -/
def sort (symbols : List Symbol) : List Symbol :=
  symbols.mergeSort fun s t => s.rank ≤ t.rank

/-- The text of a symbol. -/
def spelling : Symbol → List Char
  | byte b => Byte.escape b
  | startOfText => ['S', 'O', 'T']
  | endOfText => ['E', 'O', 'T']
  | epsilon => ['ε']

end Symbol

end BytePattern
