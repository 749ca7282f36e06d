set_option autoImplicit false

/-!
# Counts written in decimal

A count is a number of sixty-four bits written in decimal digits, with at most
one plus sign before them.  Digits are taken from the left, and the first that
is no digit, or that takes the value past the bound, says why the text is no
count; a byte that is no digit is reported as such even where the value could
not have grown further.
-/

namespace BytePattern

/-- Why a text is no count. -/
inductive CountFault where
  | empty
  | invalidDigit
  | tooLarge
  deriving DecidableEq, Repr, Inhabited

/-- The wording of the fault. -/
def CountFault.message : CountFault → String
  | .empty => "cannot parse integer from empty string"
  | .invalidDigit => "invalid digit found in string"
  | .tooLarge => "number too large to fit in target type"

namespace Count

/-- The first number that is too large for a count. -/
def bound : Nat := 0x10000000000000000

/-- The value of a decimal digit. -/
def digit? (b : UInt8) : Option Nat :=
  if 0x30 ≤ b ∧ b ≤ 0x39 then some (b.toNat - 0x30) else none

/-- The value with one more digit at its right. -/
def push (value : Nat) (b : UInt8) : Except CountFault Nat :=
  match digit? b with
  | none => .error .invalidDigit
  | some d => if value * 10 + d < bound then .ok (value * 10 + d) else .error .tooLarge

/-- The digits of a text: what follows a leading plus sign, if anything does. -/
def digits : List UInt8 → List UInt8
  | 0x2b :: b :: rest => b :: rest
  | text => text

/-- Reads a text as a count. -/
def read (text : List UInt8) : Except CountFault Nat :=
  if text.isEmpty then .error .empty else (digits text).foldlM push 0

/-- The digits read after a value below the bound give a value below it. -/
theorem foldlM_push_lt {text : List UInt8} {value n : Nat} (hv : value < bound)
    (h : text.foldlM push value = .ok n) : n < bound := by
  induction text generalizing value with
  | nil =>
    rw [List.foldlM_nil] at h
    exact (Except.ok.inj h) ▸ hv
  | cons b rest ih =>
    rw [List.foldlM_cons] at h
    cases hp : push value b with
    | error e => rw [hp] at h; exact nomatch h
    | ok v =>
      rw [hp] at h
      refine ih ?_ h
      rw [push] at hp
      split at hp
      · exact nomatch hp
      · split at hp
        · rename_i hlt
          exact (Except.ok.inj hp) ▸ hlt
        · exact nomatch hp

/-- A count has sixty-four bits. -/
theorem lt_bound_of_read {text : List UInt8} {n : Nat} (h : read text = .ok n) : n < bound := by
  rw [read] at h
  split at h
  · exact nomatch h
  · exact foldlM_push_lt (by decide) h

end Count

end BytePattern
