import BytePattern.Pattern.Basic
import BytePattern.Token

set_option autoImplicit false

/-!
# Patterns: quantifiers

A quantifier names the least and the greatest number of copies of the token
before it.  Three single bytes are quantifiers, and so are braces around one
count, a count and a comma, or two counts.  The text between braces is checked
in a fixed order: the number of fields, each field from the left, the order of
the counts, and the limit, first on the greater count.
-/

namespace BytePattern

/-- The least and the greatest number of copies. -/
structure Quantifier where
  min : Nat
  max : UpperBound
  deriving DecidableEq, Repr

namespace Quantifier

/-- The quantifier that a single byte is. -/
def ofByte? (b : UInt8) : Option Quantifier :=
  if b = Mark.star then some ⟨0, .unbounded⟩
  else if b = Mark.plus then some ⟨1, .unbounded⟩
  else if b = Mark.query then some ⟨0, .bounded 1⟩
  else none

/-- The fields of a text: what stands between its commas, so one more than
there are commas. -/
def fields : List UInt8 → List (List UInt8)
  | [] => [[]]
  | b :: rest =>
    if b = Mark.comma then [] :: fields rest
    else match fields rest with
      | [] => [[b]]
      | field :: more => (b :: field) :: more

/-- A field as a count. -/
def bound (field : List UInt8) : Except Fault Nat :=
  match Count.read field with
  | .ok n => .ok n
  | .error cause => .error (.invalidBound cause)

/-- The second of two fields, which may be left empty, as an upper bound. -/
def upperBound (field : List UInt8) : Except Fault UpperBound :=
  if field = [] then .ok .unbounded
  else match bound field with
    | .ok n => .ok (.bounded n)
    | .error fault => .error fault

/-- The quantifier that fields name, its counts not yet checked. -/
def ofFields : List (List UInt8) → Except Fault Quantifier
  | [count] => do
    let n ← bound count
    return ⟨n, .bounded n⟩
  | [least, greatest] => do
    let min ← bound least
    let max ← upperBound greatest
    return ⟨min, max⟩
  | other => .error (.invalidFieldCount other.length)

/-- The quantifier itself, if its counts are in order and within the limit. -/
def check (q : Quantifier) : Except Fault Quantifier :=
  match q.max with
  | .bounded max =>
    if max < q.min then .error (.reversedBounds q.min max)
    else if repeatLimit < max then .error (.repeatTooLarge max)
    else .ok q
  | .unbounded => if repeatLimit < q.min then .error (.repeatTooLarge q.min) else .ok q

/-- The quantifier written between braces. -/
def ofBody (body : List UInt8) : Except Fault Quantifier := do
  check (← ofFields (fields body))

theorem fields_ne_nil (body : List UInt8) : fields body ≠ [] := by
  cases body with
  | nil => simp [fields]
  | cons b rest =>
    rw [fields]
    split
    · simp
    · split <;> simp

/-- There is one more field than there are commas. -/
theorem length_fields (body : List UInt8) :
    (fields body).length = body.count Mark.comma + 1 := by
  induction body with
  | nil => rfl
  | cons b rest ih =>
    rw [fields, List.count_cons]
    by_cases hb : b = Mark.comma
    · simp [hb, ih]
    · simp only [hb, if_false, beq_iff_eq, Nat.add_zero]
      split
      · rename_i hnil
        exact absurd hnil (fields_ne_nil rest)
      · rename_i field more hcons
        rw [hcons] at ih
        simpa using ih

end Quantifier

end BytePattern
