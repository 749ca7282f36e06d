set_option autoImplicit false

/-!
# Bytes and sets of bytes

Every place that shows a byte, whether in a token, on an edge or in an error, shows it in one
form: printable ASCII stands for itself, three control bytes have a letter, the two quotes and
the backslash are escaped, and all else is written as `\x` with two lower case hexadecimal
digits.  The form is ASCII and has one to four characters.

A set of bytes is the ascending list of its members, so equal sets are equal values and a walk
over the members needs no sorting.  Sets are built from a test, from a list of members or from
inclusive ranges; the membership lemmas beside each builder are all that later modules use of
it.
-/

namespace BytePattern

/-! ## The printable form -/

namespace Byte

/-- The printable form of a byte. -/
def escape (b : UInt8) : List Char :=
  if b = 0x09 then ['\\', 't']
  else if b = 0x0a then ['\\', 'n']
  else if b = 0x0d then ['\\', 'r']
  else if b = 0x22 ∨ b = 0x27 ∨ b = 0x5c then ['\\', Char.ofUInt8 b]
  else if 0x20 ≤ b ∧ b ≤ 0x7e then [Char.ofUInt8 b]
  else ['\\', 'x', Nat.digitChar (b.toNat / 16), Nat.digitChar (b.toNat % 16)]

/-- A printable byte other than a quote or the backslash stands for itself. -/
theorem escape_of_printable {b : UInt8} (hlo : 0x20 ≤ b) (hhi : b ≤ 0x7e)
    (hq : b ≠ 0x22) (ha : b ≠ 0x27) (hb : b ≠ 0x5c) : escape b = [Char.ofUInt8 b] := by
  have h9 : b ≠ 0x09 := by rintro rfl; exact absurd hlo (by decide)
  have h10 : b ≠ 0x0a := by rintro rfl; exact absurd hlo (by decide)
  have h13 : b ≠ 0x0d := by rintro rfl; exact absurd hlo (by decide)
  simp [escape, h9, h10, h13, hq, ha, hb, hlo, hhi]

end Byte

/-! ## Sets -/

/-- A set of bytes, held as its members in ascending order. -/
structure ByteSet where
  members : List UInt8
  ascending : members.Pairwise (· < ·)
  deriving DecidableEq, Repr

namespace ByteSet

/-- Every byte, in ascending order. -/
def alphabet : List UInt8 := (List.range 256).map UInt8.ofNat

theorem mem_alphabet (b : UInt8) : b ∈ alphabet := by
  simp only [alphabet, List.mem_map, List.mem_range]
  exact ⟨b.toNat, b.toNat_lt, UInt8.ofNat_toNat⟩

theorem alphabet_ascending : alphabet.Pairwise (· < ·) := by
  rw [alphabet, List.pairwise_map]
  refine (List.pairwise_lt_range).imp_of_mem ?_
  intro m n hm hn h
  rw [List.mem_range] at hm hn
  rw [UInt8.lt_iff_toNat_lt, UInt8.toNat_ofNat_of_lt' hm, UInt8.toNat_ofNat_of_lt' hn]
  exact h

instance : Membership UInt8 ByteSet := ⟨fun s b => b ∈ s.members⟩

instance (b : UInt8) (s : ByteSet) : Decidable (b ∈ s) :=
  inferInstanceAs (Decidable (b ∈ s.members))

theorem mem_members {b : UInt8} {s : ByteSet} : b ∈ s.members ↔ b ∈ s := Iff.rfl

/-- The bytes that pass a test. -/
def ofTest (p : UInt8 → Bool) : ByteSet :=
  ⟨alphabet.filter p, alphabet_ascending.filter p⟩

@[simp] theorem mem_ofTest {p : UInt8 → Bool} {b : UInt8} : b ∈ ofTest p ↔ p b = true := by
  rw [← mem_members, ofTest, List.mem_filter]
  exact ⟨And.right, fun h => ⟨mem_alphabet b, h⟩⟩

/-- The bytes of a list, in any order and with any repetition. -/
def ofList (bytes : List UInt8) : ByteSet := ofTest fun b => bytes.contains b

@[simp] theorem mem_ofList {bytes : List UInt8} {b : UInt8} : b ∈ ofList bytes ↔ b ∈ bytes := by
  simp [ofList]

/-- The union of inclusive ranges; a range whose ends are reversed is empty. -/
def ofRanges (ranges : List (UInt8 × UInt8)) : ByteSet :=
  ofTest fun b => ranges.any fun r => r.1 ≤ b && b ≤ r.2

@[simp] theorem mem_ofRanges {ranges : List (UInt8 × UInt8)} {b : UInt8} :
    b ∈ ofRanges ranges ↔ ∃ r ∈ ranges, r.1 ≤ b ∧ b ≤ r.2 := by
  simp [ofRanges]

theorem nodup_members (s : ByteSet) : s.members.Nodup := s.ascending.imp UInt8.ne_of_lt

/-- Two sets with the same members are the same set. -/
@[ext] theorem ext {s t : ByteSet} (h : ∀ b, b ∈ s ↔ b ∈ t) : s = t := by
  have hperm : s.members.Perm t.members :=
    (List.perm_ext_iff_of_nodup s.nodup_members t.nodup_members).2 h
  have hmembers : s.members = t.members :=
    hperm.eq_of_pairwise (fun _ _ _ _ hlt hgt => absurd hgt (UInt8.lt_asymm hlt))
      s.ascending t.ascending
  cases s
  cases t
  subst hmembers
  rfl

/-- The set without members. -/
def empty : ByteSet := ⟨[], .nil⟩

instance : Inhabited ByteSet := ⟨empty⟩

end ByteSet

end BytePattern
