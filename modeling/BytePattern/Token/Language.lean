import BytePattern.Token
import Mathlib.Computability.Language

set_option autoImplicit false

/-!
# Tokens: what they match

The language of a token is a set of byte strings, built by the operations on languages: union
for alternatives, product for members in order, and powers for copies.  A repetition with a
bounded number of copies admits one copy even when its bound is zero.  The copies that it
admits can be counted from below, one power after the other, and past the last of them that
is counted an unbounded repetition goes on with the star.
-/

namespace BytePattern

open Computability

/-- The number of copies is one that a repetition with these bounds admits. -/
def UpperBound.Admits (max : UpperBound) (min count : Nat) : Prop :=
  min ≤ count ∧
    match max with
    | .unbounded => True
    | .bounded bound => count ≤ Nat.max bound 1

mutual

/-- The byte strings that a token matches. -/
def Token.language : Token → Language UInt8
  | .literal byte => {[byte]}
  | .bracket set => {w | ∃ byte ∈ set, w = [byte]}
  | .either left right => left.language + right.language
  | .repeated min max body => {w | ∃ count, max.Admits min count ∧ w ∈ body.language ^ count}
  | .group tokens => Token.languages tokens
  | .sequence tokens => Token.languages tokens

/-- The byte strings that tokens match one after the other. -/
def Token.languages : List Token → Language UInt8
  | [] => 1
  | token :: tokens => token.language * Token.languages tokens

end

/-! ## Copies -/

/-- The strings that are made of at least `min` and fewer than `count` strings of
the language. -/
def repeats (l : Language UInt8) (min count : Nat) : Language UInt8 :=
  {w | ∃ k, min ≤ k ∧ k < count ∧ w ∈ l ^ k}

theorem mem_repeats {l : Language UInt8} {min count : Nat} {w : List UInt8} :
    w ∈ repeats l min count ↔ ∃ k, min ≤ k ∧ k < count ∧ w ∈ l ^ k := Iff.rfl

theorem repeats_of_le {l : Language UInt8} {min count : Nat} (h : count ≤ min) :
    repeats l min count = 0 := by
  refine Language.ext fun w => iff_of_false ?_ (Language.notMem_zero w)
  rintro ⟨k, hmin, hcount, _⟩
  omega

theorem repeats_succ {l : Language UInt8} {min count : Nat} (h : min ≤ count) :
    repeats l min (count + 1) = repeats l min count + l ^ count := by
  apply Language.ext
  intro w
  rw [Language.mem_add, mem_repeats, mem_repeats]
  constructor
  · rintro ⟨k, hmin, hcount, hw⟩
    rcases Nat.lt_succ_iff_lt_or_eq.1 hcount with hlt | rfl
    · exact Or.inl ⟨k, hmin, hlt, hw⟩
    · exact Or.inr hw
  · rintro (⟨k, hmin, hcount, hw⟩ | hw)
    · exact ⟨k, hmin, by omega, hw⟩
    · exact ⟨count, h, by omega, hw⟩

/-- The strings of the language repeated as often as the bounds admit. -/
theorem repeats_bounded (l : Language UInt8) (min bound : Nat) :
    repeats l min (1 + (bound - 1) + 1) =
      {w | ∃ count, (UpperBound.bounded bound).Admits min count ∧ w ∈ l ^ count} := by
  have hbound : Nat.max bound 1 = 1 + (bound - 1) := by
    show max bound 1 = 1 + (bound - 1)
    omega
  refine Language.ext fun w => ⟨?_, ?_⟩
  · rintro ⟨k, hmin, hlt, hw⟩
    refine ⟨k, ⟨hmin, ?_⟩, hw⟩
    show k ≤ Nat.max bound 1
    omega
  · rintro ⟨k, ⟨hmin, hle⟩, hw⟩
    have hle : k ≤ Nat.max bound 1 := hle
    exact ⟨k, hmin, by omega, hw⟩

theorem repeats_unbounded (l : Language UInt8) (min count : Nat) (hmin : min ≤ count) :
    repeats l min (count + 1) * l∗ =
      {w | ∃ count, UpperBound.unbounded.Admits min count ∧ w ∈ l ^ count} := by
  refine Language.ext fun w => ⟨fun hw => ?_, ?_⟩
  · obtain ⟨u, ⟨j, hj, _, hu⟩, v, hv, rfl⟩ := Language.mem_mul.1 hw
    rw [Language.kstar_eq_iSup_pow, Language.mem_iSup] at hv
    obtain ⟨k, hv⟩ := hv
    refine ⟨j + k, ⟨by omega, trivial⟩, ?_⟩
    rw [pow_add]
    exact Language.append_mem_mul hu hv
  · have hstar : ∀ k, l ^ k ≤ l∗ := fun k => pow_le_kstar
    rintro ⟨k, ⟨hk, _⟩, hw⟩
    rcases Nat.lt_or_ge count k with hlt | hge
    · have hsplit : w ∈ l ^ count * l ^ (k - count) := by
        rw [← pow_add, Nat.add_sub_cancel' (Nat.le_of_lt hlt)]
        exact hw
      obtain ⟨u, hu, v, hv, rfl⟩ := Language.mem_mul.1 hsplit
      exact Language.append_mem_mul ⟨count, hmin, Nat.lt_succ_self _, hu⟩ (hstar _ hv)
    · rw [← List.append_nil w]
      exact Language.append_mem_mul ⟨k, hk, Nat.lt_succ_of_le hge, hw⟩ (Language.nil_mem_kstar l)

end BytePattern
