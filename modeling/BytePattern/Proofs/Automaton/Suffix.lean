import BytePattern.Proofs.Automaton.Positions
import BytePattern.Proofs.Search.Iteration
import BytePattern.Proofs.Search.Renaming

set_option autoImplicit false

/-!
# Automata: what is left of the input

A search that starts in the input or past it never looks back, so it is the search
from the beginning of what is left, with every offset counted from where it started.
All offsets past the end are alike, for nothing is read there and no offset moves on:
where an edge moves an offset on, the offset is before the end of the input.
-/

namespace BytePattern

/-- The position with its offset counted from another one. -/
def Position.since (offset : Nat) (p : Position) : Position := ⟨p.state, p.offset - offset⟩

theorem Position.since_injective (offset : Nat) : Function.Injective (Position.since offset) := by
  rintro ⟨s, o⟩ ⟨t, u⟩ h
  simp only [Position.since, Position.mk.injEq] at h ⊢
  exact ⟨h.1, by omega⟩

/-- What is left of an input from an offset on, which is nothing past the end. -/
def remaining (input : Array UInt8) (offset : Nat) : Array UInt8 :=
  input.extract (min offset input.size) input.size

theorem getElem?_remaining (input : Array UInt8) (offset i : Nat) :
    (remaining input offset)[i]? = input[offset + i]? := by
  unfold remaining
  rw [Array.getElem?_extract]
  split
  · rw [Nat.min_eq_left (by omega)]
  · exact (Array.getElem?_eq_none (by omega)).symm

/-- Inputs that agree from an offset on have the same left. -/
theorem remaining_eq_of_getElem? {input other : Array UInt8} {offset : Nat}
    (h : ∀ i, offset ≤ i → input[i]? = other[i]?) :
    remaining input offset = remaining other offset := by
  refine Array.ext_getElem? fun i => ?_
  rw [getElem?_remaining, getElem?_remaining]
  exact h _ (Nat.le_add_right offset i)

theorem remaining_of_le {input : Array UInt8} {offset : Nat} (h : input.size ≤ offset) :
    remaining input offset = #[] := by
  refine Array.ext_getElem? fun i => ?_
  rw [getElem?_remaining]
  exact Array.getElem?_eq_none (Nat.le_trans h (Nat.le_add_right offset i))

namespace Automaton

open DepthFirst

/-! ## The rest as an input -/

section

variable {input : Array UInt8} {offset : Nat} {p : Position}

theorem symbolAt_remaining {o : Int} (h : offset ≤ o) :
    symbolAt (remaining input offset) (o - offset) = symbolAt input o := by
  obtain ⟨i, rfl⟩ := Int.le.dest h
  rw [show (offset : Int) + i - offset = i by omega, ← Int.natCast_add, symbolAt_ofNat,
    symbolAt_ofNat, getElem?_remaining]

theorem skipped_since (h : offset ≤ p.offset) (t : Nat) :
    skipped (p.since offset) t = (skipped p t).map (Position.since offset) := by
  have hp : ¬ p.offset < 0 := by omega
  have hsince : ¬ (p.since offset).offset < 0 := by
    show ¬ p.offset - offset < 0
    omega
  unfold skipped
  rw [if_neg hp, if_neg hsince]
  rfl

theorem consumed_since (a : Automaton) (h : offset ≤ p.offset) :
    a.consumed (remaining input offset) (p.since offset) =
      (a.consumed input p).map (Position.since offset) := by
  have hsymbol : symbolAt (remaining input offset) (p.since offset).offset =
      symbolAt input p.offset := symbolAt_remaining h
  have hnext : p.offset - offset + 1 = p.offset + 1 - offset := by omega
  unfold consumed
  rw [hsymbol]
  cases symbolAt input p.offset with
  | byte b =>
    simp only [Option.map_map, Function.comp_def, Position.since, hnext]
  | startOfText => rfl
  | endOfText => rfl
  | epsilon => rfl

/-- From a position at the offset or after it, the children are the same. -/
theorem children_since (a : Automaton) (h : offset ≤ p.offset) :
    a.children (remaining input offset) (p.since offset) =
      (a.children input p).map (Position.since offset) := by
  unfold children
  rw [consumed_since a h, List.map_append, List.map_flatMap]
  congr 1
  · cases a.consumed input p <;> rfl
  · exact congrArg (List.flatMap · _) (funext fun t => skipped_since h t)

theorem accepts_since (a : Automaton) (h : offset ≤ p.offset) :
    a.accepts (remaining input offset) (p.since offset) = a.accepts input p := by
  have hsymbol : symbolAt (remaining input offset) (p.since offset).offset =
      symbolAt input p.offset := symbolAt_remaining h
  unfold accepts
  rw [hsymbol]
  rfl

end

/-- The search of what is left is the search of the input under other offsets. -/
theorem renames_since (a : Automaton) (input : Array UInt8) (keep : Bool) (offset : Nat) :
    Renames (Position.since offset) (fun p => (offset : Int) ≤ p.offset) (a.matching input keep)
      (a.matching (remaining input offset) keep) where
  injective := Position.since_injective offset
  closed _ hp _ hq := Int.le_trans hp (mem_children hq).2.1
  next_eq _ hp := children_since a hp
  goal_eq _ hp := accepts_since a hp
  keep_eq := rfl

/-- From an offset in the input or past it, the search is that of what is left. -/
theorem search_remaining (a : Automaton) (input : Array UInt8) (keep : Bool) (state offset : Nat) :
    a.search input keep ⟨state, offset⟩ = a.search (remaining input offset) keep ⟨state, 0⟩ := by
  have hbounded := a.bounded input keep ⟨state, offset⟩
  have hrest := a.bounded (remaining input offset) keep (Position.since offset ⟨state, offset⟩)
  have hsearch := (renames_since a input keep offset).search_eq (Int.le_refl _) hbounded hrest
  have horigin : Position.since offset ⟨state, offset⟩ = ⟨state, 0⟩ :=
    congrArg (Position.mk state) (Int.sub_self _)
  rw [← horigin]
  exact hsearch.symm

/-! ## Offsets that move on -/

/-- Where an edge moves the offset on, either under the symbol read or before the
input, the offset is before the end of the input. -/
theorem offset_lt_of_moves {tokens : List Token} {input : Array UInt8} {p : Position}
    (h : (ofTokens tokens).targets p.state (symbolAt input p.offset) ≠ [] ∨ p.offset < 0) :
    p.offset < input.size := by
  by_cases hneg : p.offset < 0
  · omega
  · obtain ⟨n, hn⟩ := Int.eq_ofNat_of_zero_le (Int.not_lt.1 hneg)
    rw [hn] at h
    rcases symbolAt_natCast input n with ⟨b, hb, _⟩ | ⟨hnone, _⟩
    · rw [hn]
      exact offset_lt_of_symbolAt hb
    · -- the end of the input is on no edge
      have hedge := h.resolve_right (Int.not_lt.2 (Int.natCast_nonneg n))
      rw [hnone] at hedge
      exact absurd (targets_mark tokens p.state).2 hedge

end Automaton

end BytePattern
