import BytePattern.Proofs.Automaton.Matching
import BytePattern.Proofs.Automaton.Tidy

set_option autoImplicit false

/-!
# Automata: the positions of a search

The children of a position are distinct, since no destination is listed twice and
what a byte leads to lies one offset further than what an epsilon edge leads to
there.  All that can be reached from a position is that position, or is in a state
that exists and at an offset from there on to the end of the input, so there are
no more of them than states times offsets.
-/

namespace BytePattern.Automaton

open DepthFirst

/-! ## Children -/

theorem symbolAt_eq_startOfText {input : Array UInt8} {o : Int} :
    symbolAt input o = .startOfText ↔ o < 0 := by
  cases o with
  | ofNat n =>
    refine iff_of_false ?_ (Int.not_lt.2 (Int.natCast_nonneg n))
    rcases symbolAt_natCast input n with ⟨b, hb, _⟩ | ⟨hnone, _⟩
    · rw [show symbolAt input (.ofNat n) = _ from hb]
      exact nofun
    · rw [show symbolAt input (.ofNat n) = _ from hnone]
      exact nofun
  | negSucc n => exact iff_of_true rfl (Int.negSucc_lt_zero n)

section

variable {tokens : List Token} {input : Array UInt8}

/-- What is tried from a position: the first edge under the symbol read, one offset
further, and then each epsilon edge at the same offset, and before the input also
one offset further. -/
theorem children_ofTokens (tokens : List Token) (input : Array UInt8) (p : Position) :
    (ofTokens tokens).children input p =
      (((ofTokens tokens).targets p.state (symbolAt input p.offset)).head?.map fun t =>
          Position.mk t (p.offset + 1)).toList ++
        ((ofTokens tokens).targets p.state .epsilon).flatMap fun t =>
          if symbolAt input p.offset = .startOfText then
            [⟨t, p.offset⟩, ⟨t, p.offset + 1⟩]
          else [⟨t, p.offset⟩] := by
  have hskipped : skipped p = fun t =>
      if symbolAt input p.offset = .startOfText then [⟨t, p.offset⟩, ⟨t, p.offset + 1⟩]
      else [⟨t, p.offset⟩] := by
    funext t
    unfold skipped
    simp only [symbolAt_eq_startOfText]
  rw [children, consumed_ofTokens, hskipped]

theorem nodup_skipped (p : Position) (t : Nat) : (skipped p t).Nodup := by
  have hne : p.offset ≠ p.offset + 1 := by omega
  unfold skipped
  split
  · simp [hne]
  · simp

theorem state_of_mem_skipped {p q : Position} {t : Nat} (h : q ∈ skipped p t) : q.state = t := by
  unfold skipped at h
  split at h
  · rcases List.mem_cons.1 h with rfl | h
    · rfl
    · rw [List.mem_singleton.1 h]
  · rw [List.mem_singleton.1 h]

/-- Distinct edges lead to distinct children. -/
theorem nodup_children (tokens : List Token) (input : Array UInt8) (p : Position) :
    ((ofTokens tokens).children input p).Nodup := by
  refine List.nodup_append.2 ⟨?consumed, ?skipped, ?apart⟩
  case consumed =>
    cases (ofTokens tokens).consumed input p with
    | none => exact List.nodup_nil
    | some q => exact List.nodup_singleton q
  case skipped =>
    have htargets := (sparse_ofTokens tokens).nodup p.state .epsilon
    refine List.nodup_flatMap.2 ⟨fun t _ => nodup_skipped p t, htargets.imp fun hne => ?_⟩
    refine List.disjoint_left.2 fun q hq hq' => hne ?_
    exact (state_of_mem_skipped hq).symm.trans (state_of_mem_skipped hq')
  case apart =>
    rintro q hconsumed _ hskipped rfl
    obtain ⟨t, _, hq⟩ := List.mem_flatMap.1 hskipped
    unfold consumed at hconsumed
    split at hconsumed
    · rename_i b hb
      have hpos : ¬ p.offset < 0 := by
        intro hneg
        cases hb.symm.trans (symbolAt_eq_startOfText.2 hneg)
      obtain ⟨u, _, rfl⟩ := Option.map_eq_some_iff.1 (Option.mem_toList.1 hconsumed)
      unfold skipped at hq
      rw [if_neg hpos, List.mem_singleton] at hq
      have hoffset := congrArg Position.offset hq
      dsimp only at hoffset
      omega
    · cases hconsumed

end

/-! ## Positions within reach -/

/-- The positions in a state that exists, from an offset on to the end of the
input, or at that offset if it is past the end. -/
def positions (a : Automaton) (input : Array UInt8) (offset : Int) : List Position :=
  (List.range a.size).flatMap fun state =>
    (List.range ((max (input.size - offset) 0).toNat + 1)).map fun i : Nat => ⟨state, offset + i⟩

theorem length_positions (a : Automaton) (input : Array UInt8) (offset : Int) :
    (a.positions input offset).length = a.size * ((max (input.size - offset) 0).toNat + 1) := by
  simp [positions, List.length_flatMap, List.map_const']

theorem mem_positions {a : Automaton} {input : Array UInt8} {offset : Int} {p : Position}
    (hstate : p.state < a.size) (hle : offset ≤ p.offset)
    (hmax : p.offset ≤ max offset (input.size : Int)) : p ∈ a.positions input offset := by
  refine List.mem_flatMap.2 ⟨p.state, List.mem_range.2 hstate, ?_⟩
  refine List.mem_map.2 ⟨(p.offset - offset).toNat, List.mem_range.2 (by omega), ?_⟩
  obtain ⟨s, o⟩ := p
  simp only [Position.mk.injEq, true_and]
  simp only at hle
  omega

section

variable {tokens : List Token} {input : Array UInt8} {origin p : Position}

theorem lt_size_of_mem_destinations {t : Nat} (h : t ∈ (ofTokens tokens).destinations) :
    t < (ofTokens tokens).size := by
  obtain ⟨s, hs, hedge⟩ := List.mem_flatMap.1 h
  obtain ⟨e, he, rfl⟩ := List.mem_map.1 hedge
  obtain ⟨id, hid⟩ := Array.mem_iff_getElem?.1 (Array.mem_toList_iff.1 hs)
  exact (tidy_ofTokens tokens).inside id e.symbol e.target
    (Arena.mem_targets_iff.2 ⟨s, hid, he⟩)

/-- All that can be reached lies from the origin on to the end of the input. -/
theorem span_of_reaches {a : Automaton} (h : Reaches (a.children input) origin p) :
    origin.offset ≤ p.offset ∧ p.offset ≤ max origin.offset (input.size : Int) := by
  induction h with
  | refl => exact ⟨Int.le_refl _, Int.le_max_left _ _⟩
  | tail _ hchild ih =>
    obtain ⟨_, hle, hmax⟩ := mem_children hchild
    omega

/-- All that can be reached is the origin, or in a state that exists. -/
theorem eq_or_mem_positions_of_reaches
    (h : Reaches ((ofTokens tokens).children input) origin p) :
    p = origin ∨ p ∈ (ofTokens tokens).positions input origin.offset := by
  have hspan := span_of_reaches h
  rcases Relation.ReflTransGen.cases_tail h with rfl | ⟨q, _, hchild⟩
  · exact Or.inl rfl
  · have hstate := lt_size_of_mem_destinations (mem_children hchild).1
    exact Or.inr (mem_positions hstate hspan.1 hspan.2)

/-- A position in a state that does not exist has no children. -/
theorem children_eq_nil {a : Automaton} (h : a.size ≤ p.state) : a.children input p = [] := by
  have hnone : ∀ symbol, a.targets p.state symbol = [] := fun symbol => Arena.targets_of_le h symbol
  unfold children consumed
  simp only [hnone]
  split <;> rfl

/-- There are no more positions within reach than states times offsets. -/
theorem exists_domain (tokens : List Token) (input : Array UInt8) (origin : Position) :
    ∃ domain : List Position,
      (∀ p, Reaches ((ofTokens tokens).children input) origin p → p ∈ domain) ∧
      domain.length ≤
        (ofTokens tokens).size * ((max (input.size - origin.offset) 0).toNat + 1) := by
  by_cases hstate : origin.state < (ofTokens tokens).size
  · refine ⟨(ofTokens tokens).positions input origin.offset, fun p hp => ?_, ?_⟩
    · rcases eq_or_mem_positions_of_reaches hp with rfl | hmem
      · exact mem_positions hstate (Int.le_refl _) (Int.le_max_left _ _)
      · exact hmem
    · rw [length_positions]
  · refine ⟨[origin], fun p hp => ?_, ?_⟩
    · rcases Relation.ReflTransGen.cases_head hp with rfl | ⟨q, hchild, _⟩
      · exact List.mem_cons_self
      · rw [children_eq_nil (Nat.le_of_not_lt hstate)] at hchild
        cases hchild
    · have hsize := (size_ofTokens tokens).2
      exact Nat.mul_pos (by omega) (Nat.succ_pos _)

end

end BytePattern.Automaton
