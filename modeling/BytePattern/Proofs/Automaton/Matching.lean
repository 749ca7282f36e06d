import BytePattern.Proofs.Automaton.Closed
import BytePattern.Proofs.Search.Memo
import BytePattern.Search.Position

set_option autoImplicit false

/-!
# Automata: matching is walking

From an offset that is not before the input, an end state can be reached through
positions exactly when a walk to it spells the rest of the input.  A position
determines how much of the input is left, so a path through positions and a walk
through states are one thing read twice; what the search adds is that it follows
the first destination of a byte alone, and in the automaton of a token list there
is no other.
-/

namespace BytePattern.Automaton

open DepthFirst

theorem symbolAt_ofNat (input : Array UInt8) (n : Nat) :
    symbolAt input n = input[n]?.elim .endOfText .byte := by
  show symbolAt input (.ofNat n) = _
  simp only [symbolAt]
  cases input[n]? <;> rfl

/-- Inside the input a byte is read and is the next one; after it nothing is
left. -/
theorem symbolAt_natCast (input : Array UInt8) (n : Nat) :
    (∃ b, symbolAt input n = .byte b ∧
        input.toList.drop n = b :: input.toList.drop (n + 1)) ∨
      (symbolAt input n = .endOfText ∧ input.toList.drop n = []) := by
  rw [symbolAt_ofNat]
  cases hb : input[n]? with
  | none =>
    have hsize : input.size ≤ n := Array.getElem?_eq_none_iff.1 hb
    exact Or.inr ⟨rfl, List.drop_eq_nil_of_le (by simpa using hsize)⟩
  | some b =>
    obtain ⟨hlt, hget⟩ := Array.getElem?_eq_some_iff.1 hb
    refine Or.inl ⟨b, rfl, ?_⟩
    rw [List.drop_eq_getElem_cons (by simpa using hlt), Array.getElem_toList, hget]

theorem drop_min_size (input : Array UInt8) (n : Nat) :
    input.toList.drop (min n input.size) = input.toList.drop n := by
  rcases Nat.le_total n input.size with hle | hge
  · rw [Nat.min_eq_left hle]
  · rw [Nat.min_eq_right hge, List.drop_eq_nil_of_le (Nat.le_of_eq Array.length_toList),
      List.drop_eq_nil_of_le (by simpa using hge)]

/-- No edge is under a mark, so what is consumed is what the first edge under the
symbol read consumes, whatever that symbol is. -/
theorem consumed_ofTokens (tokens : List Token) (input : Array UInt8) (p : Position) :
    (ofTokens tokens).consumed input p =
      ((ofTokens tokens).targets p.state (symbolAt input p.offset)).head?.map fun t =>
        ⟨t, p.offset + 1⟩ := by
  obtain ⟨hstart, hend⟩ := targets_mark tokens p.state
  unfold consumed
  rcases p with ⟨state, offset⟩
  cases offset with
  | negSucc n => simp only [symbolAt, hstart, List.head?_nil, Option.map_none]
  | ofNat n =>
    rcases symbolAt_natCast input n with ⟨b, hb, _⟩ | ⟨hnone, _⟩
    · simp only [show symbolAt input (.ofNat n) = _ from hb]
    · simp only [show symbolAt input (.ofNat n) = _ from hnone, hend, List.head?_nil,
        Option.map_none]

section

variable {tokens : List Token} {input : Array UInt8} {s n : Nat} {p : Position}

/-- From an offset in the input a position is followed along its epsilon edges,
and along its edges under the byte read. -/
theorem mem_children_natCast :
    p ∈ (ofTokens tokens).children input ⟨s, n⟩ ↔
      (∃ t ∈ (ofTokens tokens).targets s .epsilon, p = ⟨t, n⟩) ∨
        ∃ b, symbolAt input n = .byte b ∧
          ∃ t ∈ (ofTokens tokens).targets s (.byte b), p = ⟨t, (n + 1 : Nat)⟩ := by
  have hskip : ∀ t, skipped ⟨s, n⟩ t = [⟨t, n⟩] := by
    intro t
    unfold skipped
    rw [if_neg (Int.not_lt.2 (Int.natCast_nonneg n))]
  have hskipped : p ∈ ((ofTokens tokens).targets s .epsilon).flatMap (skipped ⟨s, n⟩) ↔
      ∃ t ∈ (ofTokens tokens).targets s .epsilon, p = ⟨t, n⟩ := by
    simp only [List.mem_flatMap, hskip, List.mem_singleton]
  have hconsumed : p ∈ ((ofTokens tokens).consumed input ⟨s, n⟩).toList ↔
      ∃ b, symbolAt input n = .byte b ∧
        ∃ t ∈ (ofTokens tokens).targets s (.byte b), p = ⟨t, (n + 1 : Nat)⟩ := by
    rcases symbolAt_natCast input n with ⟨b, hb, _⟩ | ⟨hnone, _⟩
    · simp only [consumed, hb, Option.mem_toList, Option.map_eq_some_iff, head?_targets_byte]
      constructor
      · rintro ⟨t, ht, rfl⟩
        exact ⟨b, rfl, t, ht, rfl⟩
      · rintro ⟨c, hc, t, ht, rfl⟩
        obtain rfl := Symbol.byte.inj hc
        exact ⟨t, ht, rfl⟩
    · simp [consumed, hnone]
  unfold children
  rw [List.mem_append, hskipped, hconsumed, or_comm]

theorem accepts_natCast (a : Automaton) :
    a.accepts input ⟨s, n⟩ = true ↔ input.toList.drop n = [] ∧ a.isEnd s = true := by
  unfold accepts
  rcases symbolAt_natCast input n with ⟨b, hb, hrest⟩ | ⟨hnone, hrest⟩
  · simp [hb, hrest]
  · simp [hnone, hrest]

/-- Every path to an accepting position is a walk to an end state. -/
theorem exists_walk_of_goalWithin
    (h : GoalWithin ((ofTokens tokens).children input) ((ofTokens tokens).accepts input) ⟨s, n⟩) :
    ∃ t, (ofTokens tokens).isEnd t = true ∧
      (ofTokens tokens).states.Walk s (input.toList.drop n) t := by
  obtain ⟨goal, hpath, hgoal⟩ := h
  generalize hp : (⟨s, n⟩ : Position) = p at hpath
  induction hpath using Relation.ReflTransGen.head_induction_on generalizing s n with
  | refl =>
    subst hp
    obtain ⟨hrest, hend⟩ := accepts_natCast _ |>.1 hgoal
    rw [hrest]
    exact ⟨s, hend, .refl s⟩
  | head hchild _ ih =>
    subst hp
    rcases mem_children_natCast.1 hchild with ⟨t, ht, rfl⟩ | ⟨b, hb, t, ht, rfl⟩
    · obtain ⟨u, hu, hwalk⟩ := ih rfl
      exact ⟨u, hu, .epsilon ht hwalk⟩
    · obtain ⟨u, hu, hwalk⟩ := ih rfl
      rcases symbolAt_natCast input n with ⟨c, hc, hrest⟩ | ⟨hnone, _⟩
      · obtain rfl := Symbol.byte.inj (hc.symm.trans hb)
        rw [hrest]
        exact ⟨u, hu, .byte ht hwalk⟩
      · exact nomatch hb.symm.trans hnone

/-- Every walk to an end state that spells the rest of the input is a path to an
accepting position. -/
theorem goalWithin_of_walk {t : Nat} (hend : (ofTokens tokens).isEnd t = true)
    (h : (ofTokens tokens).states.Walk s (input.toList.drop n) t) :
    GoalWithin ((ofTokens tokens).children input) ((ofTokens tokens).accepts input) ⟨s, n⟩ := by
  generalize hrest : input.toList.drop n = rest at h
  induction h generalizing n with
  | refl s => exact ⟨_, .refl, (accepts_natCast _).2 ⟨hrest, hend⟩⟩
  | epsilon hedge _ ih =>
    exact (ih hend hrest).head (mem_children_natCast.2 (Or.inl ⟨_, hedge, rfl⟩))
  | byte hedge _ ih =>
    rcases symbolAt_natCast input n with ⟨c, hc, hnext⟩ | ⟨_, hnil⟩
    · obtain ⟨rfl, htail⟩ := List.cons.inj (hnext.symm.trans hrest)
      exact (ih hend htail).head (mem_children_natCast.2 (Or.inr ⟨c, hc, _, hedge, rfl⟩))
    · exact nomatch hnil.symm.trans hrest

/-- The search finds an end from an offset in the input exactly when a walk to
an end state spells what is left of the input. -/
theorem search_ofTokens_found (tokens : List Token) (input : Array UInt8) (keep : Bool)
    (s n : Nat) :
    ((ofTokens tokens).search input keep ⟨s, n⟩).found = true ↔
      ∃ t, (ofTokens tokens).isEnd t = true ∧
        (ofTokens tokens).states.Walk s (input.toList.drop n) t := by
  unfold search
  rw [search_found_iff]
  constructor
  · exact exists_walk_of_goalWithin
  · rintro ⟨t, hend, hwalk⟩
    exact goalWithin_of_walk hend hwalk

end

end BytePattern.Automaton
