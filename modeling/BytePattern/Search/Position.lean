import BytePattern.Automaton.Basic
import BytePattern.Search.DepthFirst

set_option autoImplicit false

/-!
# Positions in an automaton and an input

A match is a search for the end state through positions, pairs of a state and an
offset into the input.  Offsets may lie before the input, where the start mark
is read, or past it, where the end mark is read; only a byte is ever consumed.

From a position the search tries first the oldest edge under the byte that is
read, one offset further, and then every epsilon edge at the same offset.  While
the offset is still before the input, an epsilon edge is also tried one offset
further, right after, so that the input is entered by following edges.
-/

namespace BytePattern

/-- A state and an offset into the input. -/
structure Position where
  state : Nat
  offset : Int
  deriving DecidableEq, Hashable, Repr, Inhabited

/-- What is read at an offset: a byte inside the input, a mark outside of it. -/
def symbolAt (input : Array UInt8) : Int → Symbol
  | .ofNat n =>
    match input[n]? with
    | some b => .byte b
    | none => .endOfText
  | .negSucc _ => .startOfText

namespace Automaton

/-- Where the byte that is read at a position leads to. -/
def consumed (a : Automaton) (input : Array UInt8) (p : Position) : Option Position :=
  match symbolAt input p.offset with
  | .byte b => (a.targets p.state (.byte b)).head?.map fun t => ⟨t, p.offset + 1⟩
  | _ => none

/-- Where an epsilon edge to a state leads to: to the same offset, and before
the input also to the next one. -/
def skipped (p : Position) (target : Nat) : List Position :=
  if p.offset < 0 then [⟨target, p.offset⟩, ⟨target, p.offset + 1⟩] else [⟨target, p.offset⟩]

/-- The positions that follow a position, in the order in which they are tried. -/
def children (a : Automaton) (input : Array UInt8) (p : Position) : List Position :=
  (a.consumed input p).toList ++ (a.targets p.state .epsilon).flatMap (skipped p)

/-- The position is in an end state and all of the input has been read. -/
def accepts (a : Automaton) (input : Array UInt8) (p : Position) : Bool :=
  symbolAt input p.offset = .endOfText && a.isEnd p.state

/-- The search for an accepting position. -/
def matching (a : Automaton) (input : Array UInt8) (keep : Bool) : DepthFirst.Problem Position :=
  ⟨a.children input, a.accepts input, keep⟩

/-! ## The positions within reach -/

/-- The destinations of all edges. -/
def destinations (a : Automaton) : List Nat :=
  a.states.toList.flatMap fun s => s.edges.map Edge.target

theorem mem_destinations {a : Automaton} {id target : Nat} {symbol : Symbol}
    (h : target ∈ a.targets id symbol) : target ∈ a.destinations := by
  obtain ⟨s, hs, hedge⟩ := Arena.mem_targets_iff.1 h
  refine List.mem_flatMap.2 ⟨s, ?_, List.mem_map.2 ⟨_, hedge, rfl⟩⟩
  exact Array.mem_toList_iff.2 (Array.mem_of_getElem? hs)

theorem offset_lt_of_symbolAt {input : Array UInt8} {o : Int} {b : UInt8}
    (h : symbolAt input o = .byte b) : o < input.size := by
  cases o with
  | ofNat n =>
    simp only [symbolAt] at h
    split at h
    · rename_i c hc
      obtain ⟨hn, _⟩ := Array.getElem?_eq_some_iff.1 hc
      exact Int.ofNat_lt.2 hn
    · exact nomatch h
  | negSucc n => exact nomatch h

/-- A child is in the destination of an edge, no further back than its parent,
and past neither its parent nor the end of the input. -/
theorem mem_children {a : Automaton} {input : Array UInt8} {p q : Position}
    (h : q ∈ a.children input p) :
    q.state ∈ a.destinations ∧ p.offset ≤ q.offset ∧
      q.offset ≤ max p.offset (input.size : Int) := by
  rcases List.mem_append.1 h with h | h
  · rw [consumed] at h
    split at h
    · rename_i b hb
      have hlt := offset_lt_of_symbolAt hb
      rw [Option.mem_toList, Option.map_eq_some_iff] at h
      obtain ⟨t, ht, rfl⟩ := h
      refine ⟨mem_destinations (List.mem_of_head? ht), ?_, ?_⟩
      · exact Int.le_of_lt (Int.lt_succ _)
      · exact Int.le_trans (Int.add_one_le_of_lt hlt) (Int.le_max_right _ _)
    · exact absurd h (by simp)
  · obtain ⟨t, ht, hq⟩ := List.mem_flatMap.1 h
    have hd := mem_destinations ht
    rw [skipped] at hq
    split at hq
    · rename_i hneg
      rcases List.mem_cons.1 hq with rfl | hq
      · exact ⟨hd, Int.le_refl _, Int.le_max_left _ _⟩
      · rw [List.mem_singleton] at hq
        subst hq
        refine ⟨hd, Int.le_of_lt (Int.lt_succ _), ?_⟩
        exact Int.le_trans (Int.add_one_le_of_lt hneg)
          (Int.le_trans (Int.natCast_nonneg _) (Int.le_max_right _ _))
    · rw [List.mem_singleton] at hq
      subst hq
      exact ⟨hd, Int.le_refl _, Int.le_max_left _ _⟩

/-- The positions that may follow an origin: in its own state or the destination
of an edge, from its offset on to the end of the input. -/
def reach (a : Automaton) (input : Array UInt8) (origin : Position) : List Position :=
  (origin.state :: a.destinations).flatMap fun state =>
    (List.range ((max origin.offset input.size - origin.offset).toNat + 1)).map fun i : Nat =>
      ⟨state, origin.offset + i⟩

theorem mem_reach {a : Automaton} {input : Array UInt8} {origin p : Position} :
    p ∈ a.reach input origin ↔ (p.state = origin.state ∨ p.state ∈ a.destinations) ∧
      origin.offset ≤ p.offset ∧ p.offset ≤ max origin.offset (input.size : Int) := by
  simp only [reach, List.mem_flatMap, List.mem_cons, List.mem_map, List.mem_range]
  have hmax : origin.offset ≤ max origin.offset (input.size : Int) := Int.le_max_left _ _
  constructor
  · rintro ⟨state, hstate, i, hi, rfl⟩
    exact ⟨hstate, by dsimp only; omega, by dsimp only; omega⟩
  · rintro ⟨hstate, hlo, hhi⟩
    refine ⟨p.state, hstate, (p.offset - origin.offset).toNat, by omega, ?_⟩
    obtain ⟨s, o⟩ := p
    simp only [Position.mk.injEq, true_and]
    simp only at hlo hhi
    omega

/-- Finitely many positions are within reach of any position. -/
theorem bounded (a : Automaton) (input : Array UInt8) (keep : Bool) (origin : Position) :
    (a.matching input keep).Bounded origin := by
  refine ⟨a.reach input origin, ?_, ?_⟩
  · exact mem_reach.2 ⟨Or.inl rfl, Int.le_refl _, Int.le_max_left _ _⟩
  · intro p hp q hq
    obtain ⟨_, hlo, hhi⟩ := mem_reach.1 hp
    obtain ⟨hstate, hle, hmax⟩ := mem_children hq
    exact mem_reach.2 ⟨Or.inr hstate, by omega, by omega⟩

/-- The search from a position through an input. -/
def search (a : Automaton) (input : Array UInt8) (keep : Bool) (origin : Position) :
    DepthFirst.Outcome :=
  (a.matching input keep).search origin (a.bounded input keep origin)

end Automaton

end BytePattern
