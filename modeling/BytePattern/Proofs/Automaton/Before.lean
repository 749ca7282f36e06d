import BytePattern.Proofs.Automaton.Matching
import BytePattern.Proofs.Automaton.Tidy

set_option autoImplicit false

/-!
# Automata: matching from before the input

Before the input no byte can be read, so what is followed are epsilon edges, and
of the epsilon edges along a path each may or may not move the offset on.  How
many there are beyond those that do makes no difference: what is left of them can
as well be followed at the first offset of the input.  From `k` offsets before
the input the search therefore finds what can be found at offset zero from where
a walk of exactly `k` epsilon edges leads.
-/

namespace BytePattern

/-- A walk of epsilon edges ends with an edge. -/
theorem Arena.EpsilonWalk.exists_last {arena : Arena} {n s u : Nat}
    (h : arena.EpsilonWalk (n + 1) s u) :
    ∃ t, arena.EpsilonWalk n s t ∧ u ∈ arena.targets t .epsilon := by
  induction n generalizing s with
  | zero =>
    cases h with
    | step hedge hrest =>
      cases hrest
      exact ⟨s, .refl s, hedge⟩
  | succ n ih =>
    cases h with
    | step hedge hrest =>
      obtain ⟨t, hwalk, hlast⟩ := ih hrest
      exact ⟨t, .step hedge hwalk, hlast⟩

namespace Automaton

open DepthFirst

section

variable {a : Automaton} {input : Array UInt8} {keep : Bool} {s t : Nat} {o : Int}

/-! ## One step -/

/-- An epsilon edge may be followed at any offset. -/
theorem mem_children_epsilon (h : t ∈ a.targets s .epsilon) :
    ⟨t, o⟩ ∈ a.children input ⟨s, o⟩ := by
  refine List.mem_append.2 (Or.inr (List.mem_flatMap.2 ⟨t, h, ?_⟩))
  unfold skipped
  split
  · exact List.mem_cons_self
  · exact List.mem_cons_self

/-- Before the input, epsilon edges are followed, and each stays or moves on. -/
theorem mem_children_of_neg (ho : o < 0) {p : Position} :
    p ∈ a.children input ⟨s, o⟩ ↔
      ∃ t ∈ a.targets s .epsilon, p = ⟨t, o⟩ ∨ p = ⟨t, o + 1⟩ := by
  obtain ⟨n, rfl⟩ := Int.eq_negSucc_of_lt_zero ho
  have hconsumed : a.consumed input ⟨s, .negSucc n⟩ = none := rfl
  simp only [children, hconsumed, Option.toList_none, List.nil_append, List.mem_flatMap, skipped,
    if_pos ho, List.mem_cons, List.not_mem_nil, or_false]

/-- Before the input nothing is accepted. -/
theorem accepts_of_neg (ho : o < 0) : a.accepts input ⟨s, o⟩ = false := by
  obtain ⟨n, rfl⟩ := Int.eq_negSucc_of_lt_zero ho
  rfl

theorem search_found_of_mem_children {p q : Position} (hq : q ∈ a.children input p)
    (h : (a.search input keep q).found = true) : (a.search input keep p).found = true :=
  (search_found_iff _ _).2 (((search_found_iff _ _).1 h).head hq)

/-! ## All steps -/

/-- What a walk of `k` epsilon edges leads to can be found from `k` offsets before
the input. -/
theorem search_found_of_epsilonWalk {k q : Nat} (hwalk : a.states.EpsilonWalk k s q)
    (h : (a.search input keep ⟨q, 0⟩).found = true) :
    (a.search input keep ⟨s, -(k : Int)⟩).found = true := by
  induction hwalk with
  | refl s => exact h
  | @step n s t u hedge _ ih =>
    have hneg : -((n + 1 : Nat) : Int) < 0 := by omega
    refine search_found_of_mem_children ((mem_children_of_neg hneg).2 ⟨t, hedge, Or.inr rfl⟩) ?_
    rw [show -((n + 1 : Nat) : Int) + 1 = -(n : Int) by omega]
    exact ih h

/-- Every path from before the input enters it after one epsilon edge for each
offset. -/
theorem exists_epsilonWalk_of_search {k : Nat}
    (h : (a.search input keep ⟨s, -(k : Int)⟩).found = true) :
    ∃ q, a.states.EpsilonWalk k s q ∧ (a.search input keep ⟨q, 0⟩).found = true := by
  obtain ⟨goal, hpath, hgoal⟩ := (search_found_iff _ _).1 h
  clear h
  generalize hp : (⟨s, -(k : Int)⟩ : Position) = p at hpath
  -- along the path the offset stays or moves on, so the number of edges still asked for changes
  induction hpath using Relation.ReflTransGen.head_induction_on generalizing s k with
  | refl =>
    subst hp
    cases k with
    | zero => exact ⟨s, .refl s, (search_found_iff _ _).2 ⟨_, .refl, hgoal⟩⟩
    | succ k =>
      have hnone : a.accepts input ⟨s, -((k + 1 : Nat) : Int)⟩ = false := accepts_of_neg (by omega)
      cases hnone.symm.trans hgoal
  | @head p p' hchild hrest ih =>
    subst hp
    cases k with
    | zero => exact ⟨s, .refl s, (search_found_iff _ _).2 ⟨goal, .head hchild hrest, hgoal⟩⟩
    | succ k =>
      have hneg : -((k + 1 : Nat) : Int) < 0 := by omega
      obtain ⟨t, hedge, rfl | rfl⟩ := (mem_children_of_neg hneg).1 hchild
      · -- one edge too many: the last is followed inside the input
        obtain ⟨q, hwalk, hfound⟩ := ih rfl
        obtain ⟨r, hwalk, hlast⟩ := hwalk.exists_last
        exact ⟨r, .step hedge hwalk,
          search_found_of_mem_children (mem_children_epsilon hlast) hfound⟩
      · have hnext : -(k : Int) = -((k + 1 : Nat) : Int) + 1 := by omega
        obtain ⟨q, hwalk, hfound⟩ := ih (congrArg (Position.mk t) hnext)
        exact ⟨q, .step hedge hwalk, hfound⟩

theorem search_found_neg_iff {k : Nat} :
    (a.search input keep ⟨s, -(k : Int)⟩).found = true ↔
      ∃ q, a.states.EpsilonWalk k s q ∧ (a.search input keep ⟨q, 0⟩).found = true := by
  constructor
  · exact exists_epsilonWalk_of_search
  · rintro ⟨q, hwalk, hfound⟩
    exact search_found_of_epsilonWalk hwalk hfound

/-- What is found from further before the input is found from nearer to it. -/
theorem search_found_of_succ {k : Nat}
    (h : (a.search input keep ⟨s, -((k + 1 : Nat) : Int)⟩).found = true) :
    (a.search input keep ⟨s, -(k : Int)⟩).found = true := by
  obtain ⟨q, hwalk, hfound⟩ := exists_epsilonWalk_of_search h
  obtain ⟨r, hwalk, hlast⟩ := hwalk.exists_last
  exact search_found_of_epsilonWalk hwalk
    (search_found_of_mem_children (mem_children_epsilon hlast) hfound)

end

/-! ## From the start state -/

/-- The start state is not the end and has no edge but one epsilon edge, so it
makes no difference whether that edge is followed before the input or in it. -/
theorem search_start_neg_one (tokens : List Token) (input : Array UInt8) (keep : Bool) :
    ((ofTokens tokens).search input keep ⟨(ofTokens tokens).start, -1⟩).found =
      ((ofTokens tokens).search input keep ⟨(ofTokens tokens).start, 0⟩).found := by
  obtain ⟨hstart, haccept⟩ := size_ofTokens tokens
  obtain ⟨s, u, hs, hedges⟩ := (tidy_ofTokens tokens).start_edge
  rw [Bool.eq_iff_iff]
  constructor
  · exact search_found_of_succ (k := 0)
  · intro h
    obtain ⟨final, hend, hwalk⟩ := (search_ofTokens_found tokens input keep _ 0).1 h
    generalize hrest : input.toList.drop 0 = rest at hwalk
    cases hwalk with
    | refl =>
      have heq := (isEnd_ofTokens tokens _).1 hend
      omega
    | @epsilon _ t _ _ hedge hwalk =>
      have hfound := (search_ofTokens_found tokens input keep t 0).2 ⟨final, hend, hrest ▸ hwalk⟩
      exact search_found_of_epsilonWalk (.step hedge (.refl t)) hfound
    | byte hedge _ =>
      obtain ⟨s', hs', hedge⟩ := Arena.mem_targets_iff.1 hedge
      obtain rfl : s = s' := Option.some.inj (hs.symm.trans hs')
      rw [hedges] at hedge
      cases List.mem_singleton.1 hedge

end Automaton

end BytePattern
