import BytePattern.Proofs.Automaton.Positions
import BytePattern.Proofs.Matcher
import BytePattern.Proofs.Search.Cost
import BytePattern.Proofs.Search.Unguarded

set_option autoImplicit false

/-!
# Matchers: what a search does and what it costs

The search of a matcher is the recursion over positions, in verdict and in the
number of positions entered, and where the recursion ends without looking at what
has been seen, a plain search is that recursion too.  A search that fails has a cost
that can be read off the positions and their children alone: simple paths for a
plain matcher, positions within reach for one that explores no position twice.
-/

namespace BytePattern.Matcher

open DepthFirst

/-! ## Recursion -/

/-- From a position the recursion tries the first destination of the symbol read,
one offset further, and then each epsilon destination at the same offset and, before
the input, one offset further right after.  With enough depth it ends as the search
does and enters as many positions; and where it ends without the check for seen
positions, a plain search ends so too. -/
theorem search_eq_visit {pattern : List UInt8} {options : Options} {m : Matcher}
    (h : compile pattern options = .ok m) (input : Array UInt8) (origin : Position) :
    (∀ p : Position, m.automaton.children input p =
      ((m.automaton.targets p.state (symbolAt input p.offset)).head?.map fun t =>
          Position.mk t (p.offset + 1)).toList ++
        (m.automaton.targets p.state .epsilon).flatMap fun t =>
          if symbolAt input p.offset = .startOfText then
            [⟨t, p.offset⟩, ⟨t, p.offset + 1⟩]
          else [⟨t, p.offset⟩]) ∧
    (∃ bound, ∀ depth, bound ≤ depth → ∃ v,
      visit (m.automaton.matching input m.options.optimize) true depth [] origin = some v ∧
        m.search input origin = v.outcome) ∧
    (m.options.optimize = false → ∀ (depth : Nat) (v : Visit Position),
      visit (m.automaton.matching input false) false depth [] origin = some v →
        m.search input origin = v.outcome) := by
  obtain ⟨tokens, _, rfl⟩ := exists_of_compile h
  refine ⟨Automaton.children_ofTokens tokens input, ?_, fun hplain depth v hv => ?_⟩
  · have hbounded := (Automaton.ofTokens tokens).bounded input options.optimize origin
    obtain ⟨bound, hbound⟩ := hbounded.exists_visit
    refine ⟨bound, fun depth hdepth => ?_⟩
    obtain ⟨v, hv⟩ := hbound depth hdepth
    exact ⟨v, hv, search_eq_of_visit hbounded hv⟩
  · show (Automaton.ofTokens tokens).search input options.optimize origin = v.outcome
    rw [show options.optimize = false from hplain]
    exact search_eq_of_unguarded _ hv

/-- `a*` searched from before the input by the recursion without the check. -/
theorem search_eq_visit_star :
    ∃ m, compile [0x61, 0x2a] .none = .ok m ∧ m.options.optimize = false ∧
      ∃ v, visit (m.automaton.matching #[0x61, 0x62] false) false 12 [] ⟨4, -1⟩ = some v ∧
        m.search #[0x61, 0x62] ⟨4, -1⟩ = v.outcome ∧ v.outcome = ⟨false, 37⟩ := by
  have h : compile [0x61, 0x2a] .none =
      .ok (ofTokens [0x61, 0x2a] .none [.repeated 0 .unbounded (.literal 0x61)]) := rfl
  have houtcome : (visit ((Automaton.ofTokens [.repeated 0 .unbounded (.literal 0x61)]).matching
      #[0x61, 0x62] false) false 12 [] ⟨4, -1⟩).map Visit.outcome = some ⟨false, 37⟩ := by decide
  obtain ⟨v, hv, houtcome⟩ := Option.map_eq_some_iff.1 houtcome
  exact ⟨_, h, rfl, v, hv, (search_eq_visit h _ _).2.2 rfl 12 v hv, houtcome⟩

/-! ## Cost -/

/-- A search that fails has entered as many positions as there are simple paths from
its origin, or, if it explores no position twice, as there are positions within
reach.  In the latter case, failing or not, it enters no position twice, and no more
than states times offsets from its origin on to the end of the input. -/
theorem search_cost {pattern : List UInt8} {options : Options} {m : Matcher}
    (h : compile pattern options = .ok m) (input : Array UInt8) (origin : Position) :
    ((m.search input origin).found = false →
      (m.options.optimize = false →
        {path | SimplePath (m.automaton.children input) origin path}.encard =
          (m.search input origin).entered) ∧
      (m.options.optimize = true →
        {p | Reaches (m.automaton.children input) origin p}.encard =
          (m.search input origin).entered)) ∧
    (m.options.optimize = true →
      (∃ nodes, Entries (m.automaton.matching input true) origin
        (m.automaton.bounded input true origin) nodes) ∧
      (∀ nodes, Entries (m.automaton.matching input true) origin
          (m.automaton.bounded input true origin) nodes →
        nodes.Nodup ∧ nodes.length = (m.search input origin).entered) ∧
      ((m.search input origin).entered : Int) ≤
        m.automaton.size * (max (input.size - origin.offset) 0 + 1)) := by
  obtain ⟨tokens, _, rfl⟩ := exists_of_compile h
  have hsearch : ∀ keep : Bool, options.optimize = keep →
      (ofTokens pattern options tokens).search input origin =
        ((Automaton.ofTokens tokens).matching input keep).search origin
          ((Automaton.ofTokens tokens).bounded input keep origin) := by
    rintro keep rfl
    rfl
  refine ⟨fun hfailed => ⟨fun hplain => ?_, fun hkeep => ?_⟩, fun hkeep => ?_⟩
  · rw [hsearch false hplain] at hfailed ⊢
    exact encard_simplePath (Automaton.nodup_children tokens input) _ hfailed
  · rw [hsearch true hkeep] at hfailed ⊢
    exact encard_reaches rfl hfailed
  · rw [hsearch true hkeep]
    refine ⟨exists_entries _ _, fun nodes he => ⟨he.nodup rfl, he.length_eq⟩, ?_⟩
    obtain ⟨domain, hdomain, hlength⟩ := Automaton.exists_domain tokens input origin
    have hle : (((Automaton.ofTokens tokens).matching input true).search origin
        ((Automaton.ofTokens tokens).bounded input true origin)).entered ≤ _ :=
      Nat.le_trans (entered_le_length rfl hdomain) hlength
    have hmax : 0 ≤ max ((input.size : Int) - origin.offset) 0 := Int.le_max_right _ _
    calc
      (_ : Int) ≤ (((Automaton.ofTokens tokens).size *
          ((max (input.size - origin.offset) 0).toNat + 1) : Nat) : Int) := Int.ofNat_le.2 hle
      _ = _ := by rw [Int.natCast_mul, Int.natCast_add, Int.toNat_of_nonneg hmax]; rfl

/-- `a*` fails on an input of another byte, with six simple paths from the start and
five positions within reach. -/
theorem search_cost_star :
    ∃ plain optimized, compile [0x61, 0x2a] .none = .ok plain ∧
      compile [0x61, 0x2a] ⟨true, false⟩ = .ok optimized ∧
      {path | SimplePath (plain.automaton.children #[0x62]) ⟨4, 0⟩ path}.encard = 6 ∧
      {p | Reaches (optimized.automaton.children #[0x62]) ⟨4, 0⟩ p}.encard = 5 ∧
      (optimized.search #[0x62] ⟨4, 0⟩).entered = 5 := by
  have hplain : compile [0x61, 0x2a] .none =
      .ok (ofTokens [0x61, 0x2a] .none [.repeated 0 .unbounded (.literal 0x61)]) := rfl
  have hoptimized : compile [0x61, 0x2a] ⟨true, false⟩ =
      .ok (ofTokens [0x61, 0x2a] ⟨true, false⟩ [.repeated 0 .unbounded (.literal 0x61)]) := rfl
  have hvisit : ∀ keep : Bool,
      (visit ((Automaton.ofTokens [.repeated 0 .unbounded (.literal 0x61)]).matching
        #[0x62] keep) true 12 [] ⟨4, 0⟩).map Visit.outcome =
          some ⟨false, if keep then 5 else 6⟩ := by decide
  have hsearch : ∀ keep : Bool,
      (Automaton.ofTokens [.repeated 0 .unbounded (.literal 0x61)]).search #[0x62] keep ⟨4, 0⟩ =
        ⟨false, if keep then 5 else 6⟩ := by
    intro keep
    obtain ⟨v, hv, houtcome⟩ := Option.map_eq_some_iff.1 (hvisit keep)
    exact (search_eq_of_visit (Automaton.bounded _ _ _ _) hv).trans houtcome
  have hcostPlain := search_cost hplain #[0x62] ⟨4, 0⟩
  have hcostOptimized := search_cost hoptimized #[0x62] ⟨4, 0⟩
  have hfewer := congrArg Outcome.entered (hsearch true)
  refine ⟨_, _, hplain, hoptimized, ?_, ?_, hfewer⟩
  · rw [(hcostPlain.1 (congrArg Outcome.found (hsearch false))).1 rfl]
    exact congrArg (fun n : Nat => (n : ENat)) (congrArg Outcome.entered (hsearch false))
  · rw [(hcostOptimized.1 (congrArg Outcome.found (hsearch true))).2 rfl]
    exact congrArg (fun n : Nat => (n : ENat)) hfewer

end BytePattern.Matcher
