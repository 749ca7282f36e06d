import BytePattern.Proofs.Automaton.Suffix
import BytePattern.Proofs.Matcher

set_option autoImplicit false

/-!
# Matchers: the course of a search

What is true of the search of a matcher while it is under way.  It comes to an end,
its stack is a simple path and has a bound that does not depend on the edges, and it
only looks at what is left of the input, so an offset in the input is as good as the
suffix that it leaves, and no offset grows past the end.
-/

namespace BytePattern.Matcher

open DepthFirst

/-! ## Iterations -/

/-- The search has so many iterations and no more, and the last gives its outcome.  At
each of them the stack is a path from the origin that comes to no position twice, and
what is seen is the positions on the stack, or, for a matcher that explores no position
twice, those entered so far.  So the stack is never longer than states times offsets
from the origin on to the end of the input. -/
theorem search_iterations {pattern : List UInt8} {options : Options} {m : Matcher}
    (h : compile pattern options = .ok m) (input : Array UInt8) (origin : Position) :
    (∃ count, ∀ n, ((m.automaton.matching input m.options.optimize).iteration
      origin n).isSome = true ↔ n < count) ∧
    ∀ (n : Nat) (s : Progress Position),
      (m.automaton.matching input m.options.optimize).iteration origin n = some s →
      (∀ o, s.step (m.automaton.matching input m.options.optimize) = .inr o →
        m.search input origin = o) ∧
      (s.stack ≠ [] →
        SimplePath (m.automaton.children input) origin (path s.stack).reverse) ∧
      (m.options.optimize = false → ∀ p, p ∈ s.seen ↔ p ∈ path s.stack) ∧
      (∃ nodes, Trace (m.automaton.matching input m.options.optimize) origin nodes s) ∧
      (m.options.optimize = true → ∀ nodes,
        Trace (m.automaton.matching input m.options.optimize) origin nodes s →
        ∀ p, p ∈ s.seen ↔ p ∈ nodes) ∧
      (s.stack.length : Int) ≤
        m.automaton.size * (max (input.size - origin.offset) 0 + 1) := by
  obtain ⟨tokens, _, rfl⟩ := exists_of_compile h
  have hbounded := (Automaton.ofTokens tokens).bounded input options.optimize origin
  refine ⟨hbounded.exists_count, fun n s hs => ?_⟩
  obtain ⟨nodes, htrace⟩ := Problem.exists_trace_of_iteration hs
  refine ⟨fun o ho => Problem.search_eq_of_iteration hbounded hs ho, htrace.simplePath hbounded,
    fun hplain => htrace.holds_path hplain hbounded, ⟨nodes, htrace⟩,
    fun hkeep nodes hnodes => hnodes.holds hkeep, ?_⟩
  obtain ⟨domain, hdomain, hlength⟩ := Automaton.exists_domain tokens input origin
  have hle := Nat.le_trans (htrace.length_stack_le hbounded hdomain) hlength
  have hmax : 0 ≤ max ((input.size : Int) - origin.offset) 0 := Int.le_max_right _ _
  calc
    (s.stack.length : Int) ≤ (((Automaton.ofTokens tokens).size *
        ((max (input.size - origin.offset) 0).toNat + 1) : Nat) : Int) := Int.ofNat_le.2 hle
    _ = _ := by rw [Int.natCast_mul, Int.natCast_add, Int.toNat_of_nonneg hmax]; rfl

/-- One step into the cycle of epsilon edges of `(a*)*`, whose states would be gone
round for ever. -/
theorem search_iterations_cycle :
    ∃ m s, compile [0x28, 0x61, 0x2a, 0x29, 0x2a] .none = .ok m ∧
      (m.automaton.matching #[0x62] false).iteration ⟨1, 0⟩ 1 = some s ∧
      SimplePath (m.automaton.children #[0x62]) ⟨1, 0⟩ [⟨1, 0⟩, ⟨2, 0⟩] ∧
      (∀ p, p ∈ s.seen ↔ p ∈ [Position.mk 2 0, Position.mk 1 0]) ∧
      (s.stack.length : Int) ≤ 16 := by
  have h : compile [0x28, 0x61, 0x2a, 0x29, 0x2a] .none =
      .ok (ofTokens [0x28, 0x61, 0x2a, 0x29, 0x2a] .none
        [.repeated 0 .unbounded (.group [.repeated 0 .unbounded (.literal 0x61)])]) := rfl
  generalize hm : ofTokens [0x28, 0x61, 0x2a, 0x29, 0x2a] .none
    [.repeated 0 .unbounded (.group [.repeated 0 .unbounded (.literal 0x61)])] = m at h
  have hnext : m.automaton.children #[0x62] ⟨1, 0⟩ = [⟨2, 0⟩, ⟨7, 0⟩] := by subst hm; decide
  have hgoal : m.automaton.accepts #[0x62] ⟨1, 0⟩ = false ∧
      m.automaton.accepts #[0x62] ⟨2, 0⟩ = false := by subst hm; decide
  have hplain : m.options.optimize = false := by subst hm; rfl
  have hstep : (Progress.idle.enter (m.automaton.matching #[0x62] false) ⟨1, 0⟩).step
      (m.automaton.matching #[0x62] false) =
        .inl (Progress.enter (m.automaton.matching #[0x62] false) ⟨2, 0⟩
          ⟨[⟨⟨1, 0⟩, [⟨7, 0⟩]⟩], (∅ : Std.HashSet Position).insert ⟨1, 0⟩, 1⟩) := by
    simp [Progress.idle, Progress.enter, Automaton.matching, hnext, Progress.step, hgoal]
  have hiteration := Problem.iteration_eq_some.2
    ⟨hgoal.1, (Progress.after_succ_of_inl hstep 0).trans rfl⟩
  obtain ⟨_, hcourse⟩ := search_iterations h #[0x62] ⟨1, 0⟩
  rw [hplain] at hcourse
  obtain ⟨_, hpath, hseen, _, _, hlength⟩ := hcourse 1 _ hiteration
  have hsize : m.automaton.size = 8 := by subst hm; decide
  rw [hsize] at hlength
  exact ⟨m, _, h, hiteration, hpath (List.cons_ne_nil _ _), hseen rfl, hlength⟩

/-! ## What is left of the input -/

/-- From an offset in the input or past it, the search is that of what is left from
its beginning, so it depends on no byte before the offset, and past the end it is that
of an empty input.  From any offset of sixty-four bits, wherever an edge moves the
offset of a position on the stack on, the next offset is in the input or at its end,
and has sixty-four bits too. -/
theorem search_suffix {pattern : List UInt8} {options : Options} {m : Matcher}
    (h : compile pattern options = .ok m) (input : Array UInt8) (state : Nat) :
    (∀ offset : Nat, m.search input ⟨state, offset⟩ =
      m.search (remaining input offset) ⟨state, 0⟩) ∧
    (∀ (other : Array UInt8) (offset : Nat), (∀ i, offset ≤ i → input[i]? = other[i]?) →
      m.search input ⟨state, offset⟩ = m.search other ⟨state, offset⟩) ∧
    (∀ offset : Nat, input.size ≤ offset →
      m.search input ⟨state, offset⟩ = m.search #[] ⟨state, 0⟩) ∧
    (∀ offset : Int64, input.size ≤ Int64.maxValue.toInt →
      ∀ (n : Nat) (s : Progress Position),
        (m.automaton.matching input m.options.optimize).iteration
          ⟨state, offset.toInt⟩ n = some s →
        ∀ p ∈ path s.stack,
          m.automaton.targets p.state (symbolAt input p.offset) ≠ [] ∨ p.offset < 0 →
          p.offset < input.size ∧ (Int64.ofInt p.offset + 1).toInt = p.offset + 1) := by
  obtain ⟨tokens, _, rfl⟩ := exists_of_compile h
  have hsuffix : ∀ (input : Array UInt8) (offset : Nat),
      (ofTokens pattern options tokens).search input ⟨state, offset⟩ =
        (ofTokens pattern options tokens).search (remaining input offset) ⟨state, 0⟩ :=
    fun input offset => Automaton.search_remaining _ input _ state offset
  refine ⟨hsuffix input, fun other offset hsame => ?_, fun offset hpast => ?_, ?moves⟩
  · rw [hsuffix, hsuffix other, remaining_eq_of_getElem? hsame]
  · rw [hsuffix, remaining_of_le hpast]
  case moves =>
    intro offset hsize n s hs p hp hmoves
    obtain ⟨nodes, htrace⟩ := Problem.exists_trace_of_iteration hs
    have hlt : p.offset < input.size := Automaton.offset_lt_of_moves hmoves
    have hle : offset.toInt ≤ p.offset :=
      (Automaton.span_of_reaches (htrace.reaches p (htrace.mem_of_mem_path p hp))).1
    have hleast := offset.le_toInt
    rw [Int64.toInt_maxValue] at hsize
    have hadd : Int64.ofInt p.offset + 1 = Int64.ofInt (p.offset + 1) :=
      (Int64.ofInt_add p.offset 1).symm
    refine ⟨hlt, ?_⟩
    rw [hadd]
    exact Int64.toInt_ofInt_of_le (by omega) (by omega)

/-- `a*` from behind another byte, and from before the input. -/
theorem search_suffix_star :
    ∃ m, compile [0x61, 0x2a] .none = .ok m ∧
      m.search #[0x62, 0x61] ⟨4, (1 : Nat)⟩ = m.search #[0x61] ⟨4, 0⟩ ∧
      m.search #[0x62, 0x61] ⟨4, (1 : Nat)⟩ = m.search #[0x63, 0x61] ⟨4, (1 : Nat)⟩ ∧
      m.search #[0x61] ⟨4, (7 : Nat)⟩ = m.search #[] ⟨4, 0⟩ ∧
      (Int64.ofInt (-1) + 1).toInt = -1 + 1 := by
  have h : compile [0x61, 0x2a] .none =
      .ok (ofTokens [0x61, 0x2a] .none [.repeated 0 .unbounded (.literal 0x61)]) := rfl
  have hsame : ∀ i, 1 ≤ i → #[(0x62 : UInt8), 0x61][i]? = #[(0x63 : UInt8), 0x61][i]? := by
    intro i hi
    cases i with
    | zero => cases hi
    | succ i => rfl
  have hbehind := (search_suffix h #[0x62, 0x61] 4).1 1
  have hpast := (search_suffix h #[0x61] 4).2.2.1 7 (by decide)
  have hgoal : (Automaton.ofTokens [.repeated 0 .unbounded (.literal 0x61)]).accepts #[0x61]
      ⟨4, (-1 : Int64).toInt⟩ = false := by decide
  have hmoves := (search_suffix h #[0x61] 4).2.2.2 (-1) (by decide) 0 _
    (Problem.iteration_zero hgoal) ⟨4, (-1 : Int64).toInt⟩ List.mem_cons_self
    (Or.inr (by decide))
  exact ⟨_, h, hbehind, (search_suffix h #[0x62, 0x61] 4).2.1 _ 1 hsame, hpast, hmoves.2⟩

end BytePattern.Matcher
