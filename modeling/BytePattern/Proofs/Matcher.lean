import BytePattern.Matcher
import BytePattern.Proofs.Automaton.Before
import BytePattern.Proofs.Pattern.Parsing

set_option autoImplicit false

/-!
# Matchers: what they match

A pattern that is read compiles under every choice of options, and its matcher
accepts an input exactly when the tokens of the pattern match it.  From any other
state and offset the search decides whether a walk to the end spells what is left
of the input, from before the input it decides which states a number of epsilon
edges leads to, and the options never change a verdict.
-/

namespace BytePattern.Matcher

/-! ## Compiling -/

/-- The matcher of a pattern that has been read. -/
def ofTokens (pattern : List UInt8) (options : Options) (tokens : List Token) : Matcher :=
  ⟨Text.lossy pattern, tokens, options, .ofTokens tokens⟩

theorem compile_of_parse {pattern : List UInt8} {tokens : List Token}
    (h : parse pattern = .ok tokens) (options : Options) :
    compile pattern options = .ok (ofTokens pattern options tokens) := by
  unfold compile
  rw [h]
  rfl

theorem exists_of_compile {pattern : List UInt8} {options : Options} {m : Matcher}
    (h : compile pattern options = .ok m) :
    ∃ tokens, parse pattern = .ok tokens ∧ m = ofTokens pattern options tokens := by
  unfold compile at h
  split at h
  · rename_i tokens htokens
    exact ⟨tokens, htokens, (Except.ok.inj h).symm⟩
  · cases h

/-! ## Automata -/

/-- Whatever the pattern is, its automaton is tidy. -/
theorem tidy_of_compile {pattern : List UInt8} {options : Options} {m : Matcher}
    (h : compile pattern options = .ok m) : m.automaton.Tidy := by
  obtain ⟨tokens, _, rfl⟩ := exists_of_compile h
  exact Automaton.tidy_ofTokens tokens

/-- The automaton of `a*`. -/
theorem tidy_star :
    compile [0x61, 0x2a] .none =
        .ok (ofTokens [0x61, 0x2a] .none [.repeated 0 .unbounded (.literal 0x61)]) ∧
      (ofTokens [0x61, 0x2a] .none [.repeated 0 .unbounded (.literal 0x61)]).automaton.Tidy := by
  have h : compile [0x61, 0x2a] .none =
      .ok (ofTokens [0x61, 0x2a] .none [.repeated 0 .unbounded (.literal 0x61)]) := rfl
  exact ⟨h, tidy_of_compile h⟩

/-! ## Walks -/

/-- The search from a state and an offset finds the end exactly when the state
exists and edges lead from it to an end state whose labels, but for epsilon, are
what is left of the input. -/
theorem search_found_iff_trail {pattern : List UInt8} {options : Options} {m : Matcher}
    (h : compile pattern options = .ok m) (input : Array UInt8) (state offset : Nat) :
    (m.search input ⟨state, offset⟩).found = true ↔
      state < m.automaton.size ∧
        ∃ (labels : List Symbol) (final : Nat), m.automaton.isEnd final = true ∧
          m.automaton.states.Trail state labels final ∧
          labels.filter (· ≠ .epsilon) =
            (input.toList.drop (min offset input.size)).map .byte := by
  obtain ⟨tokens, _, rfl⟩ := exists_of_compile h
  have hwalk := Automaton.search_ofTokens_found tokens input options.optimize state offset
  rw [Automaton.drop_min_size]
  constructor
  · intro hfound
    obtain ⟨final, hend, hfinal⟩ := hwalk.1 hfound
    obtain ⟨labels, htrail, hspell⟩ := Arena.walk_iff_trail.1 hfinal
    refine ⟨?_, labels, final, hend, htrail, hspell⟩
    cases htrail with
    | refl =>
      obtain ⟨s, hs, _⟩ := Automaton.isEnd_iff.1 hend
      exact (Array.getElem?_eq_some_iff.1 hs).1
    | step hedge _ => exact Arena.lt_size_of_mem_targets hedge
  · rintro ⟨_, labels, final, hend, htrail, hspell⟩
    exact hwalk.2 ⟨final, hend, Arena.walk_iff_trail.2 ⟨labels, htrail, hspell⟩⟩

/-- From inside the loop of `a*`, one byte into an input of two. -/
theorem search_star_found :
    compile [0x61, 0x2a] .none =
        .ok (ofTokens [0x61, 0x2a] .none [.repeated 0 .unbounded (.literal 0x61)]) ∧
      ((ofTokens [0x61, 0x2a] .none [.repeated 0 .unbounded (.literal 0x61)]).search
        #[0x61, 0x61] ⟨1, (1 : Nat)⟩).found = true := by
  have h : compile [0x61, 0x2a] .none =
      .ok (ofTokens [0x61, 0x2a] .none [.repeated 0 .unbounded (.literal 0x61)]) := rfl
  refine ⟨h, (search_found_iff_trail h #[0x61, 0x61] 1 1).2 ?_⟩
  refine ⟨by decide, [.epsilon, .byte 0x61, .epsilon, .epsilon], 5, by decide, ?_, by decide⟩
  have hback : 2 ∈ (Automaton.ofTokens [.repeated 0 .unbounded (.literal 0x61)]).states.targets
      1 .epsilon := by decide
  have hread : 3 ∈ (Automaton.ofTokens [.repeated 0 .unbounded (.literal 0x61)]).states.targets
      2 (.byte 0x61) := by decide
  have hleave : 1 ∈ (Automaton.ofTokens [.repeated 0 .unbounded (.literal 0x61)]).states.targets
      3 .epsilon := by decide
  have hend : 5 ∈ (Automaton.ofTokens [.repeated 0 .unbounded (.literal 0x61)]).states.targets
      1 .epsilon := by decide
  exact .step hback (.step hread (.step hleave (.step hend (.refl 5))))

/-! ## Before the input -/

/-- From before the input the search finds what it finds at the first offset from
where a walk of as many epsilon edges leads.  So it finds no more from further
away, and from the start state no less from one offset before the input. -/
theorem search_before_input {pattern : List UInt8} {options : Options} {m : Matcher}
    (h : compile pattern options = .ok m) (input : Array UInt8) :
    (∀ state k : Nat, (m.search input ⟨state, -(k : Int)⟩).found = true ↔
      ∃ q, m.automaton.states.EpsilonWalk k state q ∧
        (m.search input ⟨q, 0⟩).found = true) ∧
    (∀ state k : Nat, (m.search input ⟨state, -((k + 1 : Nat) : Int)⟩).found = true →
      (m.search input ⟨state, -(k : Int)⟩).found = true) ∧
    (m.search input ⟨m.automaton.start, -1⟩).found =
      (m.search input ⟨m.automaton.start, 0⟩).found := by
  obtain ⟨tokens, _, rfl⟩ := exists_of_compile h
  exact ⟨fun _ _ => Automaton.search_found_neg_iff, fun _ _ => Automaton.search_found_of_succ,
    Automaton.search_start_neg_one tokens input options.optimize⟩

/-- From the start state of `a*`, two offsets before an empty input. -/
theorem search_before_star :
    compile [0x61, 0x2a] .none =
        .ok (ofTokens [0x61, 0x2a] .none [.repeated 0 .unbounded (.literal 0x61)]) ∧
      ((ofTokens [0x61, 0x2a] .none [.repeated 0 .unbounded (.literal 0x61)]).search
        #[] ⟨4, -((2 : Nat) : Int)⟩).found = true := by
  have h : compile [0x61, 0x2a] .none =
      .ok (ofTokens [0x61, 0x2a] .none [.repeated 0 .unbounded (.literal 0x61)]) := rfl
  have henter : 0 ∈ (Automaton.ofTokens [.repeated 0 .unbounded (.literal 0x61)]).states.targets
      4 .epsilon := by decide
  have hskip : 1 ∈ (Automaton.ofTokens [.repeated 0 .unbounded (.literal 0x61)]).states.targets
      0 .epsilon := by decide
  have hleave : 5 ∈ (Automaton.ofTokens [.repeated 0 .unbounded (.literal 0x61)]).states.targets
      1 .epsilon := by decide
  refine ⟨h, ((search_before_input h #[]).1 4 2).2
    ⟨1, .step henter (.step hskip (.refl 1)), ?_⟩⟩
  exact (Automaton.search_ofTokens_found _ #[] false 1 0).2
    ⟨5, by decide, .epsilon hleave (.refl 5)⟩

/-! ## Languages -/

/-- A pattern that is read compiles under all options, and matches exactly what
its tokens match. -/
theorem isMatch_iff_mem_languages {pattern : List UInt8} {tokens : List Token}
    (h : parse pattern = .ok tokens) (options : Options) :
    ∃ m, compile pattern options = .ok m ∧
      ∀ input : Array UInt8,
        m.isMatch input = true ↔ input.toList ∈ Token.languages tokens := by
  refine ⟨_, compile_of_parse h options, fun input => ?_⟩
  have hlanguage := Automaton.language_ofTokens (allOrdered_of_parse h)
  show ((Automaton.ofTokens tokens).search input options.optimize
    ⟨(Automaton.ofTokens tokens).start, (0 : Nat)⟩).found = true ↔ _
  rw [Automaton.search_ofTokens_found, List.drop_zero, ← hlanguage, Arena.mem_language]
  constructor
  · rintro ⟨final, hend, hwalk⟩
    rwa [(Automaton.isEnd_ofTokens tokens final).1 hend] at hwalk
  · intro hwalk
    exact ⟨_, (Automaton.isEnd_ofTokens tokens _).2 rfl, hwalk⟩

/-- `a*` matches two bytes. -/
theorem isMatch_star :
    parse [0x61, 0x2a] = .ok [.repeated 0 .unbounded (.literal 0x61)] ∧
      ∃ m, compile [0x61, 0x2a] .all = .ok m ∧ m.isMatch #[0x61, 0x61] = true := by
  have h : parse [0x61, 0x2a] = .ok [.repeated 0 .unbounded (.literal 0x61)] := rfl
  obtain ⟨m, hm, hmatch⟩ := isMatch_iff_mem_languages h .all
  refine ⟨h, m, hm, (hmatch #[0x61, 0x61]).2 ?_⟩
  rw [Token.languages, Token.languages, mul_one, Token.language, Token.language]
  refine ⟨2, ⟨Nat.zero_le 2, trivial⟩, ?_⟩
  rw [pow_two]
  exact Language.append_mem_mul (Set.mem_singleton [0x61]) (Set.mem_singleton [0x61])

/-! ## Options -/

/-- A matcher that explores no position twice gives the verdicts of the one that
does, from any state and offset, and never enters more positions. -/
theorem search_optimized {pattern : List UInt8} {tokens : List Token}
    (h : parse pattern = .ok tokens) :
    ∃ plain optimized, compile pattern .none = .ok plain ∧
      compile pattern ⟨true, false⟩ = .ok optimized ∧
      ∀ (input : Array UInt8) (origin : Position),
        (optimized.search input origin).found = (plain.search input origin).found ∧
          (optimized.search input origin).entered ≤ (plain.search input origin).entered := by
  refine ⟨_, _, compile_of_parse h _, compile_of_parse h _, fun input origin => ?_⟩
  exact DepthFirst.search_keep_le ((Automaton.ofTokens tokens).bounded input false origin)
    ((Automaton.ofTokens tokens).bounded input true origin)

/-- `a*` searched from before the input. -/
theorem search_star_optimized :
    parse [0x61, 0x2a] = .ok [.repeated 0 .unbounded (.literal 0x61)] ∧
      ∃ plain optimized, compile [0x61, 0x2a] .none = .ok plain ∧
        compile [0x61, 0x2a] ⟨true, false⟩ = .ok optimized ∧
        (optimized.search #[0x61, 0x62] ⟨4, -1⟩).found =
          (plain.search #[0x61, 0x62] ⟨4, -1⟩).found ∧
        (optimized.search #[0x61, 0x62] ⟨4, -1⟩).entered ≤
          (plain.search #[0x61, 0x62] ⟨4, -1⟩).entered := by
  have h : parse [0x61, 0x2a] = .ok [.repeated 0 .unbounded (.literal 0x61)] := rfl
  obtain ⟨plain, optimized, hplain, hoptimized, hsearch⟩ := search_optimized h
  exact ⟨h, plain, optimized, hplain, hoptimized, hsearch #[0x61, 0x62] ⟨4, -1⟩⟩

end BytePattern.Matcher
