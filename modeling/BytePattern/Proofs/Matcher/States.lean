import BytePattern.Proofs.Automaton.Dot
import BytePattern.Proofs.Automaton.Extent
import BytePattern.Proofs.Automaton.Grouping
import BytePattern.Proofs.Automaton.Useful
import BytePattern.Proofs.Matcher
import BytePattern.Proofs.Pattern.Composition

set_option autoImplicit false

/-!
# Matchers: the states of a pattern

Which states the automaton of a pattern has.  How many they are can be counted on the
tokens, for each token only adds its block, the same in every place.  None of them is there
for nothing unless a bracket of the pattern is empty, and parentheses that change nothing
in what is matched change nothing in the states either, down to the order in which their
edges are tried.  The graph text shows all of this: it is never the same for two patterns
whose states differ.
-/

namespace BytePattern.Matcher

/-! ## The number of states -/

/-- A token leaves the states that are there as they are and adds as many as its tree says.
Behind more states it adds the same block, every number in it moved up by as many as there
are more.  So the automaton of a pattern has the states of its tokens and two more. -/
theorem states_appended :
    (∀ (token : Token) (arena : Arena),
      (∀ id < arena.size, (token.assemble arena).2[id]? = arena[id]?) ∧
      (token.assemble arena).2.size = arena.size + token.extent) ∧
    (∀ (token : Token) (arena other : Arena) (d : Nat), other.size = arena.size + d →
      (token.assemble other).1 = (token.assemble arena).1.shift d ∧
      ∀ id : Nat, (token.assemble other).2[other.size + id]? =
        (token.assemble arena).2[arena.size + id]?.map (State.shift d)) ∧
    ∀ (pattern : List UInt8) (tokens : List Token) (options : Options),
      parse pattern = .ok tokens → ∃ m, compile pattern options = .ok m ∧
        m.automaton.size = 2 + Token.extents tokens := by
  refine ⟨fun token arena => ⟨fun id hid => ?_, token.adds_assemble arena⟩,
    fun token arena other d hsize => token.relocates_assemble.make_moved hsize,
    fun pattern tokens options hparse => ⟨_, compile_of_parse hparse options, ?_⟩⟩
  · exact (token.within_assemble arena).appends.kept hid
  · exact Automaton.size_ofTokens_eq (sequence_of_parse hparse).ne_nil

/-- `(ab|c){2,3}` takes three copies of its body, and behind four states its block is the one
behind two states moved up by two. -/
theorem states_appended_copies :
    parse [0x28, 0x61, 0x62, 0x7c, 0x63, 0x29, 0x7b, 0x32, 0x2c, 0x33, 0x7d] =
        .ok [.repeated 2 (.bounded 3) (.group
          [.either (.sequence [.literal 0x61, .literal 0x62]) (.sequence [.literal 0x63])])] ∧
      (∃ m, compile [0x28, 0x61, 0x62, 0x7c, 0x63, 0x29, 0x7b, 0x32, 0x2c, 0x33, 0x7d] .none =
        .ok m ∧ m.automaton.size = 28) ∧
      (Arena.addPair (Arena.addPair #[])).size = (Arena.addPair #[]).size + 2 ∧
      ((Token.repeated 0 .unbounded (.literal 0x61)).assemble
          (Arena.addPair (Arena.addPair #[]))).1 =
        ((Token.repeated 0 .unbounded (.literal 0x61)).assemble (Arena.addPair #[])).1.shift 2 := by
  obtain ⟨_, hmoved, hpattern⟩ := states_appended
  have h : parse [0x28, 0x61, 0x62, 0x7c, 0x63, 0x29, 0x7b, 0x32, 0x2c, 0x33, 0x7d] =
      .ok [.repeated 2 (.bounded 3) (.group
        [.either (.sequence [.literal 0x61, .literal 0x62]) (.sequence [.literal 0x63])])] := rfl
  obtain ⟨m, hm, hsize⟩ := hpattern _ _ .none h
  exact ⟨h, ⟨m, hm, hsize⟩, rfl, (hmoved _ _ _ 2 rfl).1⟩

/-! ## Useful states -/

/-- The start leads to every state, and every state leads to the end, exactly when no
bracket of the pattern is empty.  Then there is an input that matches. -/
theorem useful_states {pattern : List UInt8} {options : Options} {m : Matcher}
    (h : compile pattern options = .ok m) :
    ((∀ id < m.automaton.size, m.automaton.Useful id) ↔
      Token.AllThroughout Token.NotBlank m.tokens) ∧
    (Token.AllThroughout Token.NotBlank m.tokens → ∃ input, m.isMatch input = true) := by
  obtain ⟨tokens, _, rfl⟩ := exists_of_compile h
  refine ⟨Automaton.useful_ofTokens_iff tokens,
    fun hnone : Token.AllThroughout Token.NotBlank tokens => ?_⟩
  have haccept : (Automaton.ofTokens tokens).accept < (Automaton.ofTokens tokens).size :=
    Nat.lt_of_succ_le (Nat.le_of_eq (Automaton.size_ofTokens tokens).2)
  obtain ⟨w, hwalk⟩ :=
    Automaton.exists_walk_of_leads (Automaton.useful_of_notBlank hnone haccept).1
  refine ⟨w.toArray, (Automaton.search_ofTokens_found tokens w.toArray options.optimize _ 0).2
    ⟨_, (Automaton.isEnd_ofTokens tokens _).2 rfl, ?_⟩⟩
  exact hwalk

/-- In `a|[]` a state is not useful, and in `a*` all of them are. -/
theorem useful_states_star :
    (∃ m, compile [0x61, 0x7c, 0x5b, 0x5d] .none = .ok m ∧
      ¬ ∀ id < m.automaton.size, m.automaton.Useful id) ∧
    ∃ m, compile [0x61, 0x2a] .none = .ok m ∧
      (∀ id < m.automaton.size, m.automaton.Useful id) ∧ ∃ input, m.isMatch input = true := by
  have hblank : compile [0x61, 0x7c, 0x5b, 0x5d] .none =
      .ok (ofTokens [0x61, 0x7c, 0x5b, 0x5d] .none
        [.either (.sequence [.literal 0x61]) (.sequence [.bracket (.ofRanges [])])]) := rfl
  have hstar : compile [0x61, 0x2a] .none =
      .ok (ofTokens [0x61, 0x2a] .none [.repeated 0 .unbounded (.literal 0x61)]) := rfl
  have hempty : ByteSet.ofRanges [] = .empty := by
    ext b
    exact iff_of_false (by simp) List.not_mem_nil
  have hsome : Token.AllThroughout Token.NotBlank [.repeated 0 .unbounded (.literal 0x61)] := by
    simp [Token.AllThroughout, Token.Throughout, Token.NotBlank]
  obtain ⟨huseful, hmatch⟩ := useful_states hstar
  refine ⟨⟨_, hblank, fun hall => ?_⟩, _, hstar, huseful.2 hsome, hmatch hsome⟩
  have hnone := (useful_states hblank).1.1 hall
  simp [ofTokens, Token.AllThroughout, Token.Throughout, Token.NotBlank, hempty] at hnone

/-! ## Redundant groups -/

/-- It makes no difference whether the blocks of a sequence are linked as they are added
or once the last of them is there.  So a group in a sequence may be replaced by its
members, whatever states there are before, and a pattern may be put in parentheses when it
has no closing one for a literal: the states and the edges in their order stay the same,
and with them every verdict and every number of positions entered. -/
theorem redundant_group :
    (∀ (tokens : List Token) (arena : Arena),
      Token.assembleAll tokens arena = Token.assembleApart tokens arena) ∧
    (∀ (xs ys zs : List Token) (arena : Arena), ys ≠ [] →
      Token.assembleAll (xs ++ .group ys :: zs) arena =
        Token.assembleAll (xs ++ ys ++ zs) arena ∧
      Token.assembleAll (xs ++ .sequence ys :: zs) arena =
        Token.assembleAll (xs ++ ys ++ zs) arena) ∧
    ∀ (pattern : List UInt8) (tokens : List Token) (options : Options),
      parse pattern = .ok tokens → Token.AllThroughout Token.NotCloser tokens →
      ∃ plain grouped, compile pattern options = .ok plain ∧
        compile (Mark.openGroup :: (pattern ++ [Mark.closeGroup])) options = .ok grouped ∧
        grouped.automaton = plain.automaton ∧
        ∀ (input : Array UInt8) (origin : Position),
          grouped.search input origin = plain.search input origin := by
  refine ⟨Token.assembleAll_eq_assembleApart, fun xs ys zs arena hne => ⟨?_, ?_⟩,
    fun pattern tokens options hparse hclosers => ?_⟩
  · exact Token.assembleAll_nested (by funext arena; rw [Token.assemble]) hne xs zs arena
  · exact Token.assembleAll_nested (by funext arena; rw [Token.assemble]) hne xs zs arena
  · have hinside := Grammar.sequence_group_iff.2 ⟨sequence_of_parse hparse, hclosers⟩
    have hgrouped : parse (Mark.openGroup :: (pattern ++ [Mark.closeGroup])) =
        .ok [.group tokens] := parse_of_sequence (.items (.one (.atom (.group hinside))))
    have hstates : Automaton.ofTokens [.group tokens] = Automaton.ofTokens tokens := by
      rw [Automaton.ofTokens_eq, Automaton.ofTokens_eq]
      simp only [Token.assembleAll, Token.assembleAfter, Token.assemble]
    refine ⟨_, _, compile_of_parse hparse options, compile_of_parse hgrouped options, hstates,
      fun input origin => ?_⟩
    show (Automaton.ofTokens [.group tokens]).search input options.optimize origin = _
    rw [hstates]
    rfl

/-- `b*` with and without parentheses, and in a sequence behind other states. -/
theorem redundant_group_star :
    parse [0x62, 0x2a] = .ok [.repeated 0 .unbounded (.literal 0x62)] ∧
      ∃ plain grouped, compile [0x62, 0x2a] .none = .ok plain ∧
        compile (Mark.openGroup :: ([0x62, 0x2a] ++ [Mark.closeGroup])) .none = .ok grouped ∧
        grouped.search #[0x62] ⟨4, 0⟩ = plain.search #[0x62] ⟨4, 0⟩ ∧
        Token.assembleAll ([.literal 0x61] ++ .group [.literal 0x62] :: [.literal 0x63])
            plain.automaton.states =
          Token.assembleAll ([.literal 0x61] ++ [.literal 0x62] ++ [.literal 0x63])
            plain.automaton.states := by
  have h : parse [0x62, 0x2a] = .ok [.repeated 0 .unbounded (.literal 0x62)] := rfl
  have hclosers : Token.AllThroughout Token.NotCloser
      [.repeated 0 .unbounded (.literal 0x62)] := by
    simp only [Token.AllThroughout, Token.Throughout, Token.NotCloser]
    decide
  obtain ⟨_, hgroup, hpattern⟩ := redundant_group
  obtain ⟨plain, grouped, hplain, hgrouped, _, hsearch⟩ := hpattern _ _ .none h hclosers
  exact ⟨h, plain, grouped, hplain, hgrouped, hsearch _ _,
    (hgroup [.literal 0x61] [.literal 0x62] [.literal 0x63] plain.automaton.states (by simp)).1⟩

/-! ## The graph text -/

/-- Two patterns with one graph text have as many states, the same start and end, and for
each state the same table of edges, down to the order under each symbol. -/
theorem dot_lossless {first second : List UInt8} {options options' : Options} {m n : Matcher}
    (hm : compile first options = .ok m) (hn : compile second options' = .ok n)
    (h : m.automaton.dot = n.automaton.dot) :
    m.automaton.size = n.automaton.size ∧ m.automaton.start = n.automaton.start ∧
      m.automaton.accept = n.automaton.accept ∧
      ∀ id : Nat, (m.automaton.state? id).map State.transitions =
        (n.automaton.state? id).map State.transitions := by
  obtain ⟨hsize, htables⟩ := Automaton.transitions_of_dot h
  obtain ⟨tokens, _, rfl⟩ := exists_of_compile hm
  obtain ⟨tokens', _, rfl⟩ := exists_of_compile hn
  obtain ⟨hstart, haccept⟩ := Automaton.size_ofTokens tokens
  obtain ⟨hstart', haccept'⟩ := Automaton.size_ofTokens tokens'
  refine ⟨hsize, ?_, ?_, htables⟩
  · exact Nat.add_right_cancel (hstart.trans (hsize.trans hstart'.symm))
  · exact Nat.add_right_cancel (haccept.trans (hsize.trans haccept'.symm))

/-- `"+` with and without parentheses and options. -/
theorem dot_lossless_quote :
    ∃ m n, compile [0x22, 0x2b] .none = .ok m ∧
      compile [0x28, 0x22, 0x2b, 0x29] .all = .ok n ∧
      m.automaton.dot = n.automaton.dot ∧
      (m.automaton.state? 1).map State.transitions = some [(.epsilon, [2, 5])] ∧
      (n.automaton.state? 1).map State.transitions = some [(.epsilon, [2, 5])] := by
  have hm : compile [0x22, 0x2b] .none =
      .ok (ofTokens [0x22, 0x2b] .none [.repeated 1 .unbounded (.literal 0x22)]) := rfl
  have hn : compile [0x28, 0x22, 0x2b, 0x29] .all =
      .ok (ofTokens [0x28, 0x22, 0x2b, 0x29] .all
        [.group [.repeated 1 .unbounded (.literal 0x22)]]) := rfl
  have hdot : Automaton.dot (.ofTokens [.repeated 1 .unbounded (.literal 0x22)]) =
      Automaton.dot (.ofTokens [.group [.repeated 1 .unbounded (.literal 0x22)]]) :=
    congrArg Automaton.dot rfl
  obtain ⟨_, _, _, htables⟩ := dot_lossless hm hn hdot
  have htable : ((Automaton.ofTokens [.repeated 1 .unbounded (.literal 0x22)]).state? 1).map
      State.transitions = some [(.epsilon, [2, 5])] := by decide
  exact ⟨_, _, hm, hn, hdot, htable, (htables 1).symm.trans htable⟩

end BytePattern.Matcher
