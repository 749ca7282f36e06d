import BytePattern.Proofs.Automaton.Closed
import BytePattern.Proofs.Automaton.Sparse

set_option autoImplicit false

/-!
# Automata: the shape of a closed automaton

What is true of the states, flags and edges of every automaton of a token list,
whatever the tokens are.  The block of the tokens is sparse and no edge leaves
it, and closing it adds two states and two edges, so what is true of the
automaton is read off the block and the two edges.
-/

namespace BytePattern

namespace Automaton

/-- The automaton ends with its start state and its end state, which alone are
flagged, and its edges are few and stay inside.  A byte has one destination, the
same for all bytes of a state; no destination is listed twice; one epsilon edge
leaves the start state and none enters it, and one epsilon edge enters the end
state and none leaves it. -/
structure Tidy (a : Automaton) : Prop where
  start_eq : a.start + 2 = a.size
  accept_eq : a.accept + 1 = a.size
  flags : ∀ (id : Nat) (s : State), a.state? id = some s →
    (s.isStart = true ↔ id = a.start) ∧ (s.isEnd = true ↔ id = a.accept)
  inside : ∀ (id : Nat) (symbol : Symbol), ∀ t ∈ a.targets id symbol, t < a.size
  unmarked : ∀ id : Nat, a.targets id .startOfText = [] ∧ a.targets id .endOfText = []
  together : ∀ (id : Nat) (s : State), a.state? id = some s →
    ∃ t : Nat, ∀ (b : UInt8) (ts : List Nat), (.byte b, ts) ∈ s.transitions → ts = [t]
  listed : ∀ (id : Nat) (s : State), a.state? id = some s →
    ∀ (symbol : Symbol) (ts : List Nat), (symbol, ts) ∈ s.transitions → ts ≠ [] ∧ ts.Nodup
  few : ∀ id : Nat, (a.targets id .epsilon).length ≤ 3
  start_source : ∀ (id : Nat) (symbol : Symbol), a.start ∉ a.targets id symbol
  start_edge : ∃ (s : State) (t : Nat), a.state? a.start = some s ∧ s.edges = [⟨.epsilon, t⟩]
  accept_sink : ∃ s : State, a.state? a.accept = some s ∧ s.edges = []
  accept_edge : ∃ id : Nat, (a.targets id .epsilon).count a.accept = 1 ∧
    ∀ (s : Nat) (symbol : Symbol), a.accept ∈ a.targets s symbol → s = id ∧ symbol = .epsilon

/-! ## Closing a block -/

section

variable {root : Fragment} {arena : Arena}

/-- Closing adds one edge into the block and one out of it. -/
theorem mem_targets_close (hexit : root.exit < arena.size) {s t : Nat} {symbol : Symbol} :
    t ∈ (close root arena).targets s symbol ↔ t ∈ arena.targets s symbol ∨
      symbol = .epsilon ∧ (s = arena.size ∧ t = root.entry ∨
        s = root.exit ∧ t = arena.size + 1) := by
  unfold targets
  rw [states_close, Arena.mem_targets_join, Arena.mem_targets_join, Arena.size_join,
    Arena.targets_addEnds, Arena.size_addEnds]
  have hstart : arena.size < arena.size + 2 := Nat.lt_add_of_pos_right Nat.two_pos
  have hexit' : root.exit < arena.size + 2 := Nat.lt_trans hexit hstart
  tauto

theorem state?_close_start (hexit : root.exit < arena.size) :
    (close root arena).state? arena.size =
      some (State.link { State.blank with isStart := true } .epsilon root.entry) := by
  unfold state?
  rw [states_close]
  unfold Arena.join Arena.link Arena.addEnds
  rw [Array.getElem?_modify, if_neg (Nat.ne_of_lt hexit), Array.getElem?_modify, if_pos rfl,
    Array.getElem?_push, if_neg (by simp), Array.getElem?_push, if_pos rfl, Option.map_some]

theorem state?_close_accept (hexit : root.exit < arena.size) :
    (close root arena).state? (arena.size + 1) = some { State.blank with isEnd := true } := by
  unfold state?
  rw [states_close]
  unfold Arena.join Arena.link Arena.addEnds
  rw [Array.getElem?_modify, if_neg (Nat.ne_of_lt (Nat.lt_succ_of_lt hexit)),
    Array.getElem?_modify, if_neg (Nat.ne_of_lt (Nat.lt_succ_self _)), Array.getElem?_push,
    if_pos (by simp)]

/-- Closing adds no edge that is there already, and at most one to a state. -/
theorem sparse_close (h : root.Sparse #[] arena) : (close root arena).states.Sparse := by
  have hexit : root.exit < arena.size := h.exit_lt
  have hends : arena.addEnds.Sparse := h.sparse.of_targets_eq arena.targets_addEnds
  have hblank : arena.addEnds.targets arena.size .epsilon = [] := by
    rw [Arena.targets_addEnds, Arena.targets_of_le (Nat.le_refl _)]
  have hkept : (arena.addEnds.join arena.size root.entry).targets root.exit .epsilon =
      arena.targets root.exit .epsilon := by
    rw [Arena.targets_join_of_ne (Nat.ne_of_lt hexit), Arena.targets_addEnds]
  have hentered : (arena.addEnds.join arena.size root.entry).Sparse := by
    refine hends.join ?_ ?_
    · simp [hblank]
    · simp [Arena.degree, hblank]
  rw [states_close]
  refine hentered.join ?_ ?_
  · rw [hkept]
    intro hedge
    exact Nat.not_succ_lt_self (h.appends.inside (Nat.zero_le _) hedge).2
  · unfold Arena.degree
    rw [hkept]
    exact Nat.le_succ_of_le h.exit_degree

end

/-! ## The automaton of a token list -/

theorem sparse_root (tokens : List Token) :
    (Token.assembleAll tokens #[]).1.Sparse #[] (Token.assembleAll tokens #[]).2 :=
  Token.sparse_assembleAll tokens #[] Arena.sparse_empty

theorem sparse_ofTokens (tokens : List Token) : (ofTokens tokens).states.Sparse := by
  rw [ofTokens_eq]
  exact sparse_close (sparse_root tokens)

/-- An edge leads into the block of the tokens, or it is the one out of it. -/
theorem target_cases {tokens : List Token} {id t : Nat} {symbol : Symbol}
    (h : t ∈ (ofTokens tokens).targets id symbol) :
    t < (ofTokens tokens).start ∨
      symbol = .epsilon ∧ id = (Token.assembleAll tokens #[]).1.exit ∧
        t = (ofTokens tokens).accept := by
  have hroot := sparse_root tokens
  rcases (mem_targets_close hroot.exit_lt).1 h with hblock | ⟨hsymbol, ⟨_, rfl⟩ | ⟨hid, rfl⟩⟩
  · exact Or.inl (hroot.appends.inside (Nat.zero_le _) hblock).2
  · exact Or.inl hroot.entry_lt
  · exact Or.inr ⟨hsymbol, hid, rfl⟩

/-- The destinations of a state under a symbol, where it lists them. -/
theorem listed_ofTokens {tokens : List Token} {id : Nat} {s : State}
    (hs : (ofTokens tokens).state? id = some s) {symbol : Symbol} {ts : List Nat}
    (hts : (symbol, ts) ∈ s.transitions) :
    ts = (ofTokens tokens).targets id symbol ∧ ts ≠ [] ∧ ts.Nodup := by
  obtain ⟨heq, hne⟩ := State.mem_transitions.1 hts
  rw [← targets_of_state? hs] at heq
  exact ⟨heq, hne, heq ▸ (sparse_ofTokens tokens).nodup id symbol⟩

/-- The lists of the bytes that a state reads are one list, of one state. -/
theorem together_ofTokens {tokens : List Token} {id : Nat} {s : State}
    (hs : (ofTokens tokens).state? id = some s) :
    ∃ t : Nat, ∀ (b : UInt8) (ts : List Nat), (.byte b, ts) ∈ s.transitions → ts = [t] := by
  by_cases hread : ∃ (b : UInt8) (t : Nat), t ∈ (ofTokens tokens).targets id (.byte b)
  · obtain ⟨b, t, ht⟩ := hread
    refine ⟨t, fun c ts hts => ?_⟩
    obtain ⟨rfl, hne, hnodup⟩ := listed_ofTokens hs hts
    have hall : ∀ u ∈ (ofTokens tokens).targets id (.byte c), u = t :=
      fun u hu => targets_byte_unique hu ht
    generalize (ofTokens tokens).targets id (.byte c) = ts at *
    have hone : ts.length ≤ 1 := by
      rw [List.eq_replicate_of_mem hall] at hnodup
      exact List.nodup_replicate.1 hnodup
    have hpos : 1 ≤ ts.length := List.length_pos_of_ne_nil hne
    obtain ⟨u, rfl⟩ := List.length_eq_one_iff.1 (Nat.le_antisymm hone hpos)
    rw [hall u List.mem_cons_self]
  · refine ⟨0, fun b ts hts => ?_⟩
    obtain ⟨rfl, hne, _⟩ := listed_ofTokens hs hts
    obtain ⟨t, ht⟩ := List.exists_mem_of_ne_nil _ hne
    exact absurd ⟨b, t, ht⟩ hread

theorem tidy_ofTokens (tokens : List Token) : (ofTokens tokens).Tidy := by
  have hsparse : (ofTokens tokens).states.Sparse := sparse_ofTokens tokens
  have hexit := (sparse_root tokens).exit_lt
  obtain ⟨hstart, haccept⟩ := size_ofTokens tokens
  refine ⟨hstart, haccept, fun id s => flags_ofTokens, ?inside, targets_mark tokens,
    fun id s => together_ofTokens, ?listed, hsparse.degree_le, ?source,
    ⟨_, _, state?_close_start hexit, rfl⟩, ⟨_, state?_close_accept hexit, rfl⟩, ?accept⟩
  case inside =>
    intro id symbol t ht
    rcases target_cases ht with hlt | ⟨_, _, rfl⟩
    · omega
    · omega
  case listed =>
    intro id s hs symbol ts hts
    exact (listed_ofTokens hs hts).2
  case source =>
    intro id symbol ht
    rcases target_cases ht with hlt | ⟨_, _, heq⟩
    · exact Nat.lt_irrefl _ hlt
    · omega
  case accept =>
    have hedge : (ofTokens tokens).accept ∈
        (ofTokens tokens).targets (Token.assembleAll tokens #[]).1.exit .epsilon :=
      (mem_targets_close hexit).2 (Or.inr ⟨rfl, Or.inr ⟨rfl, rfl⟩⟩)
    refine ⟨_, List.count_eq_one_of_mem (hsparse.nodup _ _) hedge, fun s symbol ht => ?_⟩
    rcases target_cases ht with hlt | ⟨hsymbol, hs, _⟩
    · omega
    · exact ⟨hs, hsymbol⟩

end Automaton

end BytePattern
