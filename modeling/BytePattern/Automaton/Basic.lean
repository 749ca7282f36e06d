import BytePattern.Automaton.Symbol

set_option autoImplicit false

/-!
# Automata

An automaton is an array of states, and a state is named by its index.  A state
keeps its edges in the order in which they were added, because that is the
order in which a search tries them; the destinations under one symbol and the
table of all edges by symbol are views of that one list.
-/

namespace BytePattern

/-- An edge out of a state. -/
structure Edge where
  symbol : Symbol
  target : Nat
  deriving DecidableEq, Repr

/-- A state: whether it is the global start or the global end, and its edges,
oldest first. -/
structure State where
  isStart : Bool
  isEnd : Bool
  edges : List Edge
  deriving DecidableEq, Repr

namespace State

/-- A state without edges, neither start nor end. -/
def blank : State := ⟨false, false, []⟩

instance : Inhabited State := ⟨blank⟩

/-- The state with one more edge. -/
def link (s : State) (symbol : Symbol) (target : Nat) : State :=
  { s with edges := s.edges ++ [⟨symbol, target⟩] }

/-- The destinations under a symbol, oldest first. -/
def targets (s : State) (symbol : Symbol) : List Nat :=
  (s.edges.filter fun e => e.symbol = symbol).map Edge.target

/-- The symbols that have a destination, ascending, each with its destinations. -/
def transitions (s : State) : List (Symbol × List Nat) :=
  (Symbol.all.filter fun symbol => s.edges.any fun e => e.symbol = symbol).map fun symbol =>
    (symbol, s.targets symbol)

theorem mem_targets {s : State} {symbol : Symbol} {target : Nat} :
    target ∈ s.targets symbol ↔ ⟨symbol, target⟩ ∈ s.edges := by
  simp only [targets, List.mem_map, List.mem_filter, decide_eq_true_eq]
  constructor
  · rintro ⟨e, ⟨he, rfl⟩, rfl⟩
    exact he
  · intro h
    exact ⟨_, ⟨h, rfl⟩, rfl⟩

theorem mem_transitions {s : State} {symbol : Symbol} {ts : List Nat} :
    (symbol, ts) ∈ s.transitions ↔ ts = s.targets symbol ∧ ts ≠ [] := by
  have hany : ∀ label : Symbol,
      (s.edges.any fun e => e.symbol = label) = true ↔ s.targets label ≠ [] := by
    intro label
    simp [State.targets]
  unfold transitions
  rw [List.mem_map]
  constructor
  · rintro ⟨label, hlabel, heq⟩
    obtain ⟨rfl, rfl⟩ := Prod.mk.inj heq
    exact ⟨rfl, (hany label).1 (List.mem_filter.1 hlabel).2⟩
  · rintro ⟨rfl, hne⟩
    exact ⟨symbol, List.mem_filter.2 ⟨symbol.mem_all, (hany symbol).2 hne⟩, rfl⟩

@[simp] theorem targets_blank (symbol : Symbol) : blank.targets symbol = [] := rfl

/-- An edge adds its destination under its own symbol, after the others, and
leaves every other symbol alone. -/
theorem targets_link (s : State) (symbol other : Symbol) (target : Nat) :
    (s.link symbol target).targets other =
      s.targets other ++ if symbol = other then [target] else [] := by
  by_cases h : symbol = other <;> simp [targets, link, List.filter_append, h]

end State

/-- States by index. -/
abbrev Arena := Array State

namespace Arena

/-- The destinations of a state under a symbol; a state that does not exist has
none. -/
def targets (arena : Arena) (id : Nat) (symbol : Symbol) : List Nat :=
  match arena[id]? with
  | some s => s.targets symbol
  | none => []

/-- One more edge. -/
def link (arena : Arena) (source : Nat) (symbol : Symbol) (target : Nat) : Arena :=
  arena.modify source fun s => s.link symbol target

theorem mem_targets_iff {arena : Arena} {id target : Nat} {symbol : Symbol} :
    target ∈ arena.targets id symbol ↔ ∃ s, arena[id]? = some s ∧ ⟨symbol, target⟩ ∈ s.edges := by
  unfold targets
  cases h : arena[id]? with
  | none => simp
  | some s => simpa using State.mem_targets

/-- An edge adds its destination to its source under its own symbol, after the
others, and nothing else. -/
theorem targets_link (arena : Arena) (source target id : Nat) (symbol label : Symbol) :
    (arena.link source symbol target).targets id label =
      arena.targets id label ++
        if id = source ∧ source < arena.size ∧ label = symbol then [target] else [] := by
  unfold targets link
  rw [Array.getElem?_modify]
  by_cases hid : source = id
  · subst hid
    rw [if_pos rfl]
    cases h : arena[source]? with
    | none =>
      have hge : ¬ source < arena.size := Nat.not_lt.2 (Array.getElem?_eq_none_iff.1 h)
      simp [hge]
    | some s =>
      have hlt : source < arena.size := (Array.getElem?_eq_some_iff.1 h).1
      simp [State.targets_link, hlt, eq_comm]
  · simp [hid, Ne.symm hid]

theorem mem_targets_link {arena : Arena} {source target id other : Nat} {symbol label : Symbol} :
    other ∈ (arena.link source symbol target).targets id label ↔
      other ∈ arena.targets id label ∨
        (id = source ∧ source < arena.size ∧ label = symbol ∧ other = target) := by
  rw [targets_link, List.mem_append]
  split
  · rename_i h
    simp [h]
  · rename_i h
    have hother : ¬ (id = source ∧ source < arena.size ∧ label = symbol ∧ other = target) :=
      fun hedge => h ⟨hedge.1, hedge.2.1, hedge.2.2.1⟩
    simp [hother]

@[simp] theorem size_link (arena : Arena) (source target : Nat) (symbol : Symbol) :
    (arena.link source symbol target).size = arena.size := by
  simp [link]

end Arena

/-- A compiled token list. -/
structure Automaton where
  states : Arena
  start : Nat
  accept : Nat
  deriving DecidableEq, Repr, Inhabited

namespace Automaton

/-- How many states there are. -/
def size (a : Automaton) : Nat := a.states.size

/-- The state with an index, if there is one. -/
def state? (a : Automaton) (id : Nat) : Option State := a.states[id]?

/-- The destinations of a state under a symbol; a state that does not exist has
none. -/
def targets (a : Automaton) (id : Nat) (symbol : Symbol) : List Nat :=
  a.states.targets id symbol

theorem targets_of_state? {a : Automaton} {id : Nat} {s : State} (h : a.state? id = some s)
    (symbol : Symbol) : a.targets id symbol = s.targets symbol := by
  unfold targets Arena.targets
  rw [show a.states[id]? = some s from h]

/-- The index is that of a state flagged as the end. -/
def isEnd (a : Automaton) (id : Nat) : Bool :=
  match a.state? id with
  | some s => s.isEnd
  | none => false

/-- The indices of the states that pass a test, ascending. -/
def indices (a : Automaton) (p : State → Bool) : List Nat :=
  (List.range a.size).filter fun id =>
    match a.state? id with
    | some s => p s
    | none => false

end Automaton

end BytePattern
