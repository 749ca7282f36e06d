import BytePattern.Automaton.Assembly

set_option autoImplicit false

/-!
# Automata: the edges of an assembled automaton

What assembling can do to an arena is add states without edges, add epsilon
edges, and add a state whose byte edges all lead to the next one.  What these
three keep, all assembling keeps.  It follows that no state of an assembled
automaton has an edge under a mark, and that all its byte edges lead to one
state, so the first destination under a symbol is the only one that a byte has.
-/

namespace BytePattern

/-! ## Induction over assembling -/

/-- What holds of the arena is kept by each way in which assembling changes it. -/
structure Kept (holds : Arena → Prop) : Prop where
  pair : ∀ arena : Arena, holds arena → holds arena.addPair
  join : ∀ (arena : Arena) (source target : Nat), holds arena → holds (arena.join source target)
  bytes : ∀ (arena : Arena) (bytes : List UInt8), holds arena →
    holds (arena.readAny (bytes.map .byte)).2
  nothing : ∀ arena : Arena, holds arena → holds arena.readNothing.2

section

variable {holds : Arena → Prop} (h : Kept holds)

include h

theorem Kept.fork (f g : Fragment) {arena : Arena} (harena : holds arena) :
    holds (arena.fork f g).2 := by
  rw [Arena.fork_eq]
  unfold Arena.openFork
  dsimp only
  exact h.join _ _ _ (h.join _ _ _ (h.join _ _ _ (h.join _ _ _ (h.pair _ harena))))

theorem Kept.chain {make : Arena → Fragment × Arena}
    (hmake : ∀ arena : Arena, holds arena → holds (make arena).2) (min exit count : Nat) :
    ∀ (index : Nat) (last : Fragment) {arena : Arena}, holds arena →
      holds (Arena.chain make min exit count index last arena).2 := by
  induction count with
  | zero =>
    intro index last arena harena
    exact harena
  | succ count ih =>
    intro index last arena harena
    rw [Arena.chain_succ]
    apply ih
    split
    · exact h.join _ _ _ (h.join _ _ _ (hmake _ harena))
    · exact h.join _ _ _ (hmake _ harena)

theorem Kept.copies {make : Arena → Fragment × Arena}
    (hmake : ∀ arena : Arena, holds arena → holds (make arena).2) (min count : Nat)
    {arena : Arena} (harena : holds arena) : holds (Arena.copies make min count arena).2 := by
  have hopen : holds (Arena.openPair min arena) := by
    unfold Arena.openPair
    split
    · exact h.join _ _ _ (h.pair _ harena)
    · exact h.pair _ harena
  unfold Arena.copies
  exact h.chain hmake min _ _ _ _ (h.join _ _ _ (hmake _ hopen))

theorem Kept.unroll {make : Arena → Fragment × Arena}
    (hmake : ∀ arena : Arena, holds arena → holds (make arena).2) (min : Nat) (max : UpperBound)
    {arena : Arena} (harena : holds arena) : holds (Arena.unroll make min max arena).2 := by
  cases max with
  | bounded count =>
    rw [Arena.unroll_bounded]
    exact h.join _ _ _ (h.copies hmake min count harena)
  | unbounded =>
    rw [Arena.unroll_unbounded]
    exact h.join _ _ _ (h.join _ _ _ (h.copies hmake min _ harena))

end

mutual

/-- Assembling a token keeps what its single steps keep. -/
theorem Token.kept_assemble {holds : Arena → Prop} (h : Kept holds) :
    ∀ (token : Token) (arena : Arena), holds arena → holds (token.assemble arena).2
  | .literal byte, arena, harena => by
    rw [Token.assemble]
    exact h.bytes arena [byte] harena
  | .bracket set, arena, harena => by
    rw [Token.assemble]
    exact h.bytes arena set.members harena
  | .either left right, arena, harena => by
    rw [Token.assemble]
    exact h.fork _ _ (Token.kept_assemble h right _ (Token.kept_assemble h left arena harena))
  | .repeated min max body, arena, harena => by
    rw [Token.assemble]
    exact h.unroll (fun a ha => Token.kept_assemble h body a ha) min max harena
  | .group tokens, arena, harena => by
    rw [Token.assemble]
    exact Token.kept_assembleAll h tokens arena harena
  | .sequence tokens, arena, harena => by
    rw [Token.assemble]
    exact Token.kept_assembleAll h tokens arena harena

theorem Token.kept_assembleAll {holds : Arena → Prop} (h : Kept holds) :
    ∀ (tokens : List Token) (arena : Arena), holds arena →
      holds (Token.assembleAll tokens arena).2
  | [], arena, harena => by
    rw [Token.assembleAll]
    exact h.nothing arena harena
  | token :: tokens, arena, harena => by
    rw [Token.assembleAll]
    exact Token.kept_assembleAfter h tokens _ _ (Token.kept_assemble h token arena harena)

theorem Token.kept_assembleAfter {holds : Arena → Prop} (h : Kept holds) :
    ∀ (tokens : List Token) (before : Fragment) (arena : Arena), holds arena →
      holds (Token.assembleAfter tokens before arena).2
  | [], before, arena, harena => by
    rw [Token.assembleAfter]
    exact harena
  | token :: tokens, before, arena, harena => by
    rw [Token.assembleAfter]
    exact Token.kept_assembleAfter h tokens _ _
      (h.join _ _ _ (Token.kept_assemble h token arena harena))

end

/-! ## States -/

/-- A state as assembling leaves it: no edge under a mark, and one destination of
all byte edges. -/
structure State.Uniform (s : State) : Prop where
  unmarked : ∀ t : Nat, ⟨.startOfText, t⟩ ∉ s.edges ∧ ⟨.endOfText, t⟩ ∉ s.edges
  together : ∀ (b c : UInt8) (t u : Nat), ⟨.byte b, t⟩ ∈ s.edges → ⟨.byte c, u⟩ ∈ s.edges → t = u

theorem State.uniform_of_no_edges {s : State} (h : s.edges = []) : s.Uniform := by
  refine ⟨fun t => ?_, fun b c t u ht => ?_⟩
  · simp [h]
  · simp [h] at ht

theorem State.Uniform.link {s : State} (h : s.Uniform) (t : Nat) :
    (s.link .epsilon t).Uniform := by
  refine ⟨fun u => ?_, fun b c u v hu hv => ?_⟩
  · simpa [State.link] using h.unmarked u
  · simp only [State.link, List.mem_append, List.mem_singleton, Edge.mk.injEq, reduceCtorEq,
      false_and, or_false] at hu hv
    exact h.together b c u v hu hv

namespace Arena

/-- Every state of the arena has the property. -/
def All (p : State → Prop) (arena : Arena) : Prop :=
  ∀ (id : Nat) (s : State), arena[id]? = some s → p s

theorem all_empty (p : State → Prop) : All p #[] := by
  intro id s hs
  cases hs

theorem All.push {p : State → Prop} {arena : Arena} (h : All p arena) {s : State} (hs : p s) :
    All p (arena.push s) := by
  intro id s' hs'
  rw [Array.getElem?_push] at hs'
  split at hs'
  · exact Option.some.inj hs' ▸ hs
  · exact h id s' hs'

theorem All.link {p : State → Prop} {arena : Arena} {source target : Nat} {symbol : Symbol}
    (h : All p arena)
    (hlink : ∀ s, arena[source]? = some s → p s → p (s.link symbol target)) :
    All p (arena.link source symbol target) := by
  intro id s' hs'
  rw [Arena.link, Array.getElem?_modify] at hs'
  split at hs'
  · rename_i heq
    subst heq
    obtain ⟨s, hs, rfl⟩ := Option.map_eq_some_iff.1 hs'
    exact hlink s hs (h source s hs)
  · exact h id s' hs'

/-- Byte edges of one state that lead to one state. -/
theorem all_uniform_bytes {arena : Arena} (source target : Nat) (bytes : List UInt8)
    (h : All State.Uniform arena)
    (hone : ∀ s, arena[source]? = some s → ∀ e ∈ s.edges, e.target = target) :
    All State.Uniform
      ((bytes.map Symbol.byte).foldl (fun a symbol => a.link source symbol target) arena) := by
  induction bytes generalizing arena with
  | nil => exact h
  | cons b bytes ih =>
    rw [List.map_cons, List.foldl_cons]
    refine ih (h.link fun s hs hu => ⟨fun t => ?_, fun c d t u ht hu' => ?_⟩) ?_
    · simpa [State.link] using hu.unmarked t
    · have htarget : ∀ e ∈ (s.link (.byte b) target).edges, e.target = target := by
        intro e he
        rcases List.mem_append.1 he with he | he
        · exact hone s hs e he
        · rw [List.mem_singleton] at he
          exact he ▸ rfl
      exact (htarget _ ht).trans (htarget _ hu').symm
    · intro s' hs' e he
      rw [Arena.link, Array.getElem?_modify, if_pos rfl] at hs'
      obtain ⟨s, hs, rfl⟩ := Option.map_eq_some_iff.1 hs'
      rcases List.mem_append.1 he with he | he
      · exact hone s hs e he
      · rw [List.mem_singleton] at he
        exact he ▸ rfl

theorem kept_uniform : Kept (All State.Uniform) := by
  have hpair : ∀ arena : Arena, All State.Uniform arena → All State.Uniform arena.addPair :=
    fun arena h => (h.push (State.uniform_of_no_edges rfl)).push (State.uniform_of_no_edges rfl)
  have hjoin : ∀ (arena : Arena) (source target : Nat), All State.Uniform arena →
      All State.Uniform (arena.join source target) :=
    fun arena source target h => h.link fun s _ hs => hs.link target
  refine ⟨hpair, hjoin, fun arena bytes h => ?_, fun arena h => hjoin _ _ _ (hpair arena h)⟩
  refine all_uniform_bytes _ _ bytes (hpair arena h) fun s hs e he => ?_
  have hblank : s = .blank := by
    simp only [addPair, Arena.pair] at hs
    rw [Array.getElem?_push, if_neg (by simp), Array.getElem?_push, if_pos rfl] at hs
    exact (Option.some.inj hs).symm
  subst hblank
  cases he

theorem kept_unflagged : Kept (All fun s => s.isStart = false ∧ s.isEnd = false) := by
  have hpair : ∀ arena : Arena, All (fun s => s.isStart = false ∧ s.isEnd = false) arena →
      All (fun s => s.isStart = false ∧ s.isEnd = false) arena.addPair :=
    fun arena h => (h.push ⟨rfl, rfl⟩).push ⟨rfl, rfl⟩
  have hlink : ∀ (arena : Arena) (source target : Nat) (symbol : Symbol),
      All (fun s => s.isStart = false ∧ s.isEnd = false) arena →
      All (fun s => s.isStart = false ∧ s.isEnd = false) (arena.link source symbol target) :=
    fun arena source target symbol h => h.link fun s _ hs => hs
  refine ⟨hpair, fun arena s t h => hlink arena s t _ h, fun arena bytes h => ?_,
    fun arena h => hlink _ _ _ _ (hpair arena h)⟩
  unfold readAny
  generalize bytes.map Symbol.byte = symbols
  have harena := hpair arena h
  generalize arena.addPair = grown at harena
  induction symbols generalizing grown with
  | nil => exact harena
  | cons symbol symbols ih => exact ih _ (hlink _ _ _ _ harena)

end Arena

end BytePattern
