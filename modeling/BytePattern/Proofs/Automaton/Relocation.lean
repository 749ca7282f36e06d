import BytePattern.Proofs.Automaton.Sparse

set_option autoImplicit false

/-!
# Automata: blocks in another place

Assembling never looks at the states that are there already, only at how many they
are.  So a token has one block, the one that it adds to the empty arena, and any
other arena gets a copy of it behind its own states with every number moved up.  Two
things follow for all arenas: a token adds a block with an entry and an exit of its
own, and it makes no difference whether an edge of an older state is there before
the block or comes after it.
-/

namespace BytePattern

/-- The fragment with its states moved up. -/
def Fragment.shift (n : Nat) (f : Fragment) : Fragment := ⟨n + f.entry, n + f.exit⟩

/-- The state with the destinations of its edges moved up. -/
def State.shift (n : Nat) (s : State) : State :=
  { s with edges := s.edges.map fun e => ⟨e.symbol, n + e.target⟩ }

@[simp] theorem State.shift_blank (n : Nat) : State.blank.shift n = .blank := rfl

theorem State.shift_link (n : Nat) (s : State) (symbol : Symbol) (target : Nat) :
    (s.link symbol target).shift n = (s.shift n).link symbol (n + target) := by
  simp [State.shift, State.link]

theorem Fragment.shift_shift (m n : Nat) (f : Fragment) :
    (f.shift m).shift n = f.shift (m + n) := by
  simp only [Fragment.shift, Fragment.mk.injEq]
  omega

theorem State.shift_shift (m n : Nat) (s : State) : (s.shift m).shift n = s.shift (m + n) := by
  have hadd : ∀ target : Nat, n + (m + target) = m + n + target := by omega
  simp [State.shift, hadd]

namespace Arena

/-- The arena with a copy of another one behind it. -/
def followedBy (base block : Arena) : Arena := base ++ block.map (State.shift base.size)

section

variable {base block : Arena}

@[simp] theorem size_followedBy (base block : Arena) :
    (base.followedBy block).size = base.size + block.size := by
  simp [followedBy]

@[simp] theorem followedBy_empty (base : Arena) : base.followedBy #[] = base := by
  simp [followedBy]

theorem getElem?_followedBy_add (base block : Arena) (id : Nat) :
    (base.followedBy block)[base.size + id]? = block[id]?.map (State.shift base.size) := by
  unfold followedBy
  rw [Array.getElem?_append_right (Nat.le_add_right _ _), Nat.add_sub_cancel_left,
    Array.getElem?_map]

theorem getElem?_followedBy_of_lt {id : Nat} (h : id < base.size) :
    (base.followedBy block)[id]? = base[id]? :=
  Array.getElem?_append_left h

/-! ## What assembling does, in another place -/

theorem pair_followedBy (base block : Arena) :
    (base.followedBy block).pair = block.pair.shift base.size := by
  simp [pair, Fragment.shift, Nat.add_assoc]

theorem addPair_followedBy (base block : Arena) :
    (base.followedBy block).addPair = base.followedBy block.addPair := by
  simp [addPair, followedBy]

/-- An edge of the copy is the edge of the block. -/
theorem link_followedBy (base block : Arena) (source target : Nat) (symbol : Symbol) :
    (base.followedBy block).link (base.size + source) symbol (base.size + target) =
      base.followedBy (block.link source symbol target) := by
  refine Array.ext_getElem? fun id => ?_
  unfold link
  rw [Array.getElem?_modify]
  rcases Nat.lt_or_ge id base.size with hid | hid
  · rw [if_neg (by omega), getElem?_followedBy_of_lt hid, getElem?_followedBy_of_lt hid]
  · obtain ⟨i, rfl⟩ := Nat.exists_eq_add_of_le hid
    rw [getElem?_followedBy_add, getElem?_followedBy_add, Array.getElem?_modify]
    simp only [Nat.add_left_cancel_iff]
    split
    · cases block[i]? with
      | none => rfl
      | some s => exact congrArg some (s.shift_link base.size symbol target).symm
    · rfl

/-- An edge of the states in front leaves the copy alone. -/
theorem link_followedBy_of_lt {source target : Nat} {symbol : Symbol} (h : source < base.size) :
    (base.followedBy block).link source symbol target =
      (base.link source symbol target).followedBy block := by
  refine Array.ext_getElem? fun id => ?_
  have hsize : (base.link source symbol target).size = base.size := size_link ..
  rw [link, Array.getElem?_modify]
  rcases Nat.lt_or_ge id base.size with hid | hid
  · rw [getElem?_followedBy_of_lt hid, getElem?_followedBy_of_lt (by omega), link,
      Array.getElem?_modify]
  · obtain ⟨i, rfl⟩ := Nat.exists_eq_add_of_le hid
    rw [if_neg (by omega), getElem?_followedBy_add, ← hsize, getElem?_followedBy_add]

end

end Arena

/-! ## Assembling in another place -/

/-- Assembling behind other states adds the copy of what it adds without them. -/
def Relocates (make : Arena → Fragment × Arena) : Prop :=
  ∀ base block : Arena, make (base.followedBy block) =
    ((make block).1.shift base.size, base.followedBy (make block).2)

namespace Arena

theorem join_followedBy (base block : Arena) (source target : Nat) :
    (base.followedBy block).join (base.size + source) (base.size + target) =
      base.followedBy (block.join source target) :=
  link_followedBy base block source target .epsilon

theorem relocates_readAny (symbols : List Symbol) :
    Relocates fun arena => arena.readAny symbols := by
  intro base block
  have hlinks : ∀ arena : Arena,
      symbols.foldl (fun a symbol => a.link (base.size + block.size) symbol
        (base.size + (block.size + 1))) (base.followedBy arena) =
      base.followedBy (symbols.foldl (fun a symbol => a.link block.size symbol
        (block.size + 1)) arena) := by
    induction symbols with
    | nil => exact fun _ => rfl
    | cons symbol symbols ih =>
      intro arena
      rw [List.foldl_cons, List.foldl_cons, link_followedBy, ih]
  show (base.followedBy block).readAny symbols = _
  unfold readAny
  rw [pair_followedBy, addPair_followedBy]
  exact congrArg (Prod.mk _) (hlinks block.addPair)

theorem fork_followedBy (base block : Arena) (f g : Fragment) :
    (base.followedBy block).fork (f.shift base.size) (g.shift base.size) =
      ((block.fork f g).1.shift base.size, base.followedBy (block.fork f g).2) := by
  unfold fork
  dsimp only
  rw [pair_followedBy, addPair_followedBy]
  simp only [Fragment.shift, join_followedBy]

theorem openPair_followedBy (min : Nat) (base block : Arena) :
    openPair min (base.followedBy block) = base.followedBy (openPair min block) := by
  unfold openPair
  split
  · rw [addPair_followedBy, size_followedBy, Nat.add_assoc, join_followedBy]
  · rw [addPair_followedBy]

section

variable {make : Arena → Fragment × Arena} (h : Relocates make)

include h

theorem chain_followedBy (min exit count : Nat) :
    ∀ (index : Nat) (last : Fragment) (base block : Arena),
      chain make min (base.size + exit) count index (last.shift base.size)
          (base.followedBy block) =
        ((chain make min exit count index last block).1.shift base.size,
          base.followedBy (chain make min exit count index last block).2) := by
  induction count with
  | zero => exact fun _ _ _ _ => rfl
  | succ count ih =>
    intro index last base block
    rw [chain_succ, chain_succ, h base block, ← ih]
    congr 1
    simp only [Fragment.shift]
    split
    · rw [join_followedBy, join_followedBy]
    · rw [join_followedBy]

theorem copies_followedBy (min count : Nat) : Relocates (copies make min count) := by
  intro base block
  unfold copies
  dsimp only
  rw [openPair_followedBy, h, pair_followedBy]
  simp only [Fragment.shift, join_followedBy]
  exact chain_followedBy h min _ _ _ _ base _

theorem relocates_unroll (min : Nat) (max : UpperBound) : Relocates (unroll make min max) := by
  intro base block
  cases max with
  | bounded count =>
    rw [unroll_bounded, unroll_bounded, copies_followedBy h, pair_followedBy]
    simp only [Fragment.shift, join_followedBy]
  | unbounded =>
    rw [unroll_unbounded, unroll_unbounded, copies_followedBy h, pair_followedBy]
    simp only [Fragment.shift, join_followedBy]

end

end Arena

mutual

/-- A token has one block, wherever it is put. -/
theorem Token.relocates_assemble : ∀ token : Token, Relocates token.assemble
  | .literal byte => Arena.relocates_readAny [.byte byte]
  | .bracket set => Arena.relocates_readAny (set.members.map .byte)
  | .either left right => by
    intro base block
    simp only [Token.assemble]
    rw [left.relocates_assemble base block]
    dsimp only
    rw [right.relocates_assemble base]
    exact Arena.fork_followedBy base _ _ _
  | .repeated min max body => Arena.relocates_unroll body.relocates_assemble min max
  | .group tokens => Token.relocates_assembleAll tokens
  | .sequence tokens => Token.relocates_assembleAll tokens

theorem Token.relocates_assembleAll : ∀ tokens : List Token, Relocates (Token.assembleAll tokens)
  | [] => Arena.relocates_readAny [.epsilon]
  | token :: tokens => by
    intro base block
    simp only [Token.assembleAll]
    rw [token.relocates_assemble base block]
    exact Token.assembleAfter_followedBy tokens _ base _

theorem Token.assembleAfter_followedBy : ∀ (tokens : List Token) (before : Fragment)
    (base block : Arena),
    Token.assembleAfter tokens (before.shift base.size) (base.followedBy block) =
      ((Token.assembleAfter tokens before block).1.shift base.size,
        base.followedBy (Token.assembleAfter tokens before block).2)
  | [], _, _, _ => by
    simp only [Token.assembleAfter]
  | token :: tokens, before, base, block => by
    have hrest := Token.assembleAfter_followedBy tokens
      ⟨before.entry, (token.assemble block).1.exit⟩ base
      ((token.assemble block).2.join before.exit (token.assemble block).1.entry)
    rw [← Arena.join_followedBy] at hrest
    simp only [Token.assembleAfter]
    rw [token.relocates_assemble base block]
    exact hrest

end

/-! ## All arenas -/

section

variable {make : Arena → Fragment × Arena}

/-- What is added is the copy of what the empty arena gets. -/
theorem Relocates.make_eq (h : Relocates make) (arena : Arena) :
    make arena = ((make #[]).1.shift arena.size, arena.followedBy (make #[]).2) := by
  have hplaced := h arena #[]
  rwa [Arena.followedBy_empty] at hplaced

/-- Assembling behind more states adds the same, moved up by as many as there are more. -/
theorem Relocates.make_moved (h : Relocates make) {arena other : Arena} {d : Nat}
    (hsize : other.size = arena.size + d) :
    (make other).1 = (make arena).1.shift d ∧
      ∀ id : Nat, (make other).2[other.size + id]? =
        (make arena).2[arena.size + id]?.map (State.shift d) := by
  rw [h.make_eq arena, h.make_eq other]
  refine ⟨?_, fun id => ?_⟩
  · show Fragment.shift other.size _ = Fragment.shift d (Fragment.shift arena.size _)
    rw [Fragment.shift_shift, hsize]
  · have hmoved : State.shift d ∘ State.shift arena.size = State.shift other.size := by
      funext s
      rw [Function.comp_apply, State.shift_shift, hsize]
    show (other.followedBy _)[other.size + id]? = (arena.followedBy _)[arena.size + id]?.map _
    rw [Arena.getElem?_followedBy_add, Arena.getElem?_followedBy_add, Option.map_map, hmoved]

/-- An edge of a state that is there already may come after what is added. -/
theorem Relocates.make_link (h : Relocates make) {arena : Arena} {source target : Nat}
    {symbol : Symbol} (hsource : source < arena.size) :
    make (arena.link source symbol target) =
      ((make arena).1, (make arena).2.link source symbol target) := by
  rw [h.make_eq arena, h.make_eq (arena.link source symbol target), Arena.size_link,
    Arena.link_followedBy_of_lt hsource]

end

namespace Arena

theorem targets_followedBy (base block : Arena) (id : Nat) (symbol : Symbol) :
    (base.followedBy block).targets (base.size + id) symbol =
      (block.targets id symbol).map (base.size + ·) := by
  unfold targets
  rw [getElem?_followedBy_add]
  cases block[id]? with
  | none => rfl
  | some s => simp [State.targets, State.shift, List.filter_map, Function.comp_def]

/-- A block by itself is a block behind any other states. -/
theorem within_followedBy {f : Fragment} {block : Arena} (base : Arena) (h : f.Within #[] block) :
    (f.shift base.size).Within base (base.followedBy block) := by
  have hsize : (base.followedBy block).size = base.size + block.size := size_followedBy base block
  refine ⟨⟨?size, fun hid => getElem?_followedBy_of_lt hid, ?inside⟩, Nat.le_add_right _ _, ?entry,
    Nat.le_add_right _ _, ?exit, fun heq => h.entry_ne_exit (Nat.add_left_cancel heq)⟩
  case size => omega
  case entry =>
    rw [hsize]
    exact Nat.add_lt_add_left h.entry_lt _
  case exit =>
    rw [hsize]
    exact Nat.add_lt_add_left h.exit_lt _
  case inside =>
    intro s t symbol hs ht
    obtain ⟨i, rfl⟩ := Nat.exists_eq_add_of_le hs
    rw [targets_followedBy] at ht
    obtain ⟨j, hj, rfl⟩ := List.mem_map.1 ht
    have hinside := h.appends.inside (Nat.zero_le i) hj
    omega

end Arena

/-! ## Tokens -/

theorem Token.within_assemble (token : Token) (arena : Arena) :
    (token.assemble arena).1.Within arena (token.assemble arena).2 := by
  rw [token.relocates_assemble.make_eq arena]
  exact Arena.within_followedBy arena (token.sparse_assemble #[] Arena.sparse_empty).toWithin

theorem Token.within_assembleAll (tokens : List Token) (arena : Arena) :
    (Token.assembleAll tokens arena).1.Within arena (Token.assembleAll tokens arena).2 := by
  rw [(Token.relocates_assembleAll tokens).make_eq arena]
  exact Arena.within_followedBy arena
    (Token.sparse_assembleAll tokens #[] Arena.sparse_empty).toWithin

end BytePattern
