import BytePattern.Proofs.Automaton.Relocation

set_option autoImplicit false

/-!
# Automata: groups and links

The links between the blocks of a sequence may be added as the blocks are or after the
last of them: an edge out of an older state is not seen by what assembles the next
block, and no state gets two such edges in another order.  The same holds of a group
in a sequence.  Its blocks are linked among themselves before the sequence goes on, and
yet the arena is the one that the members of the group give when they stand in the
sequence themselves.
-/

namespace BytePattern

/-! ## Blocks first and links last -/

namespace Arena

/-- One more block behind those that a fragment spans. -/
def extend (whole : Fragment × Arena) (next : Fragment) : Fragment × Arena :=
  (⟨whole.1.entry, next.exit⟩, whole.2.join whole.1.exit next.entry)

/-- The fragment of blocks that stand one after the other, each linked to the next. -/
def concatenate (arena : Arena) : List Fragment → Fragment × Arena
  | [] => arena.readNothing
  | first :: rest => rest.foldl extend (first, arena)

end Arena

/-- The blocks of tokens one after the other, none of them linked to the next. -/
def Token.assembleEach : List Token → Arena → List Fragment × Arena
  | [], arena => ([], arena)
  | token :: tokens, arena =>
    let (first, arena) := token.assemble arena
    let (rest, arena) := Token.assembleEach tokens arena
    (first :: rest, arena)

/-- The fragment of tokens one after the other, linked once all their blocks are
there. -/
def Token.assembleApart (tokens : List Token) (arena : Arena) : Fragment × Arena :=
  let (fragments, arena) := Token.assembleEach tokens arena
  arena.concatenate fragments

/-! ## Edges of older states -/

/-- Edges of two states may be added in either order. -/
theorem Arena.link_comm {arena : Arena} {a b t u : Nat} {symbol label : Symbol} (h : a ≠ b) :
    (arena.link a symbol t).link b label u = (arena.link b label u).link a symbol t := by
  refine Array.ext_getElem? fun id => ?_
  unfold link
  rw [Array.getElem?_modify, Array.getElem?_modify, Array.getElem?_modify, Array.getElem?_modify]
  by_cases ha : a = id
  · have hb : b ≠ id := fun hb => h (ha.trans hb.symm)
    rw [if_neg hb, if_neg hb]
  · rw [if_neg ha, if_neg ha]

namespace Token

variable {arena : Arena} {source target : Nat} {symbol : Symbol}

theorem assemble_link (token : Token) (h : source < arena.size) :
    token.assemble (arena.link source symbol target) =
      ((token.assemble arena).1, (token.assemble arena).2.link source symbol target) :=
  token.relocates_assemble.make_link h

theorem lt_size_assemble (token : Token) (h : source < arena.size) :
    source < (token.assemble arena).2.size :=
  Nat.lt_of_lt_of_le h (token.within_assemble arena).appends.size_le

theorem assembleEach_link (tokens : List Token) (h : source < arena.size) :
    assembleEach tokens (arena.link source symbol target) =
      ((assembleEach tokens arena).1, (assembleEach tokens arena).2.link source symbol target) := by
  induction tokens generalizing arena with
  | nil => rfl
  | cons token tokens ih =>
    simp only [assembleEach]
    rw [assemble_link token h]
    dsimp only
    rw [ih (lt_size_assemble token h)]

/-- Assembling behind a fragment adds edges to its exit, and to no other older state. -/
theorem assembleAfter_link (tokens : List Token) {before : Fragment} (h : source < arena.size)
    (hne : source ≠ before.exit) :
    assembleAfter tokens before (arena.link source symbol target) =
      ((assembleAfter tokens before arena).1,
        (assembleAfter tokens before arena).2.link source symbol target) := by
  induction tokens generalizing before arena with
  | nil => rfl
  | cons token tokens ih =>
    have hnew : arena.size ≤ (token.assemble arena).1.exit := (token.within_assemble arena).exit_ge
    simp only [assembleAfter]
    rw [assemble_link token h]
    dsimp only [Arena.join]
    rw [Arena.link_comm hne]
    refine ih ?_ (Nat.ne_of_lt (Nat.lt_of_lt_of_le h hnew))
    rw [Arena.size_link]
    exact lt_size_assemble token h

/-- Behind a fragment the links may wait for the last block. -/
theorem assembleAfter_eq_foldl (tokens : List Token) {before : Fragment}
    (h : before.exit < arena.size) :
    assembleAfter tokens before arena =
      (assembleEach tokens arena).1.foldl Arena.extend (before, (assembleEach tokens arena).2) := by
  induction tokens generalizing before arena with
  | nil => rfl
  | cons token tokens ih =>
    have hexit := (token.within_assemble arena).exit_lt
    have hold := lt_size_assemble token h
    -- the link to this block is an edge of an older state for all the blocks that follow
    simp only [assembleAfter, assembleEach, List.foldl_cons]
    rw [ih (by rwa [Arena.size_join])]
    unfold Arena.join
    rw [assembleEach_link tokens hold]
    rfl

/-- Linking every block as soon as it is there is linking all of them at the end. -/
theorem assembleAll_eq_assembleApart (tokens : List Token) (arena : Arena) :
    assembleAll tokens arena = assembleApart tokens arena := by
  cases tokens with
  | nil => rfl
  | cons token tokens =>
    simp only [assembleAll]
    exact assembleAfter_eq_foldl tokens (token.within_assemble arena).exit_lt

/-! ## Groups in sequences -/

theorem assembleAfter_append (xs ys : List Token) (before : Fragment) (arena : Arena) :
    assembleAfter (xs ++ ys) before arena =
      assembleAfter ys (assembleAfter xs before arena).1 (assembleAfter xs before arena).2 := by
  induction xs generalizing before arena with
  | nil => rfl
  | cons x xs ih =>
    simp only [List.cons_append, assembleAfter]
    exact ih _ _

theorem assembleAll_append {xs : List Token} (hne : xs ≠ []) (ys : List Token) (arena : Arena) :
    assembleAll (xs ++ ys) arena =
      assembleAfter ys (assembleAll xs arena).1 (assembleAll xs arena).2 := by
  obtain ⟨x, xs, rfl⟩ := List.exists_cons_of_ne_nil hne
  simp only [List.cons_append, assembleAll]
  exact assembleAfter_append xs ys _ _

/-- The entry of a fragment is that of its first block, and has no part in what
follows. -/
theorem assembleAfter_entry (tokens : List Token) (before : Fragment) (arena : Arena) :
    (assembleAfter tokens before arena).1.entry = before.entry ∧ ∀ entry : Nat,
      assembleAfter tokens ⟨entry, before.exit⟩ arena =
        (⟨entry, (assembleAfter tokens before arena).1.exit⟩,
          (assembleAfter tokens before arena).2) := by
  induction tokens generalizing before arena with
  | nil => exact ⟨rfl, fun _ => rfl⟩
  | cons token tokens ih =>
    simp only [assembleAfter]
    exact ih ⟨before.entry, _⟩ _

/-- Tokens behind a fragment are their own fragment, linked to it at the end. -/
theorem assembleAfter_eq_extend {tokens : List Token} (hne : tokens ≠ []) {before : Fragment}
    (h : before.exit < arena.size) :
    assembleAfter tokens before arena =
      Arena.extend (before, (assembleAll tokens arena).2) (assembleAll tokens arena).1 := by
  obtain ⟨token, tokens, rfl⟩ := List.exists_cons_of_ne_nil hne
  have hnew : arena.size ≤ (token.assemble arena).1.exit := (token.within_assemble arena).exit_ge
  have hother : before.exit ≠ (Fragment.mk before.entry (token.assemble arena).1.exit).exit :=
    Nat.ne_of_lt (Nat.lt_of_lt_of_le h hnew)
  obtain ⟨hentry, hsame⟩ :=
    assembleAfter_entry tokens (token.assemble arena).1 (token.assemble arena).2
  simp only [assembleAfter, assembleAll, Arena.extend]
  unfold Arena.join
  rw [assembleAfter_link tokens (lt_size_assemble token h) hother, hsame, hentry]

/-- A token that assembles as some tokens do may be replaced by them in a sequence. -/
theorem assembleAll_nested {nested : Token} {tokens : List Token}
    (hnested : nested.assemble = assembleAll tokens) (hne : tokens ≠ []) (xs zs : List Token)
    (arena : Arena) :
    assembleAll (xs ++ nested :: zs) arena = assembleAll (xs ++ tokens ++ zs) arena := by
  by_cases hxs : xs = []
  · -- nothing is linked to the first of the members
    subst hxs
    rw [List.nil_append, List.nil_append, assembleAll_append hne]
    simp only [assembleAll, hnested]
  · have hexit := (within_assembleAll xs arena).exit_lt
    rw [List.append_assoc, assembleAll_append hxs, assembleAll_append hxs, assembleAfter_append,
      assembleAfter_eq_extend hne hexit]
    simp only [assembleAfter, hnested, Arena.extend]

end Token

end BytePattern
