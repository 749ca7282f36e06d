import BytePattern.Proofs.Automaton.Closed
import BytePattern.Proofs.Automaton.Relocation

set_option autoImplicit false

/-!
# Automata: how much assembling adds

How many states the block of a token has is counted on the tree alone.  Every construct but
a sequence has an entry and an exit of its own, a sequence borrows them from its members, and
a repetition has its body once for each copy.

The block that a token adds has as many states as the tree says, wherever it is put.  A
copy of a body is assembled like any other token, so a repetition adds its pair of states
and as many blocks of its body as it has copies.
-/

namespace BytePattern

/-! ## Counting on the tree -/

/-- How many copies of its body a repetition with these bounds is unrolled into: as many
as a bound asks for, and one at least. -/
def UpperBound.copies (max : UpperBound) (min : Nat) : Nat :=
  match max with
  | .unbounded => Nat.max min 1
  | .bounded bound => Nat.max bound 1

mutual

/-- How many states a token takes. -/
def Token.extent : Token → Nat
  | .literal _ => 2
  | .bracket _ => 2
  | .either left right => left.extent + right.extent + 2
  | .repeated min max body => 2 + max.copies min * body.extent
  | .group tokens => if tokens.isEmpty then 2 else Token.extents tokens
  | .sequence tokens => if tokens.isEmpty then 2 else Token.extents tokens

/-- How many states tokens take together. -/
def Token.extents : List Token → Nat
  | [] => 0
  | token :: tokens => token.extent + Token.extents tokens

end

/-! ## Assembling -/

/-- Assembling adds so many states. -/
def Adds (make : Arena → Fragment × Arena) (count : Nat) : Prop :=
  ∀ arena : Arena, (make arena).2.size = arena.size + count

namespace Arena

theorem adds_readAny (symbols : List Symbol) : Adds (fun arena => arena.readAny symbols) 2 := by
  intro arena
  have hlinks : ∀ (labels : List Symbol) (a : Arena),
      (labels.foldl (fun a symbol => a.link arena.pair.entry symbol arena.pair.exit) a).size =
        a.size := by
    intro labels
    induction labels with
    | nil => exact fun _ => rfl
    | cons symbol labels ih =>
      intro a
      rw [List.foldl_cons, ih, size_link]
  exact (hlinks symbols arena.addPair).trans (size_addPair arena)

section

variable {make : Arena → Fragment × Arena} {extent : Nat} (h : Adds make extent)

include h

theorem size_chain (min exit count : Nat) : ∀ (index : Nat) (last : Fragment) (arena : Arena),
    (chain make min exit count index last arena).2.size = arena.size + count * extent := by
  induction count with
  | zero =>
    intro index last arena
    rw [chain, Nat.zero_mul, Nat.add_zero]
  | succ count ih =>
    intro index last arena
    have hcopy : (if min < index then
        ((make arena).2.join last.exit (make arena).1.entry).join (make arena).1.entry exit
        else (make arena).2.join last.exit (make arena).1.entry).size = arena.size + extent := by
      split <;> simp [h arena]
    rw [chain_succ, ih, hcopy, Nat.succ_mul]
    omega

/-- The first copy is always there, and each of the others is a copy more. -/
theorem adds_copies (min count : Nat) :
    Adds (copies make min count) (2 + Nat.max count 1 * extent) := by
  intro arena
  have hone : Nat.max count 1 = count - 1 + 1 := by
    show max count 1 = count - 1 + 1
    omega
  unfold copies
  dsimp only
  rw [size_chain h, size_join, h, size_openPair, hone, Nat.succ_mul]
  omega

theorem adds_unroll (min : Nat) (max : UpperBound) :
    Adds (unroll make min max) (2 + max.copies min * extent) := by
  intro arena
  cases max with
  | bounded count =>
    rw [unroll_bounded, size_join]
    exact adds_copies h min count arena
  | unbounded =>
    have hone : Nat.max (Nat.max min 1) 1 = Nat.max min 1 :=
      Nat.max_eq_left (Nat.le_max_right min 1)
    rw [unroll_unbounded, size_join, size_join, adds_copies h, hone, UpperBound.copies]

end

end Arena

mutual

theorem Token.adds_assemble : ∀ token : Token, Adds token.assemble token.extent
  | .literal byte => Arena.adds_readAny [.byte byte]
  | .bracket set => Arena.adds_readAny (set.members.map .byte)
  | .either left right => by
    intro arena
    have hleft := Token.adds_assemble left arena
    have hright := Token.adds_assemble right (left.assemble arena).2
    rw [Token.assemble, Token.extent, Arena.size_fork, hright, hleft]
    omega
  | .repeated min max body => Arena.adds_unroll (Token.adds_assemble body) min max
  | .group tokens => Token.adds_assembleAll tokens
  | .sequence tokens => Token.adds_assembleAll tokens

/-- Tokens add what they add one after the other, and a pair of states if there is none
of them. -/
theorem Token.adds_assembleAll : ∀ tokens : List Token,
    Adds (Token.assembleAll tokens) (if tokens.isEmpty then 2 else Token.extents tokens)
  | [] => Arena.adds_readAny [.epsilon]
  | token :: tokens => by
    intro arena
    rw [Token.assembleAll, Token.size_assembleAfter tokens, Token.adds_assemble token arena,
      List.isEmpty_cons, if_neg Bool.false_ne_true, Token.extents, Nat.add_assoc]

theorem Token.size_assembleAfter : ∀ (tokens : List Token) (before : Fragment) (arena : Arena),
    (Token.assembleAfter tokens before arena).2.size = arena.size + Token.extents tokens
  | [], _, _ => by rw [Token.assembleAfter, Token.extents, Nat.add_zero]
  | token :: tokens, before, arena => by
    rw [Token.assembleAfter, Token.size_assembleAfter tokens, Arena.size_join,
      Token.adds_assemble token arena, Token.extents, Nat.add_assoc]

end

/-- The automaton of tokens has their states and two more. -/
theorem Automaton.size_ofTokens_eq {tokens : List Token} (h : tokens ≠ []) :
    (ofTokens tokens).size = 2 + Token.extents tokens := by
  have hblock : (Token.assembleAll tokens #[]).2.size = 0 + Token.extents tokens := by
    rw [Token.adds_assembleAll tokens #[], if_neg (by rwa [List.isEmpty_iff])]
    rfl
  rw [ofTokens_eq]
  show (close _ _).states.size = _
  rw [size_close, hblock]
  omega

end BytePattern
