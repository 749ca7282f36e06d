import BytePattern.Automaton.Basic
import BytePattern.Token

set_option autoImplicit false

/-!
# Automata: assembly from tokens

An arena of states grows while a token is assembled.  Each token adds a block of
states at the end and yields a fragment, the entry and the exit of its block;
what joins blocks are epsilon edges alone.  A block is never changed by what is
assembled after it, save that edges are added at its exit, and at the entry of
a copy of a repeated token.

A repetition is unrolled: one copy of its body for each admitted number of
copies, at least one, and for an open bound as many as the least number asks
for.  Copies past the least number may be skipped to the exit, and an open bound
loops from the exit back into the last copy.
-/

namespace BytePattern

/-- The entry and the exit of a block of states. -/
structure Fragment where
  entry : Nat
  exit : Nat
  deriving DecidableEq, Repr

namespace Arena

/-- One more epsilon edge. -/
def join (arena : Arena) (source target : Nat) : Arena := arena.link source .epsilon target

/-- Two more states. -/
def addPair (arena : Arena) : Arena := (arena.push .blank).push .blank

/-- The fragment between the two states that `addPair` adds. -/
def pair (arena : Arena) : Fragment := ⟨arena.size, arena.size + 1⟩

/-- A fragment that reads any one of the symbols. -/
def readAny (arena : Arena) (symbols : List Symbol) : Fragment × Arena :=
  (arena.pair, symbols.foldl (fun a symbol => a.link arena.pair.entry symbol arena.pair.exit)
    arena.addPair)

/-- A fragment that reads nothing. -/
def readNothing (arena : Arena) : Fragment × Arena := arena.readAny [.epsilon]

/-- A fragment that enters either of two and leaves with it. -/
def fork (arena : Arena) (left right : Fragment) : Fragment × Arena :=
  let whole := arena.pair
  (whole, (((arena.addPair.join whole.entry left.entry).join whole.entry right.entry).join
    left.exit whole.exit).join right.exit whole.exit)

/-- Adds `count` copies after the copy `last`, of which the next is the copy
number `index`, and yields the last one.  From each copy past the number `min`
the search may go to `exit` at once. -/
def chain (make : Arena → Fragment × Arena) (min exit : Nat) :
    (count index : Nat) → (last : Fragment) → Arena → Fragment × Arena
  | 0, _, last, arena => (last, arena)
  | count + 1, index, last, arena =>
    let (copy, arena) := make arena
    let arena := arena.join last.exit copy.entry
    let arena := if min < index then arena.join copy.entry exit else arena
    chain make min exit count (index + 1) copy arena

/-- A fragment of the copies that a repetition admits. -/
def unroll (make : Arena → Fragment × Arena) (min : Nat) (max : UpperBound) (arena : Arena) :
    Fragment × Arena :=
  let whole := arena.pair
  let arena := arena.addPair
  let arena := if min = 0 then arena.join whole.entry whole.exit else arena
  let copies := match max with
    | .bounded count => count
    | .unbounded => Nat.max min 1
  let (first, arena) := make arena
  let arena := arena.join whole.entry first.entry
  let (last, arena) := chain make min whole.exit (copies - 1) 2 first arena
  let arena := arena.join last.exit whole.exit
  match max with
  | .bounded _ => (whole, arena)
  | .unbounded => (whole, arena.join whole.exit last.entry)

/-- The pair of states for two blocks, with the edges that lead into them. -/
def openFork (arena : Arena) (f g : Fragment) : Arena :=
  (arena.addPair.join arena.size f.entry).join arena.size g.entry

theorem fork_eq (arena : Arena) (f g : Fragment) :
    arena.fork f g = (⟨arena.size, arena.size + 1⟩,
      ((openFork arena f g).join f.exit (arena.size + 1)).join g.exit (arena.size + 1)) := rfl

theorem chain_succ (make : Arena → Fragment × Arena) (min exit count index : Nat)
    (last : Fragment) (arena : Arena) :
    chain make min exit (count + 1) index last arena =
      chain make min exit count (index + 1) (make arena).1
        (if min < index then
          ((make arena).2.join last.exit (make arena).1.entry).join (make arena).1.entry exit
        else (make arena).2.join last.exit (make arena).1.entry) := rfl

/-- The pair of states for a repetition, with the edge that skips it when no copy
is asked for. -/
def openPair (min : Nat) (base : Arena) : Arena :=
  if min = 0 then base.addPair.join base.size (base.size + 1) else base.addPair

/-- The last of so many copies, at least one, after the pair of states has been
added. -/
def copies (make : Arena → Fragment × Arena) (min count : Nat) (base : Arena) : Fragment × Arena :=
  let first := make (openPair min base)
  chain make min base.pair.exit (count - 1) 2 first.1 (first.2.join base.pair.entry first.1.entry)

theorem unroll_bounded (make : Arena → Fragment × Arena) (min count : Nat) (base : Arena) :
    unroll make min (.bounded count) base =
      (base.pair, (copies make min count base).2.join (copies make min count base).1.exit
        base.pair.exit) := rfl

theorem unroll_unbounded (make : Arena → Fragment × Arena) (min : Nat) (base : Arena) :
    unroll make min .unbounded base =
      (base.pair, ((copies make min (Nat.max min 1) base).2.join
        (copies make min (Nat.max min 1) base).1.exit base.pair.exit).join base.pair.exit
          (copies make min (Nat.max min 1) base).1.entry) := rfl

end Arena

mutual

/-- The fragment of a token, after its block has been added to the arena. -/
def Token.assemble : Token → Arena → Fragment × Arena
  | .literal byte, arena => arena.readAny [.byte byte]
  | .bracket set, arena => arena.readAny (set.members.map .byte)
  | .either left right, arena =>
    let (l, arena) := left.assemble arena
    let (r, arena) := right.assemble arena
    arena.fork l r
  | .repeated min max body, arena => Arena.unroll (fun a => body.assemble a) min max arena
  | .group tokens, arena => Token.assembleAll tokens arena
  | .sequence tokens, arena => Token.assembleAll tokens arena

/-- The fragment of tokens one after the other. -/
def Token.assembleAll : List Token → Arena → Fragment × Arena
  | [], arena => arena.readNothing
  | token :: tokens, arena =>
    let (first, arena) := token.assemble arena
    Token.assembleAfter tokens first arena

/-- The fragment of tokens that follow a fragment, together with it. -/
def Token.assembleAfter : List Token → Fragment → Arena → Fragment × Arena
  | [], before, arena => (before, arena)
  | token :: tokens, before, arena =>
    let (next, arena) := token.assemble arena
    Token.assembleAfter tokens ⟨before.entry, next.exit⟩ (arena.join before.exit next.entry)

end

namespace Automaton

/-- The automaton of a fragment: a start state that leads into it and an end
state that it leads to. -/
def close (root : Fragment) (arena : Arena) : Automaton :=
  let whole := arena.pair
  let arena : Arena := (arena.push { State.blank with isStart := true }).push
    { State.blank with isEnd := true }
  ⟨(arena.join whole.entry root.entry).join root.exit whole.exit, whole.entry, whole.exit⟩

/-- The automaton of a token list. -/
def ofTokens (tokens : List Token) : Automaton :=
  let (root, arena) := Token.assembleAll tokens #[]
  close root arena

end Automaton

end BytePattern
