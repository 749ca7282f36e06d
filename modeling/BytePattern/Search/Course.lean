import BytePattern.Search.DepthFirst
import Mathlib.Data.List.Chain

set_option autoImplicit false

/-!
# Depth-first search: other accounts of it

The same search said as a recursion: a node that is no goal is entered, and its children are
visited in order until one of them leads to a goal.  A child that has been seen is passed
over; seen are the ancestors and the node itself, or, when the search keeps what it has seen,
everything entered so far.  Without the check for seen nodes the recursion need not end, and
so it is given a depth, and returns nothing where the depth does not suffice.

What the cost of a search is measured by.  A simple path goes from node to child and comes to
no node twice.  A trace is a search under way together with the nodes it has entered on the
way there, with one rule for each thing that a step of the search can do; the search itself
only counts these nodes.  Where the moment matters at which a search is looked at, its
iterations are numbered.
-/

namespace BytePattern.DepthFirst

/-! ## The recursion -/

section

variable {α : Type} [DecidableEq α]

/-- How a visit ended, and what is seen after it. -/
structure Visit (α : Type) where
  outcome : Outcome
  seen : List α
  deriving DecidableEq, Repr

/-- Visits children in order, as `visitChild` does, until one leads to a goal. -/
def visitAll (visitChild : List α → α → Option (Visit α)) (check keep : Bool) :
    List α → List α → Option (Visit α)
  | seen, [] => some ⟨⟨false, 0⟩, seen⟩
  | seen, y :: rest =>
    if check ∧ y ∈ seen then visitAll visitChild check keep seen rest
    else match visitChild seen y with
      | none => none
      | some first =>
        if first.outcome.found then some first
        else match visitAll visitChild check keep (if keep then first.seen else seen) rest with
          | none => none
          | some others =>
            some ⟨⟨others.outcome.found, first.outcome.entered + others.outcome.entered⟩,
              others.seen⟩

/-- Visits a node, to a depth at most. -/
def visit (p : Problem α) (check : Bool) : Nat → List α → α → Option (Visit α)
  | 0, _, _ => none
  | depth + 1, seen, x =>
    if p.goal x then some ⟨⟨true, 0⟩, seen⟩
    else match visitAll (visit p check depth) check p.keep (x :: seen) (p.next x) with
      | none => none
      | some v => some ⟨⟨v.outcome.found, v.outcome.entered + 1⟩, v.seen⟩

end

/-! ## Paths and traces -/

/-- The path starts at the origin, goes from node to child, and comes to no node
twice. -/
structure SimplePath {α : Type} (next : α → List α) (origin : α) (path : List α) : Prop where
  head : path.head? = some origin
  chain : path.IsChain fun x y => y ∈ next x
  nodup : path.Nodup

/-- A search from the origin has come to `s`, and has entered these nodes, the
latest first. -/
inductive Trace {α : Type} [DecidableEq α] [Hashable α] (p : Problem α) (origin : α) :
    List α → Progress α → Prop where
  /-- the origin is entered -/
  | start : p.goal origin = false → Trace p origin [origin] (Progress.idle.enter p origin)
  /-- a child that is seen is passed over -/
  | pass {nodes rest : List α} {x y : α} {stack : List (Frame α)} {seen : Std.HashSet α}
      {entered : Nat} :
      Trace p origin nodes ⟨⟨x, y :: rest⟩ :: stack, seen, entered⟩ → y ∈ seen →
      Trace p origin nodes ⟨⟨x, rest⟩ :: stack, seen, entered⟩
  /-- a child that is neither seen nor a goal is entered -/
  | enter {nodes rest : List α} {x y : α} {stack : List (Frame α)} {seen : Std.HashSet α}
      {entered : Nat} :
      Trace p origin nodes ⟨⟨x, y :: rest⟩ :: stack, seen, entered⟩ → y ∉ seen →
      p.goal y = false →
      Trace p origin (y :: nodes)
        (Progress.enter p y ⟨⟨x, rest⟩ :: stack, seen, entered⟩)
  /-- a node without children to try is left -/
  | leave {nodes : List α} {x : α} {stack : List (Frame α)} {seen : Std.HashSet α}
      {entered : Nat} :
      Trace p origin nodes ⟨⟨x, []⟩ :: stack, seen, entered⟩ →
      Trace p origin nodes ⟨stack, if p.keep then seen else seen.erase x, entered⟩

/-- The whole search from the origin enters these nodes, the latest first. -/
inductive Entries {α : Type} [DecidableEq α] [Hashable α] (p : Problem α) (origin : α)
    (h : p.Bounded origin) : List α → Prop where
  /-- an origin that is a goal is not entered -/
  | goal : p.goal origin = true → Entries p origin h []
  /-- the last step ends the search -/
  | trace {nodes : List α} {s : Progress α} :
      Trace p origin nodes s → s.step p = .inr (p.search origin h) → Entries p origin h nodes

/-! ## Iterations -/

section

variable {α : Type} [DecidableEq α] [Hashable α]

/-- The search under way so many steps later, unless it has ended before. -/
def Progress.after (p : Problem α) : Nat → Progress α → Option (Progress α)
  | 0, s => some s
  | n + 1, s =>
    match s.step p with
    | .inl t => t.after p n
    | .inr _ => none

/-- The search from an origin as it is found at the beginning of an iteration, the
first of which has number zero, if there is one with that number.  An origin that is
a goal is not searched from. -/
def Problem.iteration (p : Problem α) (origin : α) (n : Nat) : Option (Progress α) :=
  if p.goal origin then none else (Progress.idle.enter p origin).after p n

end

end BytePattern.DepthFirst
