import Std.Data.HashSet

set_option autoImplicit false

/-!
# Depth-first search

A search goes from node to node of a graph, children in order, until it meets a
goal, and counts the nodes that it enters.  A goal is met before it is entered.
A child that has been seen is passed over: seen are the nodes on the path from
the origin, or, when the search keeps what it has seen, all nodes that it ever
entered.

The path is kept as a stack of frames, each with the children that are still to
be tried, and one `step` looks at the next child of the last frame, or leaves
that frame.  The search ends on every graph of which only finitely many nodes
can be reached from the origin: a frame is entered only for a node that is not
on the path, so the steps that a frame can still cause are bounded by its
children and by the nodes that are not on the path, and each step lowers the sum
of these bounds over the stack.
-/

namespace BytePattern.DepthFirst

/-- A graph to search: the children of a node in order, the nodes that end the
search, and whether nodes that were left stay seen. -/
structure Problem (α : Type) where
  next : α → List α
  goal : α → Bool
  keep : Bool

/-- A node on the path, and its children that are still to be tried. -/
structure Frame (α : Type) where
  node : α
  rest : List α
  deriving DecidableEq, Repr

/-- How a search ended: whether at a goal, and how many nodes it had entered. -/
structure Outcome where
  found : Bool
  entered : Nat
  deriving DecidableEq, Repr, Inhabited

/-- A search under way: the path, last node first, the nodes that are seen, and
how many nodes have been entered. -/
structure Progress (α : Type) [DecidableEq α] [Hashable α] where
  stack : List (Frame α)
  seen : Std.HashSet α
  entered : Nat

variable {α : Type} [DecidableEq α] [Hashable α]

namespace Progress

/-- Before any node is entered. -/
def idle : Progress α := ⟨[], ∅, 0⟩

/-- One more node at the end of the path. -/
def enter (p : Problem α) (x : α) : Progress α → Progress α
  | ⟨stack, seen, entered⟩ => ⟨⟨x, p.next x⟩ :: stack, seen.insert x, entered + 1⟩

/-- Looks at one child, or leaves a node without children to try. -/
def step (p : Problem α) : Progress α → Progress α ⊕ Outcome
  | ⟨[], _, entered⟩ => .inr ⟨false, entered⟩
  | ⟨⟨x, []⟩ :: stack, seen, entered⟩ =>
    .inl ⟨stack, if p.keep then seen else seen.erase x, entered⟩
  | ⟨⟨x, y :: rest⟩ :: stack, seen, entered⟩ =>
    if seen.contains y then .inl ⟨⟨x, rest⟩ :: stack, seen, entered⟩
    else if p.goal y then .inr ⟨true, entered⟩
    else .inl (enter p y ⟨⟨x, rest⟩ :: stack, seen, entered⟩)

/-- The second comes one step after the first. -/
def Before (p : Problem α) (t s : Progress α) : Prop := s.step p = .inl t

/-- Steps on until the search has ended. -/
def run (p : Problem α) (s : Progress α) (h : Acc (Before p) s) : Outcome :=
  match hs : s.step p with
  | .inr outcome => outcome
  | .inl t => run p t (h.inv hs)
termination_by (⟨s, h⟩ : { s // Acc (Before p) s })
decreasing_by exact hs

end Progress

/-! ## Why a search ends

Throughout, `domain` lists nodes that include the origin and, with a node, its
children. -/

/-- Finitely many nodes can be reached from the origin. -/
def Problem.Bounded (p : Problem α) (origin : α) : Prop :=
  ∃ domain : List α, origin ∈ domain ∧ ∀ x ∈ domain, ∀ y ∈ p.next x, y ∈ domain

/-- How many nodes of the domain are not among the given ones. -/
def fresh (domain nodes : List α) : Nat := (domain.filter fun x => x ∉ nodes).length

/-- The nodes of a path, last one first. -/
def path (stack : List (Frame α)) : List α := stack.map Frame.node

/-- A bound on the steps that a frame can still cause, when it has `rest`
children to try, `free` nodes are not on the path, and no node has more than
`width` children. -/
def allowance (width : Nat) : (free rest : Nat) → Nat
  | 0, rest => rest + 1
  | free + 1, rest => rest * (allowance width free width + 1) + 1

/-- The sum of the allowances of the frames of a path. -/
def budget (domain : List α) (width : Nat) : List (Frame α) → Nat
  | [] => 0
  | f :: stack =>
    allowance width (fresh domain (path (f :: stack))) f.rest.length + budget domain width stack

theorem allowance_pos (width free rest : Nat) : 0 < allowance width free rest := by
  cases free <;> simp [allowance]

theorem allowance_le_of_rest_le (width free : Nat) {m n : Nat} (h : m ≤ n) :
    allowance width free m ≤ allowance width free n := by
  cases free with
  | zero => exact Nat.succ_le_succ h
  | succ free => exact Nat.succ_le_succ (Nat.mul_le_mul_right _ h)

theorem allowance_lt_of_rest (width free rest : Nat) :
    allowance width free rest < allowance width free (rest + 1) := by
  cases free with
  | zero => exact Nat.lt_succ_self _
  | succ free =>
    rw [allowance, allowance, Nat.succ_mul]
    omega

theorem allowance_le_of_free_le (width rest : Nat) {m n : Nat} (h : m ≤ n) :
    allowance width m rest ≤ allowance width n rest := by
  induction n generalizing m rest with
  | zero =>
    obtain rfl := Nat.le_zero.1 h
    exact Nat.le_refl _
  | succ n ih =>
    cases m with
    | zero =>
      simp only [allowance, Nat.mul_add, Nat.mul_one]
      omega
    | succ m =>
      simp only [allowance]
      exact Nat.succ_le_succ
        (Nat.mul_le_mul_left _ (Nat.succ_le_succ (ih _ (Nat.le_of_succ_le_succ h))))

/-- A child that is tried and entered costs less than it frees. -/
theorem allowance_enter {width free free' rest rest' : Nat} (hfree : free' < free)
    (hrest : rest' ≤ width) :
    allowance width free' rest' + allowance width free rest <
      allowance width free (rest + 1) := by
  cases free with
  | zero => omega
  | succ free =>
    have h1 : allowance width free' rest' ≤ allowance width free width :=
      Nat.le_trans (allowance_le_of_rest_le width free' hrest)
        (allowance_le_of_free_le width width (Nat.le_of_lt_succ hfree))
    simp only [allowance, Nat.succ_mul]
    omega

omit [Hashable α] in
theorem fresh_cons_lt {domain nodes : List α} {x : α} (hmem : x ∈ domain) (hnew : x ∉ nodes) :
    fresh domain (x :: nodes) < fresh domain nodes := by
  have hsub : domain.filter (fun y => y ∉ x :: nodes) =
      (domain.filter fun y => y ∉ nodes).filter fun y => y ≠ x := by
    rw [List.filter_filter]
    refine List.filter_congr fun y _ => ?_
    simp [not_or]
  rw [fresh, fresh, hsub]
  refine List.length_filter_lt_length_iff_exists.2 ⟨x, ?_, by simp⟩
  simpa using ⟨hmem, hnew⟩

namespace Progress

/-- What holds at every step of a search in a domain: the nodes on the path are
seen and distinct, and what is still to be tried lies in the domain. -/
structure Sound (domain : List α) (s : Progress α) : Prop where
  seen : ∀ f ∈ s.stack, f.node ∈ s.seen
  distinct : (path s.stack).Nodup
  inside : ∀ f ∈ s.stack, ∀ y ∈ f.rest, y ∈ domain

theorem Sound.idle (domain : List α) : (idle : Progress α).Sound domain :=
  ⟨by simp [Progress.idle], by simp [Progress.idle, path], by simp [Progress.idle]⟩

theorem Sound.enter {p : Problem α} {domain : List α} {s : Progress α} {x : α}
    (h : s.Sound domain) (hnew : x ∉ s.seen) (hnext : ∀ y ∈ p.next x, y ∈ domain) :
    (s.enter p x).Sound domain := by
  obtain ⟨stack, seen, entered⟩ := s
  refine ⟨?_, ?_, ?_⟩
  · intro f hf
    rcases List.mem_cons.1 hf with rfl | hf
    · exact Std.HashSet.mem_insert_self
    · exact Std.HashSet.mem_insert.2 (Or.inr (h.seen f hf))
  · refine List.nodup_cons.2 ⟨?_, h.distinct⟩
    intro hx
    obtain ⟨f, hf, rfl⟩ := List.mem_map.1 hx
    exact hnew (h.seen f hf)
  · intro f hf
    rcases List.mem_cons.1 hf with rfl | hf
    · exact hnext
    · exact h.inside f hf

/-- The path without the child of its last node that has been looked at. -/
theorem Sound.drop {domain : List α} {x y : α} {rest : List α} {stack : List (Frame α)}
    {seen : Std.HashSet α} {entered : Nat}
    (h : Sound domain ⟨⟨x, y :: rest⟩ :: stack, seen, entered⟩) :
    Sound domain ⟨⟨x, rest⟩ :: stack, seen, entered⟩ := by
  refine ⟨?_, h.distinct, ?_⟩
  · intro f hf
    rcases List.mem_cons.1 hf with rfl | hf
    · exact h.seen ⟨x, y :: rest⟩ List.mem_cons_self
    · exact h.seen f (List.mem_cons_of_mem _ hf)
  · intro f hf z hz
    rcases List.mem_cons.1 hf with rfl | hf
    · exact h.inside ⟨x, y :: rest⟩ List.mem_cons_self z (List.mem_cons_of_mem _ hz)
    · exact h.inside f (List.mem_cons_of_mem _ hf) z hz

/-- The path without its last node. -/
theorem Sound.leave {domain : List α} {f : Frame α} {stack : List (Frame α)}
    {seen : Std.HashSet α} {entered : Nat} (keep : Bool)
    (h : Sound domain ⟨f :: stack, seen, entered⟩) :
    Sound domain ⟨stack, if keep then seen else seen.erase f.node, entered⟩ := by
  have hd := List.nodup_cons.1 h.distinct
  refine ⟨?_, hd.2, fun g hg => h.inside g (List.mem_cons_of_mem _ hg)⟩
  intro g hg
  have hseen : g.node ∈ seen := h.seen g (List.mem_cons_of_mem _ hg)
  cases keep with
  | true => exact hseen
  | false =>
    refine Std.HashSet.mem_erase.2 ⟨?_, hseen⟩
    have hne : f.node ≠ g.node := fun he => hd.1 (he ▸ List.mem_map_of_mem hg)
    simpa using hne

/-- A step keeps a search sound and lowers its budget. -/
theorem Sound.step {p : Problem α} {domain : List α} {width : Nat} {s t : Progress α}
    (hclosed : ∀ x ∈ domain, ∀ y ∈ p.next x, y ∈ domain)
    (hwidth : ∀ x ∈ domain, (p.next x).length ≤ width)
    (h : s.Sound domain) (hst : Before p t s) :
    t.Sound domain ∧ budget domain width t.stack < budget domain width s.stack := by
  obtain ⟨stack, seen, entered⟩ := s
  match stack, h, hst with
  | [], _, hst => exact nomatch hst
  | ⟨x, []⟩ :: stack, h, hst =>
    obtain rfl := Sum.inl.inj hst
    refine ⟨h.leave p.keep, ?_⟩
    simpa [budget] using allowance_pos width _ 0
  | ⟨x, y :: rest⟩ :: stack, h, hst =>
    have hy : y ∈ domain := h.inside ⟨x, y :: rest⟩ List.mem_cons_self y List.mem_cons_self
    rw [Before, Progress.step] at hst
    split at hst
    · obtain rfl := Sum.inl.inj hst
      refine ⟨h.drop, ?_⟩
      simpa [budget, path] using allowance_lt_of_rest width _ rest.length
    · rename_i hnew
      split at hst
      · exact nomatch hst
      · obtain rfl := Sum.inl.inj hst
        have hd := h.drop
        have hnew' : y ∉ seen := fun hm => hnew (Std.HashSet.contains_iff_mem.2 hm)
        refine ⟨hd.enter hnew' (hclosed y hy), ?_⟩
        have hpath : y ∉ path (⟨x, rest⟩ :: stack) := by
          intro hm
          obtain ⟨f, hf, rfl⟩ := List.mem_map.1 hm
          exact hnew' (hd.seen f hf)
        have hcost : allowance width (fresh domain (y :: x :: path stack)) (p.next y).length +
              allowance width (fresh domain (x :: path stack)) rest.length <
            allowance width (fresh domain (x :: path stack)) (rest.length + 1) :=
          allowance_enter (fresh_cons_lt hy hpath) (hwidth y hy)
        simp only [budget, Progress.enter, List.length_cons, path, List.map_cons] at hcost ⊢
        omega

/-- A sound search ends. -/
theorem Sound.acc {p : Problem α} {domain : List α} {width : Nat}
    (hclosed : ∀ x ∈ domain, ∀ y ∈ p.next x, y ∈ domain)
    (hwidth : ∀ x ∈ domain, (p.next x).length ≤ width)
    {s : Progress α} (h : s.Sound domain) : Acc (Before p) s := by
  generalize hn : budget domain width s.stack = n
  induction n using Nat.strongRecOn generalizing s with
  | ind n ih =>
    refine Acc.intro s fun t hts => ?_
    have hstep := h.step hclosed hwidth hts
    exact ih _ (hn ▸ hstep.2) hstep.1 rfl

end Progress

omit [DecidableEq α] [Hashable α] in
/-- The lengths of the child lists of a domain are bounded. -/
theorem exists_width (next : α → List α) (domain : List α) :
    ∃ width, ∀ x ∈ domain, (next x).length ≤ width := by
  induction domain with
  | nil => exact ⟨0, by simp⟩
  | cons x domain ih =>
    obtain ⟨width, hwidth⟩ := ih
    refine ⟨max (next x).length width, fun y hy => ?_⟩
    rcases List.mem_cons.1 hy with rfl | hy
    · exact Nat.le_max_left _ _
    · exact Nat.le_trans (hwidth y hy) (Nat.le_max_right _ _)

/-- A search that has just entered the origin of a bounded problem ends. -/
theorem Problem.Bounded.acc {p : Problem α} {origin : α} (h : p.Bounded origin) :
    Acc (Progress.Before p) (Progress.idle.enter p origin) := by
  obtain ⟨domain, horigin, hclosed⟩ := h
  obtain ⟨width, hwidth⟩ := exists_width p.next domain
  exact ((Progress.Sound.idle domain).enter (by simp [Progress.idle])
    (hclosed origin horigin)).acc hclosed hwidth

/-- The search from an origin. -/
def Problem.search (p : Problem α) (origin : α) (h : p.Bounded origin) : Outcome :=
  if p.goal origin then ⟨true, 0⟩ else (Progress.idle.enter p origin).run p h.acc

end BytePattern.DepthFirst
