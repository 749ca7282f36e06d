import BytePattern.Proofs.Search.Agreement
import Mathlib.Data.List.Basic

set_option autoImplicit false

/-!
# Depth-first search: other names for the nodes

Where the nodes of one graph are those of another under other names, children in
the same order and goals at the same nodes, the searches of the two go in step:
each passes over, enters and leaves a node when the other does so with the node of
the other name.  The graphs need only agree on nodes that can be come to.
-/

namespace BytePattern.DepthFirst

variable {α β : Type}

/-- The second graph is the first under other names, as far as the property holds,
and it holds of the children of a node of which it holds. -/
structure Renames (name : α → β) (holds : α → Prop) (p : Problem α) (q : Problem β) : Prop where
  injective : Function.Injective name
  closed : ∀ x, holds x → ∀ y ∈ p.next x, holds y
  next_eq : ∀ x, holds x → q.next (name x) = (p.next x).map name
  goal_eq : ∀ x, holds x → q.goal (name x) = p.goal x
  keep_eq : q.keep = p.keep

/-- The visit with what it has seen under other names. -/
def Visit.rename (name : α → β) (v : Visit α) : Visit β := ⟨v.outcome, v.seen.map name⟩

variable {name : α → β} {holds : α → Prop} {p : Problem α} {q : Problem β}

section Visits

variable [DecidableEq α] [DecidableEq β]

/-- Children are visited alike under other names, if each of them is. -/
theorem visitAll_rename (hinjective : Function.Injective name)
    {visitChild : List α → α → Option (Visit α)} {visitOther : List β → β → Option (Visit β)}
    (check keep : Bool)
    (hchild : ∀ (seen : List α) (y : α), holds y →
      visitOther (seen.map name) (name y) = (visitChild seen y).map (Visit.rename name)) :
    ∀ (rest seen : List α), (∀ y ∈ rest, holds y) →
      visitAll visitOther check keep (seen.map name) (rest.map name) =
        (visitAll visitChild check keep seen rest).map (Visit.rename name) := by
  intro rest
  induction rest with
  | nil =>
    intro seen _
    rfl
  | cons y rest ih =>
    intro seen hrest
    obtain ⟨hy, hrest⟩ := List.forall_mem_cons.1 hrest
    have hmem : name y ∈ seen.map name ↔ y ∈ seen := List.mem_map_of_injective hinjective
    rw [List.map_cons, visitAll, visitAll]
    -- a child is passed over under the one name exactly when it is under the other
    simp only [hmem]
    by_cases hseen : check = true ∧ y ∈ seen
    · rw [if_pos hseen, if_pos hseen]
      exact ih seen hrest
    · rw [if_neg hseen, if_neg hseen, hchild seen y hy]
      cases visitChild seen y with
      | none => rfl
      | some first =>
        have hkept : (if keep = true then first.seen.map name else seen.map name) =
            (if keep = true then first.seen else seen).map name := by
          split <;> rfl
        have hothers := ih (if keep = true then first.seen else seen) hrest
        simp only [Option.map_some, Visit.rename]
        rw [hkept, hothers]
        cases first.outcome.found with
        | true => rfl
        | false =>
          cases visitAll visitChild check keep (if keep = true then first.seen else seen) rest with
          | none => rfl
          | some others => rfl

/-- A node is visited alike under its other name. -/
theorem Renames.visit_eq (h : Renames name holds p q) (check : Bool) :
    ∀ (depth : Nat) (seen : List α) (x : α), holds x →
      visit q check depth (seen.map name) (name x) =
        (visit p check depth seen x).map (Visit.rename name) := by
  intro depth
  induction depth with
  | zero =>
    intro seen x _
    rfl
  | succ depth ih =>
    intro seen x hx
    rw [visit, visit, h.goal_eq x hx, h.next_eq x hx, h.keep_eq]
    cases p.goal x with
    | true => rfl
    | false =>
      have hall :=
        visitAll_rename h.injective check p.keep ih (p.next x) (x :: seen) (h.closed x hx)
      rw [List.map_cons] at hall
      rw [hall]
      cases visitAll (visit p check depth) check p.keep (x :: seen) (p.next x) with
      | none => rfl
      | some v => rfl

end Visits

/-- The searches from an origin and from its other name end alike, and enter equally
many nodes. -/
theorem Renames.search_eq [DecidableEq α] [Hashable α] [DecidableEq β] [Hashable β]
    (h : Renames name holds p q) {origin : α} (horigin : holds origin)
    (hp : p.Bounded origin) (hq : q.Bounded (name origin)) :
    q.search (name origin) hq = p.search origin hp := by
  obtain ⟨depth, hdepth⟩ := hp.exists_visit
  obtain ⟨v, hv⟩ := hdepth depth (Nat.le_refl depth)
  have hrenamed := h.visit_eq true depth [] origin horigin
  rw [hv] at hrenamed
  exact (search_eq_of_visit hq hrenamed).trans (search_eq_of_visit hp hv).symm

end BytePattern.DepthFirst
