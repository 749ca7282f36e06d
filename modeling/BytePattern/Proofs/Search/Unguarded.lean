import BytePattern.Proofs.Search.Agreement

set_option autoImplicit false

/-!
# Depth-first search: the recursion without the check

The recursion that does not look at what has been seen may go round in a cycle for
ever.  Where it does end, it ends as the recursion that passes over ancestors, and
enters as many nodes: the least depth that suffices for a node is greater than the
one that suffices for any child it visits, so it never comes to an ancestor and the
check would have passed over nothing.
-/

namespace BytePattern.DepthFirst

variable {α : Type} [DecidableEq α]

/-! ## Greater depths -/

theorem visitAll_of_le {visitChild deeper : List α → α → Option (Visit α)} {check keep : Bool}
    (hchild : ∀ (seen : List α) (y : α) (v : Visit α), visitChild seen y = some v →
      deeper seen y = some v) :
    ∀ (rest seen : List α) (u : Visit α), visitAll visitChild check keep seen rest = some u →
      visitAll deeper check keep seen rest = some u := by
  intro rest
  induction rest with
  | nil => exact fun seen u hu => hu
  | cons y rest ih =>
    intro seen u hu
    rw [visitAll] at hu ⊢
    split at hu
    · rename_i hy
      rw [if_pos hy]
      exact ih seen u hu
    · rename_i hy
      rw [if_neg hy]
      split at hu
      · cases hu
      · rename_i first hfirst
        rw [hchild seen y first hfirst]
        split at hu
        · rename_i hfound
          simp only [hfound, if_true]
          exact hu
        · rename_i hfound
          split at hu
          · cases hu
          · rename_i others hothers
            simp only [hfound, Bool.false_eq_true, if_false, ih _ others hothers]
            exact hu

/-- A depth that suffices may be exceeded. -/
theorem visit_succ {p : Problem α} {check : Bool} :
    ∀ (depth : Nat) (seen : List α) (x : α) (v : Visit α), visit p check depth seen x = some v →
      visit p check (depth + 1) seen x = some v := by
  intro depth
  induction depth with
  | zero =>
    intro seen x v hv
    cases hv
  | succ depth ih =>
    intro seen x v hv
    rw [visit] at hv ⊢
    split at hv
    · rename_i hgoal
      rw [if_pos hgoal]
      exact hv
    · rename_i hgoal
      rw [if_neg hgoal]
      split at hv
      · cases hv
      · rename_i u hu
        rw [visitAll_of_le ih (p.next x) (x :: seen) u hu]
        exact hv

/-! ## Without the check -/

/-- Children visited without the check are visited alike with it, or from other
seen nodes, if each of them is and none would be passed over. -/
theorem exists_visitAll_of_unguarded {visitChild other : List α → α → Option (Visit α)}
    {check : Bool} {nodes : List α}
    (hchild : ∀ (seen : List α) (y : α) (v : Visit α), visitChild seen y = some v →
      ¬ (check = true ∧ y ∈ nodes) ∧ ∃ v', other nodes y = some v' ∧ v'.outcome = v.outcome) :
    ∀ (rest seen : List α) (u : Visit α), visitAll visitChild false false seen rest = some u →
      ∃ u', visitAll other check false nodes rest = some u' ∧ u'.outcome = u.outcome := by
  intro rest
  induction rest with
  | nil =>
    intro seen u hu
    rw [visitAll] at hu
    obtain rfl := Option.some.inj hu
    exact ⟨_, rfl, rfl⟩
  | cons y rest ih =>
    intro seen u hu
    rw [visitAll, if_neg (fun hc => Bool.false_ne_true hc.1)] at hu
    split at hu
    · cases hu
    · rename_i first hfirst
      obtain ⟨hy, first', hfirst', houtcome⟩ := hchild seen y first hfirst
      rw [visitAll, if_neg hy, hfirst']
      simp only [houtcome]
      split at hu
      · rename_i hfound
        obtain rfl := Option.some.inj hu
        exact ⟨first', by rw [if_pos hfound], houtcome⟩
      · rename_i hfound
        split at hu
        · cases hu
        · rename_i others hothers
          obtain rfl := Option.some.inj hu
          obtain ⟨others', hothers', houtcome'⟩ := ih _ others hothers
          rw [if_neg hfound, if_neg Bool.false_ne_true, hothers', ← houtcome']
          exact ⟨_, rfl, rfl⟩

variable {next : α → List α} {goal : α → Bool}

/-- A node visited without the check is visited alike with it, or from other seen
nodes, if its children are and none would be passed over. -/
theorem exists_visit_succ_of_unguarded {check : Bool} {depth : Nat} {seen nodes : List α} {x : α}
    {v : Visit α}
    (hchild : ∀ (seen' : List α) (y : α) (w : Visit α),
      visit ⟨next, goal, false⟩ false depth seen' y = some w →
      ¬ (check = true ∧ y ∈ x :: nodes) ∧
        ∃ w', visit ⟨next, goal, false⟩ check depth (x :: nodes) y = some w' ∧
          w'.outcome = w.outcome)
    (hv : visit ⟨next, goal, false⟩ false (depth + 1) seen x = some v) :
    ∃ v', visit ⟨next, goal, false⟩ check (depth + 1) nodes x = some v' ∧
      v'.outcome = v.outcome := by
  rw [visit] at hv ⊢
  split at hv
  · rename_i hgoal
    obtain rfl := Option.some.inj hv
    exact ⟨_, if_pos hgoal, rfl⟩
  · rename_i hgoal
    split at hv
    · cases hv
    · rename_i u hu
      obtain rfl := Option.some.inj hv
      obtain ⟨u', hu', houtcome⟩ := exists_visitAll_of_unguarded hchild (next x) (x :: seen) u hu
      rw [if_neg hgoal, hu', ← houtcome]
      exact ⟨_, rfl, rfl⟩

/-- Without the check it makes no difference what has been seen. -/
theorem exists_visit_of_unguarded :
    ∀ (depth : Nat) (seen other : List α) (x : α) (v : Visit α),
      visit ⟨next, goal, false⟩ false depth seen x = some v →
      ∃ v', visit ⟨next, goal, false⟩ false depth other x = some v' ∧ v'.outcome = v.outcome := by
  intro depth
  induction depth with
  | zero =>
    intro seen other x v hv
    cases hv
  | succ depth ih =>
    intro seen other x v hv
    have hchild : ∀ seen' y w, visit ⟨next, goal, false⟩ false depth seen' y = some w →
        ¬ (false = true ∧ y ∈ x :: other) ∧
          ∃ w', visit ⟨next, goal, false⟩ false depth (x :: other) y = some w' ∧
            w'.outcome = w.outcome :=
      fun seen' y w hw => ⟨fun hc => Bool.false_ne_true hc.1, ih seen' _ y w hw⟩
    exact exists_visit_succ_of_unguarded hchild hv

/-- A visit without the check is matched by one with it, where the depth suffices
for none of the nodes that the check would pass over. -/
theorem exists_guarded_visit :
    ∀ (depth : Nat) (seen nodes : List α) (x : α) (v : Visit α),
      (∀ a ∈ nodes, ∀ other, visit ⟨next, goal, false⟩ false depth other a = none) →
      visit ⟨next, goal, false⟩ false depth seen x = some v →
      ∃ v', visit ⟨next, goal, false⟩ true depth nodes x = some v' ∧ v'.outcome = v.outcome := by
  intro depth
  induction depth with
  | zero =>
    intro seen nodes x v _ hv
    cases hv
  | succ depth ih =>
    intro seen nodes x v hnodes hv
    have hnodes' : ∀ a ∈ nodes, ∀ other,
        visit ⟨next, goal, false⟩ false depth other a = none := by
      intro a ha other
      refine Option.eq_none_iff_forall_ne_some.2 fun w hw => ?_
      have hmore := visit_succ depth other a w hw
      rw [hnodes a ha other] at hmore
      cases hmore
    -- the depth may be more than the node needs, and then less does as well
    cases hless : visit ⟨next, goal, false⟩ false depth seen x with
    | some w =>
      obtain rfl := Option.some.inj ((visit_succ depth seen x w hless).symm.trans hv)
      obtain ⟨w', hw', houtcome⟩ := ih seen nodes x w hnodes' hless
      exact ⟨w', visit_succ depth nodes x w' hw', houtcome⟩
    | none =>
      have hx : ∀ other, visit ⟨next, goal, false⟩ false depth other x = none := by
        intro other
        refine Option.eq_none_iff_forall_ne_some.2 fun w hw => ?_
        obtain ⟨w', hw', _⟩ := exists_visit_of_unguarded depth other seen x w hw
        rw [hless] at hw'
        cases hw'
      have hfree : ∀ a ∈ x :: nodes, ∀ other,
          visit ⟨next, goal, false⟩ false depth other a = none :=
        List.forall_mem_cons.2 ⟨hx, hnodes'⟩
      have hchild : ∀ seen' y w, visit ⟨next, goal, false⟩ false depth seen' y = some w →
          ¬ (true = true ∧ y ∈ x :: nodes) ∧
            ∃ w', visit ⟨next, goal, false⟩ true depth (x :: nodes) y = some w' ∧
              w'.outcome = w.outcome := by
        intro seen' y w hw
        refine ⟨fun hc => ?_, ih seen' _ y w hfree hw⟩
        cases (hfree y hc.2 seen').symm.trans hw
      exact exists_visit_succ_of_unguarded hchild hv

variable [Hashable α] {origin : α}

/-- Where the recursion without the check ends, the search that forgets ends as it
does and enters as many nodes. -/
theorem search_eq_of_unguarded (h : Problem.Bounded ⟨next, goal, false⟩ origin) {depth : Nat}
    {v : Visit α} (hv : visit ⟨next, goal, false⟩ false depth [] origin = some v) :
    Problem.search ⟨next, goal, false⟩ origin h = v.outcome := by
  obtain ⟨v', hv', houtcome⟩ := exists_guarded_visit depth [] [] origin v
    (fun a ha => absurd ha List.not_mem_nil) hv
  rw [search_eq_of_visit h hv', houtcome]

end BytePattern.DepthFirst
