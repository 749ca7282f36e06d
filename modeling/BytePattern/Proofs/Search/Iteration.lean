import BytePattern.Proofs.Search.Cost

set_option autoImplicit false

/-!
# Depth-first search: iteration after iteration

A search of a bounded problem has finitely many iterations, the last of which gives
its outcome.  At the beginning of each of them the stack is a path from the origin
that comes to no node twice, so it is no longer than a list of all that can be
reached.  What is seen is that path, or, where what has been seen is kept, all that
has been entered so far.
-/

namespace BytePattern.DepthFirst

variable {α : Type} [DecidableEq α] [Hashable α] {p : Problem α} {origin : α}
  {nodes domain : List α} {s t : Progress α} {o : Outcome} {n : Nat}

/-! ## How many there are -/

namespace Progress

theorem after_succ_of_inl (h : s.step p = .inl t) (n : Nat) :
    s.after p (n + 1) = t.after p n := by
  rw [after, h]

theorem after_succ_of_inr (h : s.step p = .inr o) (n : Nat) : s.after p (n + 1) = none := by
  rw [after, h]

/-- Where stepping on comes to an end, there are so many steps and no more. -/
theorem exists_count_after (hacc : Acc (Before p) s) :
    ∃ count, ∀ n, (s.after p n).isSome = true ↔ n < count := by
  induction hacc with
  | intro s _ ih =>
    cases hs : s.step p with
    | inr o =>
      refine ⟨1, fun n => ?_⟩
      cases n with
      | zero => exact iff_of_true rfl Nat.one_pos
      | succ n =>
        rw [after_succ_of_inr hs]
        exact iff_of_false Bool.false_ne_true (Nat.not_lt.2 (Nat.le_add_left 1 n))
    | inl t =>
      obtain ⟨count, hcount⟩ := ih t hs
      refine ⟨count + 1, fun n => ?_⟩
      cases n with
      | zero => exact iff_of_true rfl (Nat.succ_pos count)
      | succ n =>
        rw [after_succ_of_inl hs, hcount]
        exact Nat.succ_lt_succ_iff.symm

end Progress

/-- Stepping on ends as it does some steps later. -/
theorem Ends.of_after (h : s.after p n = some t) (hends : Ends p t o) : Ends p s o := by
  induction n generalizing s with
  | zero =>
    obtain rfl := Option.some.inj h
    exact hends
  | succ n ih =>
    cases hs : s.step p with
    | inr o' =>
      rw [Progress.after_succ_of_inr hs] at h
      cases h
    | inl u =>
      rw [Progress.after_succ_of_inl hs] at h
      exact .next hs (ih h)

/-- Some steps lead from trace to trace. -/
theorem Trace.after (h : Trace p origin nodes s) (hst : s.after p n = some t) :
    ∃ more, Trace p origin (more ++ nodes) t := by
  induction n generalizing nodes s with
  | zero =>
    obtain rfl := Option.some.inj hst
    exact ⟨[], h⟩
  | succ n ih =>
    cases hs : s.step p with
    | inr o' =>
      rw [Progress.after_succ_of_inr hs] at hst
      cases hst
    | inl u =>
      rw [Progress.after_succ_of_inl hs] at hst
      obtain ⟨first, htrace⟩ := h.step hs
      obtain ⟨more, htrace⟩ := ih htrace hst
      exact ⟨more ++ first, (List.append_assoc more first nodes).symm ▸ htrace⟩

namespace Problem

/-- There is an iteration only where the origin is no goal, and then it is so many
steps after the entry of the origin. -/
theorem iteration_eq_some :
    p.iteration origin n = some s ↔
      p.goal origin = false ∧ (Progress.idle.enter p origin).after p n = some s := by
  unfold iteration
  cases p.goal origin with
  | true => simp
  | false => simp

/-- The first iteration finds the origin entered. -/
theorem iteration_zero (hgoal : p.goal origin = false) :
    p.iteration origin 0 = some (Progress.idle.enter p origin) :=
  iteration_eq_some.2 ⟨hgoal, rfl⟩

/-- The iterations of a bounded problem come to an end. -/
theorem Bounded.exists_count (h : p.Bounded origin) :
    ∃ count, ∀ n, (p.iteration origin n).isSome = true ↔ n < count := by
  cases hgoal : p.goal origin with
  | true =>
    refine ⟨0, fun n => ?_⟩
    rw [iteration, hgoal, if_pos rfl]
    exact iff_of_false Bool.false_ne_true (Nat.not_lt_zero n)
  | false =>
    obtain ⟨count, hcount⟩ := Progress.exists_count_after h.acc
    refine ⟨count, fun n => ?_⟩
    rw [iteration, hgoal, if_neg Bool.false_ne_true, hcount]

/-- Every iteration is the end of a trace. -/
theorem exists_trace_of_iteration (h : p.iteration origin n = some s) :
    ∃ nodes, Trace p origin nodes s := by
  obtain ⟨hgoal, hafter⟩ := iteration_eq_some.1 h
  obtain ⟨more, htrace⟩ := (Trace.start hgoal).after hafter
  exact ⟨_, htrace⟩

/-- The iteration that gives an outcome gives that of the search. -/
theorem search_eq_of_iteration (hbounded : p.Bounded origin)
    (h : p.iteration origin n = some s) (hs : s.step p = .inr o) :
    p.search origin hbounded = o := by
  obtain ⟨hgoal, hafter⟩ := iteration_eq_some.1 h
  unfold search
  rw [hgoal, if_neg Bool.false_ne_true]
  exact (Ends.of_after hafter (.stop hs)).run_eq hbounded.acc

end Problem

/-! ## The stack -/

/-- A trace in a domain is a sound search. -/
theorem Trace.sound (horigin : origin ∈ domain)
    (hclosed : ∀ x ∈ domain, ∀ y ∈ p.next x, y ∈ domain) (h : Trace p origin nodes s) :
    s.Sound domain := by
  induction h with
  | start _ =>
    exact (Progress.Sound.idle domain).enter (by simp [Progress.idle]) (hclosed _ horigin)
  | pass _ _ ih => exact ih.drop
  | @enter _ _ x y _ _ _ _ hy _ ih =>
    have hinside : y ∈ domain := ih.inside _ List.mem_cons_self y List.mem_cons_self
    exact ih.drop.enter hy (hclosed y hinside)
  | leave _ ih => exact ih.leave p.keep

/-- The stack goes from child to parent. -/
theorem Trace.isChain (h : Trace p origin nodes s) :
    (path s.stack).IsChain fun y x => y ∈ p.next x := by
  induction h with
  | start _ => exact .singleton origin
  | pass _ _ ih => exact ih
  | enter hbefore _ _ ih =>
    exact .cons_cons (hbefore.mem_next (pending_cons.2 (Or.inl ⟨rfl, List.mem_cons_self⟩))) ih
  | leave _ ih => exact List.IsChain.tail ih

/-- The origin is at the bottom of the stack. -/
theorem Trace.getLast?_path (h : Trace p origin nodes s) (hne : s.stack ≠ []) :
    (path s.stack).getLast? = some origin := by
  induction h with
  | start _ => rfl
  | pass _ _ ih => exact ih (List.cons_ne_nil _ _)
  | enter _ _ _ ih =>
    have hbefore := ih (List.cons_ne_nil _ _)
    rwa [Progress.enter, path, List.map_cons, List.map_cons, List.getLast?_cons_cons]
  | @leave _ _ stack _ _ _ ih =>
    have hbefore := ih (List.cons_ne_nil _ _)
    cases stack with
    | nil => exact absurd rfl hne
    | cons f stack => rwa [path, List.map_cons, List.map_cons, List.getLast?_cons_cons] at hbefore

/-- The stack, read from the bottom, is a simple path from the origin. -/
theorem Trace.simplePath (hbounded : p.Bounded origin) (h : Trace p origin nodes s)
    (hne : s.stack ≠ []) : SimplePath p.next origin (path s.stack).reverse := by
  obtain ⟨domain, horigin, hclosed⟩ := hbounded
  refine ⟨?_, ?_, ?_⟩
  · rw [List.head?_reverse]
    exact h.getLast?_path hne
  · exact List.isChain_reverse.2 h.isChain
  · exact List.nodup_reverse.2 (h.sound horigin hclosed).distinct

/-- The stack is no longer than a list of all that can be reached. -/
theorem Trace.length_stack_le (hbounded : p.Bounded origin) (h : Trace p origin nodes s)
    (hdomain : ∀ x, Reaches p.next origin x → x ∈ domain) : s.stack.length ≤ domain.length := by
  obtain ⟨around, horigin, hclosed⟩ := hbounded
  have hnodup : (path s.stack).Nodup := (h.sound horigin hclosed).distinct
  have hsub : path s.stack ⊆ domain :=
    fun x hx => hdomain x (h.reaches x (h.mem_of_mem_path x hx))
  calc
    s.stack.length = (path s.stack).length := (List.length_map Frame.node).symm
    _ ≤ domain.length := (List.subperm_of_subset hnodup hsub).length_le

/-! ## What is seen -/

/-- Where what is left is forgotten, the seen nodes are those on the stack. -/
theorem Trace.holds_path (hkeep : p.keep = false) (hbounded : p.Bounded origin)
    (h : Trace p origin nodes s) : Holds s.seen (path s.stack) := by
  obtain ⟨domain, horigin, hclosed⟩ := hbounded
  induction h with
  | start _ => exact Holds.insert (fun x => by simp) origin
  | pass _ _ ih => exact ih
  | enter _ _ _ ih => exact ih.insert _
  | leave hbefore ih =>
    rw [if_neg (by simp [hkeep])]
    -- the node that is left is nowhere else on the path, so it alone is forgotten
    exact ih.erase (List.nodup_cons.1 (hbefore.sound horigin hclosed).distinct).1

end BytePattern.DepthFirst
