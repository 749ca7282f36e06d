import BytePattern.Proofs.Search.Agreement
import Mathlib.Logic.Relation

set_option autoImplicit false

/-!
# Depth-first search: keeping what has been seen

A search that keeps all seen nodes meets a goal exactly when the one that forgets
the nodes it leaves does, and enters no more nodes.  Nodes that were left stay
dead for a reason: what can be reached from them without the current path has
been looked at and holds no goal.  That is the invariant `Explored`, and it is
also why a search that fails has seen everything that can be reached.
-/

namespace BytePattern.DepthFirst

variable {α : Type} [DecidableEq α]

/-! ## Explored nodes -/

/-- The seen nodes include the path, and the others among them are no goals and
lead to seen nodes only. -/
structure Explored (next : α → List α) (goal : α → Bool) (path seen : List α) : Prop where
  subset : ∀ x ∈ path, x ∈ seen
  noGoal : ∀ x ∈ seen, x ∉ path → goal x = false
  closed : ∀ x ∈ seen, x ∉ path → ∀ y ∈ next x, y ∈ seen

variable {next : α → List α} {goal : α → Bool} {path seen : List α}

omit [DecidableEq α] in
theorem Explored.nil : Explored next goal [] [] :=
  ⟨fun _ hx => hx, fun _ hx => absurd hx List.not_mem_nil, fun _ hx => absurd hx List.not_mem_nil⟩

omit [DecidableEq α] in
/-- One more node on the path. -/
theorem Explored.cons (h : Explored next goal path seen) (x : α) :
    Explored next goal (x :: path) (x :: seen) := by
  have hold : ∀ y ∈ x :: seen, y ∉ x :: path → y ∈ seen ∧ y ∉ path := by
    intro y hy hpath
    rw [List.mem_cons, not_or] at hpath
    exact ⟨(List.mem_cons.1 hy).resolve_left hpath.1, hpath.2⟩
  refine ⟨?_, ?_, ?_⟩
  · intro y hy
    rcases List.mem_cons.1 hy with rfl | hy
    · exact List.mem_cons_self
    · exact List.mem_cons_of_mem _ (h.subset y hy)
  · intro y hy hpath
    exact h.noGoal y (hold y hy hpath).1 (hold y hy hpath).2
  · intro y hy hpath z hz
    exact List.mem_cons_of_mem _ (h.closed y (hold y hy hpath).1 (hold y hy hpath).2 z hz)

omit [DecidableEq α] in
/-- The last node of the path left, after all its children were seen. -/
theorem Explored.leave {x : α} (h : Explored next goal (x :: path) seen) (hgoal : goal x = false)
    (hnext : ∀ y ∈ next x, y ∈ seen) : Explored next goal path seen := by
  refine ⟨fun y hy => h.subset y (List.mem_cons_of_mem _ hy), ?_, ?_⟩
  · intro y hy hpath
    by_cases hyx : y = x
    · exact hyx ▸ hgoal
    · exact h.noGoal y hy (by simp [hyx, hpath])
  · intro y hy hpath
    by_cases hyx : y = x
    · exact hyx ▸ hnext
    · exact h.closed y hy (by simp [hyx, hpath])

/-! ## The forgetful search fails on explored nodes -/

theorem not_found_of_visitAll {visitChild : List α → α → Option (Visit α)} {nodes : List α}
    (hchild : ∀ y v, y ∈ seen → y ∉ nodes → visitChild nodes y = some v →
      v.outcome.found = false) :
    ∀ (rest : List α) (u : Visit α), (∀ y ∈ rest, y ∈ seen) →
      visitAll visitChild true false nodes rest = some u → u.outcome.found = false := by
  intro rest
  induction rest with
  | nil =>
    intro u _ hu
    rw [visitAll] at hu
    obtain rfl := Option.some.inj hu
    rfl
  | cons y rest ih =>
    intro u hrest hu
    have hrest' : ∀ z ∈ rest, z ∈ seen := fun z hz => hrest z (List.mem_cons_of_mem _ hz)
    rw [visitAll] at hu
    split at hu
    · exact ih u hrest' hu
    · rename_i hy
      split at hu
      · cases hu
      · rename_i first hfirst
        have hfailed := hchild y first (hrest y List.mem_cons_self)
          (fun hm => hy ⟨rfl, hm⟩) hfirst
        rw [if_neg (by simp [hfailed])] at hu
        split at hu
        · cases hu
        · rename_i others hothers
          obtain rfl := Option.some.inj hu
          exact ih others hrest' hothers

/-- A visit of an explored node meets no goal, whatever path it stands on. -/
theorem not_found_of_explored (h : Explored next goal path seen) :
    ∀ (depth : Nat) (nodes : List α) (x : α) (v : Visit α), (∀ y ∈ path, y ∈ nodes) →
      x ∈ seen → x ∉ nodes → visit ⟨next, goal, false⟩ true depth nodes x = some v →
      v.outcome.found = false := by
  intro depth
  induction depth with
  | zero =>
    intro nodes x v _ _ _ hv
    cases hv
  | succ depth ih =>
    intro nodes x v hpath hx hnew hv
    have hxpath : x ∉ path := fun hm => hnew (hpath x hm)
    have hgoal : goal x = false := h.noGoal x hx hxpath
    rw [visit, if_neg (by simp [hgoal])] at hv
    split at hv
    · cases hv
    · rename_i u hu
      obtain rfl := Option.some.inj hv
      have hpath' : ∀ z ∈ path, z ∈ x :: nodes :=
        fun z hz => List.mem_cons_of_mem _ (hpath z hz)
      have hchild : ∀ y w, y ∈ seen → y ∉ x :: nodes →
          visit ⟨next, goal, false⟩ true depth (x :: nodes) y = some w →
          w.outcome.found = false :=
        fun y w => ih (x :: nodes) y w hpath'
      exact not_found_of_visitAll hchild (next x) u (h.closed x hx hxpath) hu

/-! ## The keeping search refines the forgetful one -/

/-- The visit of the keeping search ends as that of the forgetful one, enters no
more nodes, and after a failure everything seen is explored. -/
structure Refines (next : α → List α) (goal : α → Bool) (path seen rest : List α)
    (kept forgot : Visit α) : Prop where
  found : kept.outcome.found = forgot.outcome.found
  entered : kept.outcome.entered ≤ forgot.outcome.entered
  grows : ∀ x ∈ seen, x ∈ kept.seen
  looked : kept.outcome.found = false → ∀ x ∈ rest, x ∈ kept.seen
  explored : kept.outcome.found = false → Explored next goal path kept.seen

section Refining

variable {rest : List α} {y : α} {kept forgot first first' : Visit α}

omit [DecidableEq α] in
/-- One more child, which the keeping search passes over. -/
theorem Refines.pass (h : Refines next goal path seen rest kept forgot) (hy : y ∈ seen) :
    Refines next goal path seen (y :: rest) kept forgot :=
  ⟨h.found, h.entered, h.grows,
    fun hf => List.forall_mem_cons.2 ⟨h.grows y hy, h.looked hf⟩, h.explored⟩

omit [DecidableEq α] in
/-- A child at which both searches end. -/
theorem Refines.meet (h : Refines next goal path seen [y] first' first)
    (hfound : first'.outcome.found = true) :
    Refines next goal path seen (y :: rest) first' first := by
  refine ⟨h.found, h.entered, h.grows, fun hnot => ?_, h.explored⟩
  rw [hfound] at hnot
  cases hnot

omit [DecidableEq α] in
/-- A child that both searches explore in vain, and then the others. -/
theorem Refines.enter (h : Refines next goal path seen [y] first' first)
    (hfailed : first'.outcome.found = false)
    (hrest : Refines next goal path first'.seen rest kept forgot) :
    Refines next goal path seen (y :: rest)
      ⟨⟨kept.outcome.found, first'.outcome.entered + kept.outcome.entered⟩, kept.seen⟩
      ⟨⟨forgot.outcome.found, first.outcome.entered + forgot.outcome.entered⟩, forgot.seen⟩ := by
  have hy : y ∈ kept.seen := hrest.grows y (h.looked hfailed y List.mem_cons_self)
  exact ⟨hrest.found, Nat.add_le_add h.entered hrest.entered,
    fun x hx => hrest.grows x (h.grows x hx),
    fun hf => List.forall_mem_cons.2 ⟨hy, hrest.looked hf⟩, hrest.explored⟩

end Refining

theorem exists_refines_visitAll {depth : Nat}
    (hchild : ∀ (seen : List α) (y : α) (v : Visit α), Explored next goal path seen → y ∉ seen →
      visit ⟨next, goal, false⟩ true depth path y = some v →
      ∃ v', visit ⟨next, goal, true⟩ true depth seen y = some v' ∧
        Refines next goal path seen [y] v' v) :
    ∀ (rest seen : List α) (u : Visit α), Explored next goal path seen →
      visitAll (visit ⟨next, goal, false⟩ true depth) true false path rest = some u →
      ∃ u', visitAll (visit ⟨next, goal, true⟩ true depth) true true seen rest = some u' ∧
        Refines next goal path seen rest u' u := by
  intro rest
  induction rest with
  | nil =>
    intro seen u h hu
    rw [visitAll] at hu
    obtain rfl := Option.some.inj hu
    exact ⟨_, rfl, rfl, Nat.le_refl _, fun _ hx => hx, fun _ _ hx => absurd hx List.not_mem_nil,
      fun _ => h⟩
  | cons y rest ih =>
    intro seen u h hu
    rw [visitAll] at hu
    split at hu
    · -- both pass over a node of the path
      rename_i hy
      have hyseen : y ∈ seen := h.subset y hy.2
      obtain ⟨u', hu', hr⟩ := ih seen u h hu
      rw [visitAll, if_pos ⟨rfl, hyseen⟩]
      exact ⟨u', hu', hr.pass hyseen⟩
    · rename_i hy
      have hypath : y ∉ path := fun hm => hy ⟨rfl, hm⟩
      split at hu
      · cases hu
      · rename_i first hfirst
        by_cases hyseen : y ∈ seen
        · -- the forgetful search explores the node once more, in vain
          have hfailed := not_found_of_explored h depth path y first (fun _ hz => hz) hyseen
            hypath hfirst
          rw [if_neg (by simp [hfailed])] at hu
          split at hu
          · cases hu
          · rename_i others hothers
            obtain rfl := Option.some.inj hu
            obtain ⟨u', hu', hr⟩ := ih seen others h hothers
            have hle := Nat.le_trans hr.entered (Nat.le_add_left _ first.outcome.entered)
            have hpassed := hr.pass hyseen
            rw [visitAll, if_pos ⟨rfl, hyseen⟩]
            exact ⟨u', hu', hpassed.found, hle, hpassed.grows, hpassed.looked, hpassed.explored⟩
        · obtain ⟨first', hfirst', hr⟩ := hchild seen y first h hyseen hfirst
          rw [visitAll, if_neg (fun hc => hyseen hc.2), hfirst']
          split at hu
          · rename_i hfound
            obtain rfl := Option.some.inj hu
            have hfound' : first'.outcome.found = true := hr.found.trans hfound
            exact ⟨first', by simp [hfound'], hr.meet hfound'⟩
          · rename_i hfound
            have hfound' : first'.outcome.found = false :=
              hr.found.trans (Bool.eq_false_iff.2 hfound)
            split at hu
            · cases hu
            · rename_i others hothers
              obtain rfl := Option.some.inj hu
              obtain ⟨u', hu', hr'⟩ := ih first'.seen others (hr.explored hfound') hothers
              exact ⟨_, by simp [hfound', hu'], hr.enter hfound' hr'⟩

theorem exists_refines_visit :
    ∀ (depth : Nat) (path seen : List α) (x : α) (v : Visit α), Explored next goal path seen →
      x ∉ seen → visit ⟨next, goal, false⟩ true depth path x = some v →
      ∃ v', visit ⟨next, goal, true⟩ true depth seen x = some v' ∧
        Refines next goal path seen [x] v' v := by
  intro depth
  induction depth with
  | zero =>
    intro path seen x v _ _ hv
    cases hv
  | succ depth ih =>
    intro path seen x v h hx hv
    rw [visit] at hv
    rw [visit]
    split at hv
    · rename_i hgoal
      obtain rfl := Option.some.inj hv
      rw [if_pos hgoal]
      exact ⟨_, rfl, rfl, Nat.le_refl _, fun _ hy => hy, fun hnot => Bool.noConfusion hnot,
        fun hnot => Bool.noConfusion hnot⟩
    · rename_i hgoal
      rw [if_neg hgoal]
      split at hv
      · cases hv
      · rename_i u hu
        obtain rfl := Option.some.inj hv
        obtain ⟨u', hu', hr⟩ := exists_refines_visitAll (fun seen' => ih (x :: path) seen')
          (next x) (x :: seen) u (h.cons x) hu
        rw [hu']
        have hxsaw : x ∈ u'.seen := hr.grows x List.mem_cons_self
        refine ⟨_, rfl, hr.found, Nat.succ_le_succ hr.entered,
          fun y hy => hr.grows y (List.mem_cons_of_mem _ hy), fun _ => ?_, fun hf => ?_⟩
        · exact List.forall_mem_cons.2 ⟨hxsaw, fun _ hy => absurd hy List.not_mem_nil⟩
        · exact (hr.explored hf).leave (Bool.eq_false_iff.2 hgoal) (hr.looked hf)

/-! ## Goals within reach -/

/-- A node can be reached from another by going from node to child. -/
abbrev Reaches (next : α → List α) : α → α → Prop :=
  Relation.ReflTransGen fun x y => y ∈ next x

/-- A goal can be reached from the node. -/
def GoalWithin (next : α → List α) (goal : α → Bool) (x : α) : Prop :=
  ∃ y, Reaches next x y ∧ goal y = true

omit [DecidableEq α] in
theorem GoalWithin.head {next : α → List α} {goal : α → Bool} {x y : α}
    (h : GoalWithin next goal y) (hy : y ∈ next x) : GoalWithin next goal x := by
  obtain ⟨z, hyz, hz⟩ := h
  exact ⟨z, .head hy hyz, hz⟩

theorem goalWithin_of_visitAll {visitChild : List α → α → Option (Visit α)} {check keep : Bool}
    (hchild : ∀ nodes y v, visitChild nodes y = some v → v.outcome.found = true →
      GoalWithin next goal y) :
    ∀ (rest nodes : List α) (u : Visit α), visitAll visitChild check keep nodes rest = some u →
      u.outcome.found = true → ∃ y ∈ rest, GoalWithin next goal y := by
  intro rest
  induction rest with
  | nil =>
    intro nodes u hu hfound
    rw [visitAll] at hu
    obtain rfl := Option.some.inj hu
    cases hfound
  | cons y rest ih =>
    intro nodes u hu hfound
    have hlater : (∃ z ∈ rest, GoalWithin next goal z) →
        ∃ z ∈ y :: rest, GoalWithin next goal z := by
      rintro ⟨z, hz, hgoal⟩
      exact ⟨z, List.mem_cons_of_mem _ hz, hgoal⟩
    rw [visitAll] at hu
    split at hu
    · exact hlater (ih nodes u hu hfound)
    · split at hu
      · cases hu
      · rename_i first hfirst
        split at hu
        · rename_i hfirstFound
          exact ⟨y, List.mem_cons_self, hchild nodes y first hfirst hfirstFound⟩
        · split at hu
          · cases hu
          · rename_i others hothers
            obtain rfl := Option.some.inj hu
            exact hlater (ih _ others hothers hfound)

/-- A visit that meets a goal was led to it by the graph. -/
theorem goalWithin_of_visit {p : Problem α} {check : Bool} :
    ∀ (depth : Nat) (nodes : List α) (x : α) (v : Visit α),
      visit p check depth nodes x = some v → v.outcome.found = true →
      GoalWithin p.next p.goal x := by
  intro depth
  induction depth with
  | zero =>
    intro nodes x v hv
    cases hv
  | succ depth ih =>
    intro nodes x v hv hfound
    rw [visit] at hv
    split at hv
    · rename_i hgoal
      exact ⟨x, .refl, hgoal⟩
    · split at hv
      · cases hv
      · rename_i u hu
        obtain rfl := Option.some.inj hv
        obtain ⟨y, hy, z, hyz, hgoal⟩ := goalWithin_of_visitAll ih (p.next x) _ u hu hfound
        exact ⟨z, .head hy hyz, hgoal⟩

omit [DecidableEq α] in
/-- From an explored node, off every path, no goal can be reached. -/
theorem Explored.not_goalWithin (h : Explored next goal [] seen) {x : α} (hx : x ∈ seen) :
    ¬ GoalWithin next goal x := by
  rintro ⟨y, hxy, hgoal⟩
  have hy : y ∈ seen := by
    clear hgoal
    induction hxy with
    | refl => exact hx
    | tail _ hz ih => exact h.closed _ ih List.not_mem_nil _ hz
  rw [h.noGoal y hy List.not_mem_nil] at hgoal
  cases hgoal

/-! ## The two searches -/

section Searches

variable [Hashable α] {origin : α}

/-- The two searches from one origin, as two visits that refine one another. -/
theorem exists_refines_search (hforgot : Problem.Bounded ⟨next, goal, false⟩ origin)
    (hkept : Problem.Bounded ⟨next, goal, true⟩ origin) :
    ∃ kept forgot, Problem.search ⟨next, goal, true⟩ origin hkept = kept.outcome ∧
      Problem.search ⟨next, goal, false⟩ origin hforgot = forgot.outcome ∧
      Refines next goal [] [] [origin] kept forgot := by
  obtain ⟨depth, hdepth⟩ := hforgot.exists_visit
  obtain ⟨forgot, hvisit⟩ := hdepth depth (Nat.le_refl _)
  obtain ⟨kept, hvisit', hr⟩ := exists_refines_visit depth [] [] origin forgot .nil
    List.not_mem_nil hvisit
  exact ⟨kept, forgot, search_eq_of_visit hkept hvisit', search_eq_of_visit hforgot hvisit, hr⟩

/-- Keeping what was seen changes no verdict and enters no further node. -/
theorem search_keep_le (hforgot : Problem.Bounded ⟨next, goal, false⟩ origin)
    (hkept : Problem.Bounded ⟨next, goal, true⟩ origin) :
    (Problem.search ⟨next, goal, true⟩ origin hkept).found =
        (Problem.search ⟨next, goal, false⟩ origin hforgot).found ∧
      (Problem.search ⟨next, goal, true⟩ origin hkept).entered ≤
        (Problem.search ⟨next, goal, false⟩ origin hforgot).entered := by
  obtain ⟨kept, forgot, hk, hf, hr⟩ := exists_refines_search hforgot hkept
  rw [hk, hf]
  exact ⟨hr.found, hr.entered⟩

/-- Either search finds a goal exactly when one can be reached from the origin. -/
theorem search_found_iff (p : Problem α) (h : p.Bounded origin) :
    (p.search origin h).found = true ↔ GoalWithin p.next p.goal origin := by
  constructor
  · intro hfound
    obtain ⟨depth, hdepth⟩ := h.exists_visit
    obtain ⟨v, hv⟩ := hdepth depth (Nat.le_refl _)
    rw [search_eq_of_visit h hv] at hfound
    exact goalWithin_of_visit depth [] origin v hv hfound
  · intro hgoal
    obtain ⟨next, goal, keep⟩ := p
    have hbounded : ∀ keep', Problem.Bounded ⟨next, goal, keep'⟩ origin := fun _ => h
    obtain ⟨kept, forgot, hk, hf, hr⟩ := exists_refines_search (hbounded false) (hbounded true)
    have hmet : kept.outcome.found = true := by
      cases hnot : kept.outcome.found with
      | true => rfl
      | false =>
        have hseen : origin ∈ kept.seen := hr.looked hnot origin List.mem_cons_self
        exact absurd hgoal ((hr.explored hnot).not_goalWithin hseen)
    cases keep with
    | true => rw [hk]; exact hmet
    | false => rw [hf, ← hr.found]; exact hmet

end Searches

end BytePattern.DepthFirst
