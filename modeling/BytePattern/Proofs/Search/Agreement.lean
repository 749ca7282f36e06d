import BytePattern.Search.Course

set_option autoImplicit false

/-!
# Depth-first search: the stack and the recursion

The search that keeps its path on a stack and the search said as a recursion are
one search: they end alike and enter equally many nodes.  A visit of the
recursion is a stretch of steps of the machine, from the entry of a node to the
moment when the node has been left, and the seen nodes of the two agree as sets
at both ends of it.
-/

namespace BytePattern.DepthFirst

variable {α : Type} [DecidableEq α]

/-! ## Where steps end -/

section Machine

variable [Hashable α]

/-- Stepping on from a search under way ends with an outcome. -/
inductive Ends (p : Problem α) : Progress α → Outcome → Prop where
  | stop {s : Progress α} {o : Outcome} : s.step p = .inr o → Ends p s o
  | next {s t : Progress α} {o : Outcome} : s.step p = .inl t → Ends p t o → Ends p s o

theorem Ends.run_eq {p : Problem α} {s : Progress α} {o : Outcome} (h : Ends p s o)
    (hacc : Acc (Progress.Before p) s) : s.run p hacc = o := by
  induction h with
  | stop hs =>
    unfold Progress.run
    split
    · rename_i o' hs'
      rw [hs] at hs'
      exact (Sum.inr.inj hs').symm
    · rename_i t hs'
      rw [hs] at hs'
      cases hs'
  | next hs _ ih =>
    unfold Progress.run
    split
    · rename_i o' hs'
      rw [hs] at hs'
      cases hs'
    · rename_i t hs'
      rw [hs] at hs'
      obtain rfl := Sum.inl.inj hs'
      exact ih _

section Steps

variable {p : Problem α} {x y : α} {rest : List α} {stack : List (Frame α)}
  {seen : Std.HashSet α} {entered : Nat} {o : Outcome}

theorem Ends.idle : Ends p ⟨[], seen, entered⟩ ⟨false, entered⟩ := .stop rfl

theorem Ends.leave (h : Ends p ⟨stack, if p.keep then seen else seen.erase x, entered⟩ o) :
    Ends p ⟨⟨x, []⟩ :: stack, seen, entered⟩ o := .next rfl h

theorem Ends.pass (hy : y ∈ seen) (h : Ends p ⟨⟨x, rest⟩ :: stack, seen, entered⟩ o) :
    Ends p ⟨⟨x, y :: rest⟩ :: stack, seen, entered⟩ o := by
  refine .next ?_ h
  rw [Progress.step, if_pos (Std.HashSet.contains_iff_mem.2 hy)]

theorem Ends.meet (hy : y ∉ seen) (hgoal : p.goal y = true) :
    Ends p ⟨⟨x, y :: rest⟩ :: stack, seen, entered⟩ ⟨true, entered⟩ := by
  refine .stop ?_
  rw [Progress.step, if_neg (fun hc => hy (Std.HashSet.contains_iff_mem.1 hc)), if_pos hgoal]

theorem Ends.enter (hy : y ∉ seen) (hgoal : p.goal y = false)
    (h : Ends p ⟨⟨y, p.next y⟩ :: ⟨x, rest⟩ :: stack, seen.insert y, entered + 1⟩ o) :
    Ends p ⟨⟨x, y :: rest⟩ :: stack, seen, entered⟩ o := by
  refine .next ?_ h
  rw [Progress.step, if_neg (fun hc => hy (Std.HashSet.contains_iff_mem.1 hc)),
    if_neg (by simp [hgoal]), Progress.enter]

end Steps

/-! ## Visits as stretches of steps -/

/-- The set and the list hold the same nodes. -/
def Holds (seen : Std.HashSet α) (nodes : List α) : Prop := ∀ x, x ∈ seen ↔ x ∈ nodes

theorem Holds.insert {seen : Std.HashSet α} {nodes : List α} (h : Holds seen nodes) (x : α) :
    Holds (seen.insert x) (x :: nodes) := by
  intro y
  rw [Std.HashSet.mem_insert, h y, List.mem_cons, beq_iff_eq, eq_comm]

theorem Holds.erase {seen : Std.HashSet α} {nodes : List α} {x : α}
    (h : Holds seen (x :: nodes)) (hx : x ∉ nodes) : Holds (seen.erase x) nodes := by
  intro y
  rw [Std.HashSet.mem_erase, h y, List.mem_cons, beq_eq_false_iff_ne]
  constructor
  · rintro ⟨hne, hy⟩
    exact hy.resolve_left (Ne.symm hne)
  · intro hy
    exact ⟨fun heq => hx (heq ▸ hy), Or.inr hy⟩

/-- What the search does from a moment on is what a visit did: it ends as soon as
the visit met a goal, and otherwise comes back to `stack` with `nodes` seen.
Either way it enters as many nodes as the visit. -/
structure Does (p : Problem α) (s : Progress α) (v : Visit α) (stack : List (Frame α))
    (nodes : List α) : Prop where
  ends : v.outcome.found = true → Ends p s ⟨true, s.entered + v.outcome.entered⟩
  returns : v.outcome.found = false → ∃ seen, Holds seen nodes ∧
    ∀ o, Ends p ⟨stack, seen, s.entered + v.outcome.entered⟩ o → Ends p s o

/-- A visit of a child does what the machine does when it looks at that child. -/
def ChildAgrees (p : Problem α) (visitChild : List α → α → Option (Visit α)) : Prop :=
  ∀ (nodes : List α) (y : α) (v : Visit α), visitChild nodes y = some v → y ∉ nodes →
    ∀ (x : α) (rest : List α) (stack : List (Frame α)) (seen : Std.HashSet α) (entered : Nat),
      Holds seen nodes →
        Does p ⟨⟨x, y :: rest⟩ :: stack, seen, entered⟩ v (⟨x, rest⟩ :: stack)
          (if p.keep then v.seen else nodes)

/-- A visit of children in order does what the machine does with their frame. -/
theorem does_of_visitAll {p : Problem α} {visitChild : List α → α → Option (Visit α)}
    (hchild : ChildAgrees p visitChild) (x : α) (stack : List (Frame α)) :
    ∀ (rest nodes : List α) (u : Visit α), visitAll visitChild true p.keep nodes rest = some u →
      ∀ (seen : Std.HashSet α) (entered : Nat), Holds seen nodes →
        Does p ⟨⟨x, rest⟩ :: stack, seen, entered⟩ u (⟨x, []⟩ :: stack)
          (if p.keep then u.seen else nodes) := by
  intro rest
  induction rest with
  | nil =>
    intro nodes u hu seen entered hseen
    rw [visitAll] at hu
    obtain rfl := Option.some.inj hu
    have hkept : (if p.keep then nodes else nodes) = nodes := ite_self nodes
    exact ⟨fun hfound => Bool.noConfusion hfound,
      fun _ => ⟨seen, hkept.symm ▸ hseen, fun o ho => ho⟩⟩
  | cons y rest ih =>
    intro nodes u hu seen entered hseen
    rw [visitAll] at hu
    split at hu
    · rename_i hy
      have hyseen : y ∈ seen := (hseen y).2 hy.2
      have hrest := ih nodes u hu seen entered hseen
      refine ⟨fun hfound => .pass hyseen (hrest.ends hfound), fun hfound => ?_⟩
      obtain ⟨seen', hseen', hback⟩ := hrest.returns hfound
      exact ⟨seen', hseen', fun o ho => .pass hyseen (hback o ho)⟩
    · rename_i hy
      have hy : y ∉ nodes := fun hm => hy ⟨rfl, hm⟩
      split at hu
      · cases hu
      · rename_i first hfirst
        have hdoes := hchild nodes y first hfirst hy x rest stack seen entered hseen
        split at hu
        · rename_i hfound
          obtain rfl := Option.some.inj hu
          exact ⟨hdoes.ends, fun hnot => absurd hfound (by simp [hnot])⟩
        · rename_i hfound
          obtain ⟨seen₁, hseen₁, hback₁⟩ := hdoes.returns (Bool.eq_false_iff.2 hfound)
          split at hu
          · cases hu
          · rename_i others hothers
            obtain rfl := Option.some.inj hu
            have hrest := ih _ others hothers seen₁ (entered + first.outcome.entered) hseen₁
            have hcount := Nat.add_assoc entered first.outcome.entered others.outcome.entered
            refine ⟨fun hf => hback₁ _ (hcount ▸ hrest.ends hf), fun hf => ?_⟩
            obtain ⟨seen₂, hseen₂, hback₂⟩ := hrest.returns hf
            refine ⟨seen₂, ?_, fun o ho => hback₁ o (hback₂ o (hcount.symm ▸ ho))⟩
            cases hk : p.keep <;> simpa [hk] using hseen₂

/-- A visit of a node does what the machine does with the node, at every depth. -/
theorem childAgrees_visit (p : Problem α) (depth : Nat) :
    ChildAgrees p (visit p true depth) := by
  induction depth with
  | zero =>
    intro nodes y v hv
    cases hv
  | succ depth ih =>
    intro nodes y v hv hy x rest stack seen entered hseen
    have hyseen : y ∉ seen := fun hm => hy ((hseen y).1 hm)
    rw [visit] at hv
    split at hv
    · rename_i hgoal
      obtain rfl := Option.some.inj hv
      exact ⟨fun _ => .meet hyseen hgoal, fun hnot => Bool.noConfusion hnot⟩
    · rename_i hgoal
      have hgoal : p.goal y = false := Bool.eq_false_iff.2 hgoal
      split at hv
      · cases hv
      · rename_i u hu
        obtain rfl := Option.some.inj hv
        have hdoes := does_of_visitAll ih y (⟨x, rest⟩ :: stack) (p.next y) (y :: nodes) u hu
          (seen.insert y) (entered + 1) (hseen.insert y)
        have hcount : entered + 1 + u.outcome.entered = entered + (u.outcome.entered + 1) := by
          omega
        refine ⟨fun hf => .enter hyseen hgoal (hcount ▸ hdoes.ends hf), fun hf => ?_⟩
        obtain ⟨seen₁, hseen₁, hback⟩ := hdoes.returns hf
        refine ⟨if p.keep then seen₁ else seen₁.erase y, ?_, fun o ho => ?_⟩
        · cases hk : p.keep with
          | true => simpa [hk] using hseen₁
          | false =>
            simp only [hk, Bool.false_eq_true, if_false] at hseen₁ ⊢
            exact hseen₁.erase hy
        · exact .enter hyseen hgoal (hback o (.leave (hcount.symm ▸ ho)))

/-- Whenever the recursion from an origin suffices with its depth, the machine
ends as it does and enters as many nodes. -/
theorem search_eq_of_visit {p : Problem α} {origin : α} (h : p.Bounded origin) {depth : Nat}
    {v : Visit α} (hv : visit p true depth [] origin = some v) :
    p.search origin h = v.outcome := by
  cases depth with
  | zero => cases hv
  | succ depth =>
    rw [visit] at hv
    unfold Problem.search
    split at hv
    · rename_i hgoal
      obtain rfl := Option.some.inj hv
      rw [if_pos hgoal]
    · rename_i hgoal
      rw [if_neg hgoal]
      split at hv
      · cases hv
      · rename_i u hu
        obtain rfl := Option.some.inj hv
        have hseen : Holds ((∅ : Std.HashSet α).insert origin) [origin] :=
          Holds.insert (fun x => by simp) origin
        have hdoes := does_of_visitAll (childAgrees_visit p depth) origin [] (p.next origin)
          [origin] u hu _ 1 hseen
        have hends : Ends p (Progress.idle.enter p origin)
            ⟨u.outcome.found, 1 + u.outcome.entered⟩ := by
          cases hfound : u.outcome.found with
          | true => exact hdoes.ends hfound
          | false =>
            obtain ⟨seen, _, hback⟩ := hdoes.returns hfound
            exact hback _ (.leave .idle)
        rw [hends.run_eq, Nat.add_comm]

end Machine

/-! ## How deep the recursion goes -/

theorem fresh_le_of_subset {domain nodes more : List α} (h : ∀ x ∈ nodes, x ∈ more) :
    fresh domain more ≤ fresh domain nodes := by
  unfold fresh
  rw [← List.countP_eq_length_filter, ← List.countP_eq_length_filter]
  apply List.countP_mono_left
  intro x _ hx
  simp only [decide_eq_true_eq] at hx ⊢
  exact fun hm => hx (h x hm)

/-- Children of a domain are visited to the end, and nothing seen is forgotten,
if that holds of each child while at most so many nodes are unseen. -/
theorem exists_visitAll {domain : List α} {visitChild : List α → α → Option (Visit α)}
    {bound : Nat} (keep : Bool)
    (hchild : ∀ (nodes : List α) (y : α), y ∈ domain → y ∉ nodes → fresh domain nodes ≤ bound →
      ∃ v, visitChild nodes y = some v ∧ ∀ z ∈ nodes, z ∈ v.seen) :
    ∀ (rest nodes : List α), (∀ y ∈ rest, y ∈ domain) → fresh domain nodes ≤ bound →
      ∃ u, visitAll visitChild true keep nodes rest = some u ∧ ∀ z ∈ nodes, z ∈ u.seen := by
  intro rest
  induction rest with
  | nil =>
    intro nodes _ _
    exact ⟨_, rfl, fun z hz => hz⟩
  | cons y rest ih =>
    intro nodes hrest hbound
    have hrest' : ∀ z ∈ rest, z ∈ domain := fun z hz => hrest z (List.mem_cons_of_mem _ hz)
    by_cases hy : y ∈ nodes
    · obtain ⟨u, hu, hsub⟩ := ih nodes hrest' hbound
      refine ⟨u, ?_, hsub⟩
      rw [visitAll, if_pos ⟨rfl, hy⟩]
      exact hu
    · obtain ⟨first, hfirst, hsub⟩ := hchild nodes y (hrest y List.mem_cons_self) hy hbound
      rw [visitAll, if_neg (fun hc => hy hc.2), hfirst]
      by_cases hfound : first.outcome.found = true
      · exact ⟨first, by simp [hfound], hsub⟩
      · have hkept : ∀ z ∈ nodes, z ∈ if keep then first.seen else nodes := by
          intro z hz
          split
          · exact hsub z hz
          · exact hz
        obtain ⟨u, hu, hsub'⟩ := ih (if keep then first.seen else nodes) hrest'
          (Nat.le_trans (fresh_le_of_subset hkept) hbound)
        refine ⟨⟨⟨u.outcome.found, first.outcome.entered + u.outcome.entered⟩, u.seen⟩, ?_,
          fun z hz => hsub' z (hkept z hz)⟩
        simp [hfound, hu]

/-- A node of a domain is visited to the end within as many levels as there are
unseen nodes in the domain. -/
theorem exists_visit {p : Problem α} {domain : List α}
    (hclosed : ∀ x ∈ domain, ∀ y ∈ p.next x, y ∈ domain) :
    ∀ (depth : Nat) (nodes : List α) (x : α), x ∈ domain → x ∉ nodes →
      fresh domain nodes ≤ depth →
      ∃ v, visit p true depth nodes x = some v ∧ ∀ z ∈ nodes, z ∈ v.seen := by
  intro depth
  induction depth with
  | zero =>
    intro nodes x hx hnew hbound
    have hlt := fresh_cons_lt hx hnew
    omega
  | succ depth ih =>
    intro nodes x hx hnew hbound
    rw [visit]
    split
    · exact ⟨_, rfl, fun z hz => hz⟩
    · have hlt := fresh_cons_lt hx hnew
      obtain ⟨u, hu, hsub⟩ := exists_visitAll p.keep ih (p.next x) (x :: nodes) (hclosed x hx)
        (by omega)
      rw [hu]
      exact ⟨_, rfl, fun z hz => hsub z (List.mem_cons_of_mem _ hz)⟩

/-- The recursion from the origin of a bounded problem ends at some depth, and
all greater ones. -/
theorem Problem.Bounded.exists_visit {p : Problem α} {origin : α} (h : p.Bounded origin) :
    ∃ bound, ∀ depth, bound ≤ depth → ∃ v, visit p true depth [] origin = some v := by
  obtain ⟨domain, horigin, hclosed⟩ := h
  refine ⟨fresh domain [], fun depth hdepth => ?_⟩
  obtain ⟨v, hv, _⟩ := DepthFirst.exists_visit hclosed depth [] origin horigin (by simp) hdepth
  exact ⟨v, hv⟩

end BytePattern.DepthFirst
