import BytePattern.Proofs.Search.Trace
import Mathlib.Data.Set.Card

set_option autoImplicit false

/-!
# Depth-first search: what a search costs

A search that fails has tried everything, and how many nodes it entered can be
said of the graph alone.  Where what has been seen is kept, each node that can be
reached was entered once.  Otherwise a node is entered once for each path that
leads to it without coming to any node twice: a visit of a node enters that node,
and for each child what the visit of the child enters, just as the simple paths
from a node are the node by itself and those that go on from its children.
-/

namespace BytePattern.DepthFirst

variable {α : Type}

/-! ## Counting by enumerating -/

/-- The list has what the property holds of, each once. -/
structure Enumerates {β : Type} (list : List β) (holds : β → Prop) : Prop where
  nodup : list.Nodup
  mem_iff : ∀ x, x ∈ list ↔ holds x

theorem Enumerates.encard_eq {β : Type} [DecidableEq β] {list : List β} {holds : β → Prop}
    (h : Enumerates list holds) : {x | holds x}.encard = list.length := by
  have hset : {x | holds x} = (list.toFinset : Set β) := by
    ext x
    rw [List.coe_toFinset]
    exact (h.mem_iff x).symm
  rw [hset, Set.encard_coe_eq_coe_finsetCard, List.toFinset_card_of_nodup h.nodup]

/-! ## Simple paths that avoid nodes -/

/-- A simple path from a node that comes to none of the nodes to avoid. -/
def Route (next : α → List α) (avoid : List α) (x : α) (path : List α) : Prop :=
  SimplePath next x path ∧ ∀ z ∈ path, z ∉ avoid

section

variable {next : α → List α} {avoid path : List α} {x y : α}

theorem route_nil_iff : Route next [] x path ↔ SimplePath next x path :=
  ⟨And.left, fun h => ⟨h, fun _ _ => List.not_mem_nil⟩⟩

theorem Route.head?_eq (h : Route next avoid x path) : path.head? = some x := h.1.head

theorem Route.not_mem (h : Route next avoid x path) : x ∉ avoid :=
  h.2 x (List.mem_of_head? h.head?_eq)

/-- Where a path may go from a node: nowhere, or along a path from a child that
avoids the node as well. -/
theorem route_iff (hx : x ∉ avoid) : Route next avoid x path ↔
    path = [x] ∨ ∃ rest, path = x :: rest ∧ ∃ y ∈ next x, Route next (x :: avoid) y rest := by
  constructor
  · intro h
    obtain ⟨⟨hhead, hchain, hnodup⟩, havoid⟩ := h
    match path, hhead, hchain, hnodup, havoid with
    | [z], hhead, _, _, _ =>
      obtain rfl := Option.some.inj hhead
      exact Or.inl rfl
    | z :: y :: rest, hhead, hchain, hnodup, havoid =>
      obtain rfl := Option.some.inj hhead
      obtain ⟨hy, hrest⟩ := List.isChain_cons_cons.1 hchain
      obtain ⟨hz, hnodup⟩ := List.nodup_cons.1 hnodup
      refine Or.inr ⟨_, rfl, y, hy, ⟨rfl, hrest, hnodup⟩, fun w hw => ?_⟩
      rw [List.mem_cons, not_or]
      exact ⟨fun heq => hz (heq ▸ hw), havoid w (List.mem_cons_of_mem _ hw)⟩
  · rintro (rfl | ⟨rest, rfl, y, hy, ⟨⟨hhead, hchain, hnodup⟩, havoid⟩⟩)
    · refine ⟨⟨rfl, .singleton x, List.nodup_cons.2 ⟨List.not_mem_nil, List.nodup_nil⟩⟩, ?_⟩
      exact fun z hz => List.mem_singleton.1 hz ▸ hx
    · have hxrest : x ∉ rest := fun hm => havoid x hm List.mem_cons_self
      have holds : ∀ z ∈ rest, z ∉ avoid := fun z hz hm => havoid z hz (List.mem_cons_of_mem _ hm)
      refine ⟨⟨rfl, ?_, List.nodup_cons.2 ⟨hxrest, hnodup⟩⟩,
        List.forall_mem_cons.2 ⟨hx, holds⟩⟩
      cases rest with
      | nil => cases hhead
      | cons z rest =>
        obtain rfl := Option.some.inj hhead
        exact .cons_cons hy hchain

/-- One path of no edge, and the others. -/
theorem Enumerates.routes {paths : List (List α)} (hx : x ∉ avoid)
    (h : Enumerates paths fun rest => ∃ y ∈ next x, Route next (x :: avoid) y rest) :
    Enumerates ([x] :: paths.map (x :: ·)) (Route next avoid x) := by
  constructor
  · refine List.nodup_cons.2 ⟨fun hm => ?_, h.nodup.map fun _ _ heq => (List.cons.inj heq).2⟩
    obtain ⟨rest, hrest, heq⟩ := List.mem_map.1 hm
    obtain ⟨y, _, hroute⟩ := (h.mem_iff rest).1 hrest
    have hhead := hroute.head?_eq
    rw [(List.cons.inj heq).2] at hhead
    cases hhead
  · intro path
    rw [route_iff hx, List.mem_cons, List.mem_map]
    simp only [h.mem_iff]
    refine or_congr_right ⟨?_, ?_⟩
    · rintro ⟨rest, hrest, rfl⟩
      exact ⟨rest, rfl, hrest⟩
    · rintro ⟨rest, rfl, hrest⟩
      exact ⟨rest, hrest, rfl⟩

/-- The paths from one child, and those from the others. -/
theorem Enumerates.routes_append {first others : List (List α)} {rest : List α}
    (hy : y ∉ rest) (h : Enumerates first (Route next avoid y))
    (hothers : Enumerates others fun path => ∃ z ∈ rest, Route next avoid z path) :
    Enumerates (first ++ others) fun path => ∃ z ∈ y :: rest, Route next avoid z path := by
  constructor
  · refine List.nodup_append.2 ⟨h.nodup, hothers.nodup, ?_⟩
    rintro path hfirst _ hother rfl
    obtain ⟨z, hz, hroute⟩ := (hothers.mem_iff path).1 hother
    have hhead := ((h.mem_iff path).1 hfirst).head?_eq
    obtain rfl := Option.some.inj (hhead.symm.trans hroute.head?_eq)
    exact hy hz
  · intro path
    rw [List.mem_append, h.mem_iff, hothers.mem_iff, List.exists_mem_cons_iff]

/-- A child to avoid is the beginning of no path. -/
theorem Enumerates.routes_pass {paths : List (List α)} {rest : List α} (hy : y ∈ avoid)
    (h : Enumerates paths fun path => ∃ z ∈ rest, Route next avoid z path) :
    Enumerates paths fun path => ∃ z ∈ y :: rest, Route next avoid z path := by
  refine ⟨h.nodup, fun path => ?_⟩
  rw [h.mem_iff, List.exists_mem_cons_iff, or_iff_right fun hroute => hroute.not_mem hy]

end

/-! ## The forgetful search -/

section Forgetting

variable [DecidableEq α] {next : α → List α} {goal : α → Bool}

/-- Children visited in vain cost as much as there are paths from them, if that
holds of each child. -/
theorem exists_routes_visitAll {visitChild : List α → α → Option (Visit α)} {nodes : List α}
    (hchild : ∀ (y : α) (v : Visit α), y ∉ nodes → visitChild nodes y = some v →
      v.outcome.found = false →
      ∃ paths, Enumerates paths (Route next nodes y) ∧ paths.length = v.outcome.entered) :
    ∀ (rest : List α) (u : Visit α), rest.Nodup →
      visitAll visitChild true false nodes rest = some u → u.outcome.found = false →
      ∃ paths, Enumerates paths (fun path => ∃ y ∈ rest, Route next nodes y path) ∧
        paths.length = u.outcome.entered := by
  intro rest
  induction rest with
  | nil =>
    intro u _ hu _
    rw [visitAll] at hu
    obtain rfl := Option.some.inj hu
    exact ⟨[], ⟨List.nodup_nil, fun path => by simp⟩, rfl⟩
  | cons y rest ih =>
    intro u hnodup hu hfailed
    obtain ⟨hyrest, hnodup⟩ := List.nodup_cons.1 hnodup
    rw [visitAll] at hu
    split at hu
    · rename_i hy
      obtain ⟨paths, hpaths, hlength⟩ := ih u hnodup hu hfailed
      exact ⟨paths, hpaths.routes_pass hy.2, hlength⟩
    · rename_i hy
      have hy : y ∉ nodes := fun hm => hy ⟨rfl, hm⟩
      split at hu
      · cases hu
      · rename_i first hfirst
        split at hu
        · rename_i hfound
          obtain rfl := Option.some.inj hu
          rw [hfound] at hfailed
          cases hfailed
        · rename_i hfound
          split at hu
          · cases hu
          · rename_i others hothers
            obtain rfl := Option.some.inj hu
            obtain ⟨paths, hpaths, hlength⟩ := hchild y first hy hfirst (Bool.eq_false_iff.2 hfound)
            obtain ⟨more, hmore, hlength'⟩ := ih others hnodup hothers hfailed
            refine ⟨paths ++ more, hpaths.routes_append hyrest hmore, ?_⟩
            rw [List.length_append, hlength, hlength']

/-- A node visited in vain costs as much as there are paths from it that avoid its
ancestors. -/
theorem exists_routes_visit (hnext : ∀ x, (next x).Nodup) :
    ∀ (depth : Nat) (nodes : List α) (x : α) (v : Visit α), x ∉ nodes →
      visit ⟨next, goal, false⟩ true depth nodes x = some v → v.outcome.found = false →
      ∃ paths, Enumerates paths (Route next nodes x) ∧ paths.length = v.outcome.entered := by
  intro depth
  induction depth with
  | zero =>
    intro nodes x v _ hv
    cases hv
  | succ depth ih =>
    intro nodes x v hx hv hfailed
    rw [visit] at hv
    split at hv
    · obtain rfl := Option.some.inj hv
      cases hfailed
    · split at hv
      · cases hv
      · rename_i u hu
        obtain rfl := Option.some.inj hv
        obtain ⟨paths, hpaths, hlength⟩ := exists_routes_visitAll
          (fun y w => ih (x :: nodes) y w) (next x) u (hnext x) hu hfailed
        refine ⟨[x] :: paths.map (x :: ·), hpaths.routes hx, ?_⟩
        rw [List.length_cons, List.length_map, hlength]

variable [Hashable α] {origin : α}

/-- A forgetful search that fails has entered as many nodes as there are simple
paths from its origin. -/
theorem encard_simplePath (hnext : ∀ x, (next x).Nodup)
    (h : Problem.Bounded ⟨next, goal, false⟩ origin)
    (hfailed : (Problem.search ⟨next, goal, false⟩ origin h).found = false) :
    {path | SimplePath next origin path}.encard =
      (Problem.search ⟨next, goal, false⟩ origin h).entered := by
  obtain ⟨depth, hdepth⟩ := h.exists_visit
  obtain ⟨v, hv⟩ := hdepth depth (Nat.le_refl _)
  rw [search_eq_of_visit h hv] at hfailed ⊢
  obtain ⟨paths, hpaths, hlength⟩ :=
    exists_routes_visit hnext depth [] origin v List.not_mem_nil hv hfailed
  rw [← hlength, ← hpaths.encard_eq]
  simp only [route_nil_iff]

end Forgetting

/-! ## The keeping search -/

section Keeping

variable [DecidableEq α] [Hashable α] {p : Problem α} {origin : α} {nodes : List α}
  {h : p.Bounded origin}

theorem Progress.step_eq_inr {s : Progress α} {o : Outcome} (hs : s.step p = .inr o) :
    o.entered = s.entered ∧ (o.found = false → s.stack = []) := by
  obtain ⟨stack, seen, entered⟩ := s
  match stack, hs with
  | [], hs =>
    obtain rfl := Sum.inr.inj hs
    exact ⟨rfl, fun _ => rfl⟩
  | ⟨x, []⟩ :: stack, hs => cases hs
  | ⟨x, y :: rest⟩ :: stack, hs =>
    rw [Progress.step] at hs
    split at hs
    · cases hs
    · split at hs
      · obtain rfl := Sum.inr.inj hs
        exact ⟨rfl, fun hfound => Bool.noConfusion hfound⟩
      · cases hs

theorem search_of_goal (hgoal : p.goal origin = true) : p.search origin h = ⟨true, 0⟩ := by
  unfold Problem.search
  rw [if_pos hgoal]

/-- A search counts the nodes that it enters. -/
theorem Entries.length_eq (he : Entries p origin h nodes) :
    nodes.length = (p.search origin h).entered := by
  cases he with
  | goal hgoal =>
    rw [search_of_goal hgoal]
    rfl
  | trace htrace hlast =>
    rw [(Progress.step_eq_inr hlast).1]
    exact htrace.entered_eq.symm

/-- Only what can be reached is entered. -/
theorem Entries.reaches (he : Entries p origin h nodes) :
    ∀ x ∈ nodes, Reaches p.next origin x := by
  cases he with
  | goal _ => exact fun x hx => absurd hx List.not_mem_nil
  | trace htrace _ => exact htrace.reaches

/-- A keeping search enters no node twice. -/
theorem Entries.nodup (he : Entries p origin h nodes) (hkeep : p.keep = true) :
    nodes.Nodup := by
  cases he with
  | goal _ => exact List.nodup_nil
  | trace htrace _ => exact htrace.nodup hkeep

/-- A keeping search that fails enters all that can be reached. -/
theorem Entries.enumerates (he : Entries p origin h nodes) (hkeep : p.keep = true)
    (hfailed : (p.search origin h).found = false) :
    Enumerates nodes (Reaches p.next origin) := by
  refine ⟨he.nodup hkeep, fun x => ⟨he.reaches x, fun hx => ?_⟩⟩
  cases he with
  | goal hgoal =>
    rw [search_of_goal hgoal] at hfailed
    cases hfailed
  | trace htrace hlast =>
    exact htrace.mem_of_reaches hkeep ((Progress.step_eq_inr hlast).2 hfailed) hx

/-- A keeping search that fails has entered as many nodes as can be reached from
its origin. -/
theorem encard_reaches (hkeep : p.keep = true) (hfailed : (p.search origin h).found = false) :
    {x | Reaches p.next origin x}.encard = (p.search origin h).entered := by
  obtain ⟨nodes, he⟩ := exists_entries p h
  rw [(he.enumerates hkeep hfailed).encard_eq, he.length_eq]

/-- A keeping search enters no more nodes than a list has that includes all that
can be reached. -/
theorem entered_le_length (hkeep : p.keep = true) {domain : List α}
    (hdomain : ∀ x, Reaches p.next origin x → x ∈ domain) :
    (p.search origin h).entered ≤ domain.length := by
  obtain ⟨nodes, he⟩ := exists_entries p h
  rw [← he.length_eq]
  have hsub : nodes ⊆ domain := fun x hx => hdomain x (he.reaches x hx)
  exact (List.subperm_of_subset (he.nodup hkeep) hsub).length_le

end Keeping

end BytePattern.DepthFirst
