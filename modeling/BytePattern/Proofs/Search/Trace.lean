import BytePattern.Proofs.Search.Memo
import BytePattern.Search.Course

set_option autoImplicit false

/-!
# Depth-first search: what is entered

Every search has a trace, whose nodes are as many as the search counts and can all
be reached from the origin.  Where what has been seen is kept, the nodes of a trace
are the seen ones, so no node is entered twice, and a child of one of them is among
them too or is still to be tried.  When nothing is left to be tried, the nodes are
therefore all that can be reached.
-/

namespace BytePattern.DepthFirst

variable {α : Type} [DecidableEq α] [Hashable α] {p : Problem α} {origin : α} {nodes : List α}
  {s t : Progress α}

/-! ## What is still to be tried -/

section

omit [DecidableEq α] [Hashable α]

/-- The second node is a child that the frame of the first has still to try. -/
def Pending (stack : List (Frame α)) (x y : α) : Prop := ∃ f ∈ stack, f.node = x ∧ y ∈ f.rest

variable {stack : List (Frame α)} {rest : List α} {x y z w : α}

theorem pending_cons :
    Pending (⟨x, rest⟩ :: stack) z w ↔ (x = z ∧ w ∈ rest) ∨ Pending stack z w := by
  unfold Pending
  rw [List.exists_mem_cons_iff]

/-- With one child more to try, what was to be tried is still to be tried. -/
theorem Pending.drop (h : Pending (⟨x, rest⟩ :: stack) z w) :
    Pending (⟨x, y :: rest⟩ :: stack) z w := by
  rcases pending_cons.1 h with ⟨hz, hw⟩ | hw
  · exact pending_cons.2 (Or.inl ⟨hz, List.mem_cons_of_mem _ hw⟩)
  · exact pending_cons.2 (Or.inr hw)

/-- With one child less to try, all but that child is still to be tried. -/
theorem Pending.eq_or_drop (h : Pending (⟨x, y :: rest⟩ :: stack) z w) :
    w = y ∨ Pending (⟨x, rest⟩ :: stack) z w := by
  rcases pending_cons.1 h with ⟨hz, hw⟩ | hw
  · rcases List.mem_cons.1 hw with hw | hw
    · exact Or.inl hw
    · exact Or.inr (pending_cons.2 (Or.inl ⟨hz, hw⟩))
  · exact Or.inr (pending_cons.2 (Or.inr hw))

end

/-! ## Every search has a trace -/

/-- A step leads from trace to trace. -/
theorem Trace.step (h : Trace p origin nodes s) (hst : s.step p = .inl t) :
    ∃ more, Trace p origin (more ++ nodes) t := by
  obtain ⟨stack, seen, entered⟩ := s
  match stack, h, hst with
  | [], _, hst => cases hst
  | ⟨x, []⟩ :: stack, h, hst =>
    obtain rfl := Sum.inl.inj hst
    exact ⟨[], h.leave⟩
  | ⟨x, y :: rest⟩ :: stack, h, hst =>
    rw [Progress.step] at hst
    split at hst
    · rename_i hy
      obtain rfl := Sum.inl.inj hst
      exact ⟨[], h.pass (Std.HashSet.contains_iff_mem.1 hy)⟩
    · rename_i hy
      have hy : y ∉ seen := fun hm => hy (Std.HashSet.contains_iff_mem.2 hm)
      split at hst
      · cases hst
      · rename_i hgoal
        obtain rfl := Sum.inl.inj hst
        exact ⟨[y], h.enter hy (Bool.eq_false_iff.2 hgoal)⟩

/-- From a trace the search goes on to a last one. -/
theorem Trace.exists_last (h : Trace p origin nodes s) (hacc : Acc (Progress.Before p) s) :
    ∃ later last, Trace p origin later last ∧ last.step p = .inr (s.run p hacc) := by
  induction hacc generalizing nodes with
  | intro s hs ih =>
    unfold Progress.run
    split
    · rename_i outcome hlast
      exact ⟨nodes, s, h, hlast⟩
    · rename_i t hst
      obtain ⟨more, htrace⟩ := h.step hst
      exact ih t hst htrace

/-- Every search enters some nodes. -/
theorem exists_entries (p : Problem α) (h : p.Bounded origin) :
    ∃ nodes, Entries p origin h nodes := by
  cases hgoal : p.goal origin with
  | true => exact ⟨[], .goal hgoal⟩
  | false =>
    obtain ⟨nodes, last, htrace, hlast⟩ := (Trace.start hgoal).exists_last h.acc
    refine ⟨nodes, .trace htrace ?_⟩
    unfold Problem.search
    rw [hgoal, if_neg Bool.false_ne_true]
    exact hlast

/-! ## Nodes entered -/

/-- The nodes of a trace are as many as the search has counted. -/
theorem Trace.entered_eq (h : Trace p origin nodes s) : s.entered = nodes.length := by
  induction h with
  | start _ => rfl
  | pass _ _ ih => exact ih
  | enter _ _ _ ih => exact congrArg Nat.succ ih
  | leave _ ih => exact ih

/-- The origin is entered first. -/
theorem Trace.origin_mem (h : Trace p origin nodes s) : origin ∈ nodes := by
  induction h with
  | start _ => exact List.mem_cons_self
  | pass _ _ ih => exact ih
  | enter _ _ _ ih => exact List.mem_cons_of_mem _ ih
  | leave _ ih => exact ih

/-- The path of a trace is of nodes that were entered. -/
theorem Trace.mem_of_mem_path (h : Trace p origin nodes s) : ∀ x ∈ path s.stack, x ∈ nodes := by
  induction h with
  | start _ => exact fun x hx => hx
  | pass _ _ ih => exact ih
  | enter _ _ _ ih =>
    exact List.forall_mem_cons.2
      ⟨List.mem_cons_self, fun x hx => List.mem_cons_of_mem _ (ih x hx)⟩
  | leave _ ih => exact (List.forall_mem_cons.1 ih).2

/-- What is still to be tried are children. -/
theorem Trace.mem_next (h : Trace p origin nodes s) {x y : α} (hy : Pending s.stack x y) :
    y ∈ p.next x := by
  induction h with
  | start _ =>
    rcases pending_cons.1 hy with ⟨rfl, hnext⟩ | ⟨f, hf, _⟩
    · exact hnext
    · cases hf
  | pass _ _ ih => exact ih hy.drop
  | enter _ _ _ ih =>
    rcases pending_cons.1 hy with ⟨rfl, hnext⟩ | hbefore
    · exact hnext
    · exact ih hbefore.drop
  | leave _ ih => exact ih (pending_cons.2 (Or.inr hy))

/-- Only what can be reached is entered. -/
theorem Trace.reaches (h : Trace p origin nodes s) : ∀ x ∈ nodes, Reaches p.next origin x := by
  induction h with
  | start _ =>
    intro x hx
    obtain rfl := List.mem_singleton.1 hx
    exact .refl
  | pass _ _ ih => exact ih
  | @enter nodes rest x y stack seen entered hbefore _ _ ih =>
    have hx : x ∈ nodes := hbefore.mem_of_mem_path x List.mem_cons_self
    have hy : y ∈ p.next x := hbefore.mem_next (pending_cons.2 (Or.inl ⟨rfl, List.mem_cons_self⟩))
    exact List.forall_mem_cons.2 ⟨(ih x hx).tail hy, ih⟩
  | leave _ ih => exact ih

/-! ## Where what has been seen is kept -/

section Keeping

variable (hkeep : p.keep = true)
include hkeep

/-- The seen nodes are the nodes of the trace. -/
theorem Trace.holds (h : Trace p origin nodes s) : Holds s.seen nodes := by
  induction h with
  | start _ => exact Holds.insert (fun x => by simp) origin
  | pass _ _ ih => exact ih
  | enter _ _ _ ih => exact ih.insert _
  | leave _ ih =>
    rw [if_pos hkeep]
    exact ih

/-- No node is entered twice. -/
theorem Trace.nodup (h : Trace p origin nodes s) : nodes.Nodup := by
  induction h with
  | start _ => exact List.nodup_cons.2 ⟨List.not_mem_nil, List.nodup_nil⟩
  | pass _ _ ih => exact ih
  | enter hbefore hy _ ih =>
    exact List.nodup_cons.2 ⟨fun hm => hy ((hbefore.holds hkeep _).2 hm), ih⟩
  | leave _ ih => exact ih

/-- A child of a node of the trace is one of its nodes or is still to be tried. -/
theorem Trace.mem_or_pending (h : Trace p origin nodes s) {x y : α} (hx : x ∈ nodes)
    (hy : y ∈ p.next x) : y ∈ nodes ∨ Pending s.stack x y := by
  induction h with
  | start _ =>
    obtain rfl := List.mem_singleton.1 hx
    exact Or.inr (pending_cons.2 (Or.inl ⟨rfl, hy⟩))
  | pass hbefore hz ih =>
    rcases ih hx with hmem | hpending
    · exact Or.inl hmem
    · rcases hpending.eq_or_drop with rfl | hpending
      · exact Or.inl ((hbefore.holds hkeep _).1 hz)
      · exact Or.inr hpending
  | enter _ _ _ ih =>
    rcases List.mem_cons.1 hx with rfl | hx
    · exact Or.inr (pending_cons.2 (Or.inl ⟨rfl, hy⟩))
    · rcases ih hx with hmem | hpending
      · exact Or.inl (List.mem_cons_of_mem _ hmem)
      · rcases hpending.eq_or_drop with rfl | hpending
        · exact Or.inl List.mem_cons_self
        · exact Or.inr (pending_cons.2 (Or.inr hpending))
  | leave _ ih =>
    rcases ih hx with hmem | hpending
    · exact Or.inl hmem
    · rcases pending_cons.1 hpending with ⟨_, hnone⟩ | hpending
      · cases hnone
      · exact Or.inr hpending

/-- When nothing is left to be tried, all that can be reached has been entered. -/
theorem Trace.mem_of_reaches (h : Trace p origin nodes s) (hstack : s.stack = []) {x : α}
    (hx : Reaches p.next origin x) : x ∈ nodes := by
  induction hx with
  | refl => exact h.origin_mem
  | tail _ hy ih =>
    rcases h.mem_or_pending hkeep ih hy with hmem | ⟨f, hf, _⟩
    · exact hmem
    · rw [hstack] at hf
      cases hf

end Keeping

end BytePattern.DepthFirst
