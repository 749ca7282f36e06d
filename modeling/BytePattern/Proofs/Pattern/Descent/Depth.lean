import BytePattern.Pattern.Descent

set_option autoImplicit false

/-!
# Patterns: deeper descents

What a descent finds when its calls may nest so deep, it finds as well when they may nest
deeper.  So the number only decides whether there is a result, and not which.
-/

namespace BytePattern

namespace Descent

/-! ## Descents that find more -/

section

variable {α β : Type}

/-- Wherever the first descent has a result, the second has the same. -/
def FindsMore (m n : Descent α) : Prop :=
  ∀ c result, m.run.run c = some result → n.run.run c = some result

theorem FindsMore.refl (m : Descent α) : FindsMore m m := fun _ _ h => h

theorem findsMore_stuck (m : Descent α) : FindsMore stuck m :=
  fun _ _ h => absurd (h.symm.trans rfl) (Option.some_ne_none _)

theorem FindsMore.bind {m n : Descent β} {f g : β → Descent α} (h : FindsMore m n)
    (hthen : ∀ b, FindsMore (f b) (g b)) : FindsMore (m >>= f) (n >>= g) := by
  intro c result
  rw [ExceptT.run_bind, StateT.run_bind, ExceptT.run_bind, StateT.run_bind]
  intro hresult
  obtain ⟨⟨outcome, d⟩, hrun, hrest⟩ := Option.bind_eq_some_iff.1 hresult
  refine Option.bind_eq_some_iff.2 ⟨⟨outcome, d⟩, h c _ hrun, ?_⟩
  cases outcome with
  | error e => exact hrest
  | ok b => exact hthen b d result hrest

theorem FindsMore.then {m : Descent β} {f g : β → Descent α}
    (hthen : ∀ b, FindsMore (f b) (g b)) : FindsMore (m >>= f) (m >>= g) :=
  (FindsMore.refl m).bind hthen

end

/-! ## The procedures -/

section

variable (pattern : List UInt8)

theorem findsMore_ranges (opened depth : Nat) (found : List (UInt8 × UInt8)) :
    FindsMore (ranges pattern opened depth found) (ranges pattern opened (depth + 1) found) := by
  induction depth generalizing found with
  | zero => exact findsMore_stuck _
  | succ depth ih =>
    rw [ranges, ranges]
    refine .then fun start => .then fun next => ?_
    cases next with
    | none => exact .refl _
    | some b =>
      dsimp only
      split
      · exact .refl _
      split
      · refine .then fun high => ?_
        cases high with
        | none => exact .refl _
        | some high =>
          cases found with
          | nil => exact .refl _
          | cons range before => exact ih _
      · exact ih _

theorem findsMore_bracket (depth : Nat) (context : List Token) :
    FindsMore (bracket pattern depth context) (bracket pattern (depth + 1) context) :=
  .then fun _ => .then fun _ => (findsMore_ranges pattern _ depth []).bind fun _ => .refl _

/-- One more level makes each of the procedures find more. -/
structure Deepens (depth : Nat) : Prop where
  sequence : ∀ opened alternative, FindsMore (sequence pattern depth opened alternative)
    (sequence pattern (depth + 1) opened alternative)
  parts : ∀ opened alternative context,
    FindsMore (parts pattern depth opened alternative context)
      (parts pattern (depth + 1) opened alternative context)
  part : ∀ opened context, FindsMore (part pattern depth opened context)
    (part pattern (depth + 1) opened context)
  begun : ∀ opened context b, FindsMore (begun pattern depth opened context b)
    (begun pattern (depth + 1) opened context b)
  group : ∀ context, FindsMore (group pattern depth context) (group pattern (depth + 1) context)
  bar : ∀ opened context, FindsMore (bar pattern depth opened context)
    (bar pattern (depth + 1) opened context)

theorem deepens (depth : Nat) : Deepens pattern depth := by
  induction depth with
  | zero =>
    exact ⟨fun _ _ => findsMore_stuck _, fun _ _ _ => findsMore_stuck _,
      fun _ _ => findsMore_stuck _, fun _ _ _ => findsMore_stuck _,
      fun _ => findsMore_stuck _, fun _ _ => findsMore_stuck _⟩
  | succ depth ih =>
    refine ⟨fun opened alternative => ?sequence, fun opened alternative context => ?parts,
      fun opened context => ?part, fun opened context b => ?begun, fun context => ?group,
      fun opened context => ?bar⟩
    case sequence =>
      rw [Descent.sequence, Descent.sequence]
      exact .then fun _ => (ih.parts _ _ _).bind fun _ => .refl _
    case parts =>
      rw [Descent.parts, Descent.parts]
      refine .then fun next => ?_
      split
      · exact .refl _
      · exact .refl _
      split
      · exact .refl _
      split
      · exact .refl _
      · exact (ih.part _ _).bind fun _ => ih.parts _ _ _
    case part =>
      rw [Descent.part, Descent.part]
      refine .then fun start => .then fun next => ?_
      cases next with
      | none => exact .refl _
      | some b => exact (ih.begun _ _ _).bind fun _ => .refl _
    case begun =>
      rw [Descent.begun, Descent.begun]
      split
      · exact ih.group _
      split
      · exact findsMore_bracket pattern depth _
      split
      · exact .refl _
      split
      · exact .refl _
      split
      · exact ih.bar _ _
      · exact .refl _
    case group =>
      rw [Descent.group, Descent.group]
      exact .then fun _ => .then fun _ => (ih.sequence _ _).bind fun _ => .refl _
    case bar =>
      rw [Descent.bar, Descent.bar]
      exact .then fun _ => .then fun _ => .then fun _ => (ih.sequence _ _).bind fun _ => .refl _

/-- A result that a descent has at one depth it has at every greater one. -/
theorem ofPattern_of_le {depth deeper : Nat} (hle : depth ≤ deeper)
    {result : Except PatternError (List Token) × Course}
    (h : ofPattern depth pattern = some result) : ofPattern deeper pattern = some result := by
  induction hle with
  | refl => exact h
  | step _ ih => exact (deepens pattern _).sequence none false _ _ ih

end

end Descent

end BytePattern
