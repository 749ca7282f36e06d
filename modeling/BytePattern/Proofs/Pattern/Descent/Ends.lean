import BytePattern.Pattern.Descent

set_option autoImplicit false

/-!
# Patterns: descents that end

A descent may have no result.  That it has one is said together with what the result is:
`Ends` names the errors and the values that it may end with, each with the course after it.
A descent that is made of others ends when these do, one after the other, so what a
procedure does is read off its text call by call.
-/

namespace BytePattern

namespace Descent

/-! ## Descents that end -/

section

variable {α β : Type} {c : Course} {fail fail' : PatternError → Course → Prop}
  {ok ok' : α → Course → Prop} {pattern : List UInt8}

/-- The descent has a result: an error and a course that `fail` admits, or a value and a
course that `ok` admits. -/
def Ends (m : Descent α) (c : Course) (fail : PatternError → Course → Prop)
    (ok : α → Course → Prop) : Prop :=
  (∃ e d, m.run.run c = some (.error e, d) ∧ fail e d) ∨
    ∃ a d, m.run.run c = some (.ok a, d) ∧ ok a d

theorem Ends.mono {m : Descent α} (h : Ends m c fail ok)
    (hfail : ∀ {e d}, fail e d → fail' e d) (hok : ∀ {a d}, ok a d → ok' a d) :
    Ends m c fail' ok' := by
  rcases h with ⟨e, d, hrun, he⟩ | ⟨a, d, hrun, ha⟩
  · exact Or.inl ⟨e, d, hrun, hfail he⟩
  · exact Or.inr ⟨a, d, hrun, hok ha⟩

theorem ends_of_run_error {m : Descent α} {e : PatternError} {d : Course}
    (h : m.run.run c = some (.error e, d)) : Ends m c fail ok ↔ fail e d := by
  refine ⟨?_, fun he => Or.inl ⟨e, d, h, he⟩⟩
  rintro (⟨e', d', hrun, he⟩ | ⟨a, d', hrun, _⟩)
  · obtain ⟨rfl, rfl⟩ : e = e' ∧ d = d' := by simpa [h] using hrun
    exact he
  · exact absurd (h.symm.trans hrun) (by simp)

theorem ends_of_run_ok {m : Descent α} {a : α} {d : Course}
    (h : m.run.run c = some (.ok a, d)) : Ends m c fail ok ↔ ok a d := by
  refine ⟨?_, fun ha => Or.inr ⟨a, d, h, ha⟩⟩
  rintro (⟨e, d', hrun, _⟩ | ⟨a', d', hrun, ha⟩)
  · exact absurd (h.symm.trans hrun) (by simp)
  · obtain ⟨rfl, rfl⟩ : a = a' ∧ d = d' := by simpa [h] using hrun
    exact ha

theorem not_ends_of_run_none {m : Descent α} (h : m.run.run c = none) :
    ¬ Ends m c fail ok := by
  simp [Ends, h]

theorem ends_pure (a : α) : Ends (pure a) c fail ok ↔ ok a c := ends_of_run_ok rfl

theorem ends_throw (e : PatternError) : Ends (throw e) c fail ok ↔ fail e c :=
  ends_of_run_error rfl

/-- One descent after another ends when the first does and the second does from where the
first has come to. -/
theorem ends_bind {m : Descent β} {f : β → Descent α} :
    Ends (m >>= f) c fail ok ↔ Ends m c fail fun a d => Ends (f a) d fail ok := by
  cases hrun : m.run.run c with
  | none =>
    have hnone : (m >>= f).run.run c = none := by
      rw [ExceptT.run_bind, StateT.run_bind, hrun]
      rfl
    exact iff_of_false (not_ends_of_run_none hnone) (not_ends_of_run_none hrun)
  | some result =>
    obtain ⟨outcome, d⟩ := result
    cases outcome with
    | error e =>
      have herror : (m >>= f).run.run c = some (.error e, d) := by
        rw [ExceptT.run_bind, StateT.run_bind, hrun]
        rfl
      rw [ends_of_run_error hrun, ends_of_run_error herror]
    | ok a =>
      have hok : (m >>= f).run.run c = (f a).run.run d := by
        rw [ExceptT.run_bind, StateT.run_bind, hrun]
        rfl
      rw [ends_of_run_ok hrun]
      unfold Ends
      rw [hok]

/-! ## The cursor -/

theorem ends_cursor {ok : Nat → Course → Prop} : Ends cursor c fail ok ↔ ok c.cursor c :=
  ends_of_run_ok rfl

theorem ends_peek {ok : Option UInt8 → Course → Prop} :
    Ends (peek pattern) c fail ok ↔ ok pattern[c.cursor]? c := ends_of_run_ok rfl

theorem ends_advance {count : Nat} {ok : Unit → Course → Prop} :
    Ends (advance count) c fail ok ↔ ok () (c.advanced count) := ends_of_run_ok rfl

theorem ends_returning {procedure : Procedure} {before : Nat} {tokens : List Token}
    {ok : List Token → Course → Prop} :
    Ends (returning procedure before tokens) c fail ok ↔
      ok tokens (c.returned procedure before tokens) := ends_of_run_ok rfl

theorem ends_take_some {b : UInt8} {ok : Option UInt8 → Course → Prop}
    (h : pattern[c.cursor]? = some b) :
    Ends (take pattern) c fail ok ↔ ok (some b) (c.advanced 1) := by
  unfold take
  simp only [ends_bind, ends_peek, h, ends_advance, ends_pure]

theorem ends_take_none {ok : Option UInt8 → Course → Prop} (h : pattern[c.cursor]? = none) :
    Ends (take pattern) c fail ok ↔ ok none c := by
  unfold take
  simp only [ends_bind, ends_peek, h, ends_pure]

theorem ends_expect {b : UInt8} {ok : Unit → Course → Prop} (h : pattern[c.cursor]? = some b) :
    Ends (expect pattern b) c fail ok ↔ ok () (c.advanced 1) := by
  unfold expect
  simp only [ends_bind, ends_peek, h, if_true, ends_advance]

/-- From inside the pattern the slice up to a byte is there. -/
theorem ends_takeUntil {b : UInt8} {ok : Option (List UInt8) → Course → Prop}
    (h : c.cursor ≤ pattern.length) :
    Ends (takeUntil pattern b) c fail ok ↔
      if b ∈ pattern.drop c.cursor then
        ok (some ((pattern.drop c.cursor).takeWhile fun a => a ≠ b))
          (c.advanced (((pattern.drop c.cursor).takeWhile fun a => a ≠ b).length + 1))
      else ok none c := by
  unfold takeUntil rest
  simp only [ends_bind, ends_cursor, h, if_true, ends_pure]
  split
  · simp only [ends_bind, ends_advance, ends_pure]
  · simp only [ends_pure]

end

/-! ## Safe courses -/

section

variable {pattern : List UInt8} {c : Course}

theorem safe_start (pattern : List UInt8) : Course.start.Safe pattern := by
  refine ⟨fun offset hoffset => ?_, List.pairwise_singleton _ 0, List.forall_mem_nil _⟩
  rw [List.mem_singleton.1 hoffset]
  exact Nat.zero_le _

theorem Course.Safe.cursor_le (h : c.Safe pattern) : c.cursor ≤ pattern.length :=
  h.inside _ List.mem_cons_self

theorem Course.Safe.advanced (h : c.Safe pattern) {count : Nat}
    (hle : c.cursor + count ≤ pattern.length) : (c.advanced count).Safe pattern := by
  refine ⟨List.forall_mem_cons.2 ⟨hle, h.inside⟩, List.pairwise_cons.2 ⟨?_, h.forward⟩, h.returns⟩
  refine List.forall_mem_cons.2 ⟨Nat.le_add_right _ _, fun offset hoffset => ?_⟩
  exact Nat.le_trans ((List.pairwise_cons.1 h.forward).1 offset hoffset) (Nat.le_add_right _ _)

/-- A byte that stands at the cursor can be passed. -/
theorem Course.Safe.advanced_one (h : c.Safe pattern) {b : UInt8}
    (hb : pattern[c.cursor]? = some b) : (c.advanced 1).Safe pattern :=
  h.advanced (List.getElem?_eq_some_iff.1 hb).1

theorem Course.Safe.returned (h : c.Safe pattern) {procedure : Procedure} {before : Nat}
    {tokens : List Token} (hbefore : before ≤ c.cursor)
    (hends : ∀ opened alternative, procedure = .sequence opened alternative →
      SequenceEnds pattern opened c.cursor)
    (hpart : procedure = .part → before < c.cursor ∧ tokens ≠ []) :
    (c.returned procedure before tokens).Safe pattern :=
  ⟨h.inside, h.forward,
    List.forall_mem_cons.2 ⟨⟨hbefore, h.cursor_le, hends, hpart⟩, h.returns⟩⟩

end

end Descent

end BytePattern
