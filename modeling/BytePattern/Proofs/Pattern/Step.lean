import BytePattern.Pattern.Grammar
import BytePattern.Pattern.Reader
import BytePattern.Proofs.Pattern.Braces

set_option autoImplicit false

/-!
# Patterns: what one byte can do

All that a reader can do with a byte, as a relation with one rule for each way of
taking it.  Everything proved of a reader by going along its bytes is proved rule
by rule; the definition of a step is opened here alone.
-/

namespace BytePattern

open Grammar

/-! ## Where a reader stands -/

/-- Where a sequence stands that goes on after some of its alternatives. -/
def Grammar.Mode.after (mode : Mode) (ended : List (List Token)) : Mode :=
  match ended with
  | [] => mode
  | _ :: _ => mode.afterBar

/-- Where the sequence in some groups begins. -/
def Grammar.Mode.within (outer : List (Nat × Level)) : Mode :=
  match outer with
  | [] => .top
  | _ :: _ => .group

theorem Grammar.Mode.afterBar_after (mode : Mode) (ended : List (List Token)) :
    (mode.after ended).afterBar = mode.afterBar := by
  cases ended with
  | nil => rfl
  | cons _ _ => cases mode <;> rfl

theorem Grammar.Mode.afterBar_ne_top (mode : Mode) : mode.afterBar ≠ .top := by
  cases mode <;> decide

theorem Grammar.Mode.eq_top_of_after {mode : Mode} {ended : List (List Token)}
    (h : mode.after ended = .top) : mode = .top := by
  cases ended with
  | nil => exact h
  | cons _ _ => exact absurd h mode.afterBar_ne_top

namespace Reader

/-- Where the next item of a reader stands. -/
def mode (r : Reader) : Mode := (Mode.within r.outer).after r.level.ended

theorem mode_eq_top {r : Reader} : r.mode = .top ↔ r.outer = [] ∧ r.level.ended = [] := by
  unfold mode
  cases r.outer with
  | nil =>
    cases r.level.ended with
    | nil => exact iff_of_true rfl ⟨rfl, rfl⟩
    | cons _ _ => exact iff_of_false nofun nofun
  | cons _ _ =>
    cases r.level.ended with
    | nil => exact iff_of_false nofun nofun
    | cons _ _ => exact iff_of_false nofun nofun

/-! ## Steps -/

/-- A byte takes the reader to another one. -/
inductive Step (r : Reader) : UInt8 → Reader → Prop where
  | openGroup : r.context = .items →
      Step r Mark.openGroup ⟨r.offset + 1, .items, .empty, (r.offset, r.level) :: r.outer⟩
  | closeGroup {opened : Nat} {around : Level} {outer : List (Nat × Level)} {tokens : List Token} :
      r.context = .items → r.outer = (opened, around) :: outer → r.level.tokens? = some tokens →
      Step r Mark.closeGroup ⟨r.offset + 1, .items, around.push (.group tokens), outer⟩
  | openBracket : r.context = .items →
      Step r Mark.openBracket (r.next (.bracket r.offset []) r.level)
  | openCounts : r.context = .items →
      Step r Mark.openCounts (r.next (.counts r.offset []) r.level)
  | bar {level : Level} : r.context = .items → r.level.bar? = some level →
      Step r Mark.bar (r.next .items level)
  | quantify {b : UInt8} {q : Quantifier} {level : Level} : r.context = .items →
      Quantifier.ofByte? b = some q → r.level.quantify? q = some level →
      Step r b (r.next .items level)
  | plain {b : UInt8} : r.context = .items → Plain r.mode b →
      Step r b (r.next .items (r.level.push (.literal b)))
  | single {opened : Nat} {ranges : List (UInt8 × UInt8)} {b : UInt8} :
      r.context = .bracket opened ranges → b ≠ Mark.closeBracket → b ≠ Mark.dash →
      Step r b (r.next (.bracket opened ((b, b) :: ranges)) r.level)
  | dash {opened : Nat} {ranges : List (UInt8 × UInt8)} : r.context = .bracket opened ranges →
      Step r Mark.dash (r.next (.range opened r.offset ranges) r.level)
  | closeBracket {opened : Nat} {ranges : List (UInt8 × UInt8)} :
      r.context = .bracket opened ranges →
      Step r Mark.closeBracket (r.next .items (r.level.push (.bracket (.ofRanges ranges))))
  | extend {opened dash : Nat} {low high b : UInt8} {ranges : List (UInt8 × UInt8)} :
      r.context = .range opened dash ((low, high) :: ranges) →
      Step r b (r.next (.bracket opened ((low, b) :: ranges)) r.level)
  | count {opened : Nat} {body : List UInt8} {b : UInt8} : r.context = .counts opened body →
      b ≠ Mark.closeCounts → Step r b (r.next (.counts opened (b :: body)) r.level)
  | closeCounts {opened : Nat} {body : List UInt8} {q : Quantifier} {level : Level} :
      r.context = .counts opened body → Quantifier.ofBody body.reverse = .ok q →
      r.level.quantify? q = some level → Step r Mark.closeCounts (r.next .items level)

theorem Step.offset {r s : Reader} {b : UInt8} (h : Step r b s) : s.offset = r.offset + 1 := by
  cases h <;> rfl

/-! ## The rules are the steps -/

theorem step_items {r : Reader} (h : r.context = .items) (b : UInt8) :
    r.step b = r.stepItems b := by
  rw [step, h]

theorem nextOr_eq_ok {r s : Reader} {fault : Fault} {level? : Option Level} :
    r.nextOr fault level? = .ok s ↔ ∃ level, level? = some level ∧ r.next .items level = s := by
  cases level? with
  | none => simp [nextOr]
  | some level => simp [nextOr]

theorem step_of_close {r s : Reader} (hc : r.context = .items) (h : r.close = .ok s) :
    Step r Mark.closeGroup s := by
  unfold close at h
  split at h
  · rename_i opened around outer houter
    split at h
    · rename_i tokens htokens
      obtain rfl := Except.ok.inj h
      exact .closeGroup hc houter htokens
    · cases h
  · rename_i houter
    split at h
    · rename_i hended
      obtain rfl := Except.ok.inj h
      have htop : r.mode = .top := mode_eq_top.2 ⟨houter, List.isEmpty_iff.1 hended⟩
      exact .plain hc ⟨by decide, fun _ => htop⟩
    · cases h

theorem step_of_stepItems {r s : Reader} {b : UInt8} (hc : r.context = .items)
    (h : r.stepItems b = .ok s) : Step r b s := by
  unfold stepItems at h
  split at h
  · rename_i hb
    obtain rfl := Except.ok.inj h
    exact hb ▸ .openGroup hc
  rename_i hopen
  split at h
  · rename_i hb
    exact hb ▸ step_of_close hc h
  rename_i hclose
  split at h
  · rename_i hb
    obtain rfl := Except.ok.inj h
    exact hb ▸ .openBracket hc
  rename_i hbracket
  split at h
  · rename_i hb
    obtain rfl := Except.ok.inj h
    exact hb ▸ .openCounts hc
  rename_i hcounts
  split at h
  · rename_i hb
    obtain ⟨level, hlevel, rfl⟩ := nextOr_eq_ok.1 h
    exact hb ▸ .bar hc hlevel
  rename_i hbar
  split at h
  · rename_i q hq
    obtain ⟨level, hlevel, rfl⟩ := nextOr_eq_ok.1 h
    exact .quantify hc hq hlevel
  · rename_i hq
    obtain rfl := Except.ok.inj h
    refine .plain hc ⟨?_, fun hb => absurd hb hclose⟩
    have hmarks := Quantifier.ofByte?_eq_none.1 hq
    simp only [List.mem_cons, List.not_mem_nil, or_false, not_or] at hmarks ⊢
    exact ⟨hopen, hbracket, hcounts, hbar, hmarks⟩

theorem stepItems_plain {r : Reader} {b : UInt8} (h : Plain r.mode b) :
    r.stepItems b = .ok (r.next .items (r.level.push (.literal b))) := by
  obtain ⟨hmarks, htop⟩ := h
  simp only [List.mem_cons, List.not_mem_nil, or_false, not_or] at hmarks
  obtain ⟨hopen, hbracket, hcounts, hbar, hquantifier⟩ := hmarks
  unfold stepItems
  rw [if_neg hopen]
  by_cases hb : b = Mark.closeGroup
  · rw [if_pos hb]
    obtain ⟨houter, hended⟩ := mode_eq_top.1 (htop hb)
    subst hb
    simp only [close, houter, hended, List.isEmpty_nil, if_true]
  · have hnone : Quantifier.ofByte? b = none :=
      Quantifier.ofByte?_eq_none.2 (by simpa using hquantifier)
    rw [if_neg hb, if_neg hbracket, if_neg hcounts, if_neg hbar, hnone]

theorem stepItems_quantifier {r : Reader} {b : UInt8} {q : Quantifier}
    (h : Quantifier.ofByte? b = some q) :
    r.stepItems b = r.nextOr .nothingToRepeat (r.level.quantify? q) := by
  have hb := Quantifier.mem_of_ofByte? h
  simp only [List.mem_cons, List.not_mem_nil, or_false] at hb
  have hne : b ≠ Mark.openGroup ∧ b ≠ Mark.closeGroup ∧ b ≠ Mark.openBracket ∧
      b ≠ Mark.openCounts ∧ b ≠ Mark.bar := by
    rcases hb with rfl | rfl | rfl <;> decide
  obtain ⟨hopen, hclose, hbracket, hcounts, hbar⟩ := hne
  unfold stepItems
  rw [if_neg hopen, if_neg hclose, if_neg hbracket, if_neg hcounts, if_neg hbar, h]

theorem step_of_stepBracket {r : Reader} {opened : Nat} {ranges : List (UInt8 × UInt8)}
    (b : UInt8) (hc : r.context = .bracket opened ranges) :
    Step r b (r.stepBracket opened ranges b) := by
  unfold stepBracket
  split
  · rename_i hb
    exact hb ▸ .closeBracket hc
  · rename_i hclose
    split
    · rename_i hb
      exact hb ▸ .dash hc
    · rename_i hdash
      exact .single hc hclose hdash

theorem step_of_stepCounts {r s : Reader} {opened : Nat} {body : List UInt8} {b : UInt8}
    (hc : r.context = .counts opened body) (h : r.stepCounts opened body b = .ok s) :
    Step r b s := by
  unfold stepCounts at h
  split at h
  · rename_i hb
    split at h
    · cases h
    · rename_i q hq
      split at h
      · rename_i level hlevel
        obtain rfl := Except.ok.inj h
        exact hb ▸ .closeCounts hc hq hlevel
      · cases h
  · rename_i hb
    obtain rfl := Except.ok.inj h
    exact .count hc hb

theorem Step.step {r s : Reader} {b : UInt8} (h : Step r b s) : r.step b = .ok s := by
  cases h with
  | openGroup hc => rw [step_items hc]; rfl
  | closeGroup hc houter htokens =>
    rw [step_items hc]
    show r.close = _
    simp only [close, houter, htokens]
  | openBracket hc => rw [step_items hc]; rfl
  | openCounts hc => rw [step_items hc]; rfl
  | bar hc hlevel =>
    rw [step_items hc]
    exact nextOr_eq_ok.2 ⟨_, hlevel, rfl⟩
  | quantify hc hq hlevel =>
    rw [step_items hc, stepItems_quantifier hq]
    exact nextOr_eq_ok.2 ⟨_, hlevel, rfl⟩
  | plain hc hplain => rw [step_items hc, stepItems_plain hplain]
  | single hc hclose hdash => simp only [Reader.step, hc, stepBracket, hclose, hdash, if_false]
  | dash hc => rw [Reader.step, hc]; rfl
  | closeBracket hc => rw [Reader.step, hc]; rfl
  | extend hc => rw [Reader.step, hc]; rfl
  | count hc hb => simp only [Reader.step, hc, stepCounts, hb, if_false]
  | closeCounts hc hq hlevel => simp only [Reader.step, hc, stepCounts, hq, hlevel, if_true]

/-- The rules say all that a step does when it takes its byte. -/
theorem step_eq_ok {r s : Reader} {b : UInt8} : r.step b = .ok s ↔ Step r b s := by
  refine ⟨fun h => ?_, Step.step⟩
  unfold step at h
  split at h
  · rename_i hc
    exact step_of_stepItems hc h
  · rename_i opened ranges hc
    obtain rfl := Except.ok.inj h
    exact step_of_stepBracket b hc
  · rename_i opened dash ranges hc
    unfold stepRange at h
    split at h
    · cases h
    · obtain rfl := Except.ok.inj h
      exact .extend hc
  · rename_i opened body hc
    exact step_of_stepCounts hc h

/-- A pattern may end between items, outside of groups and after an item. -/
theorem finish_eq_ok {r : Reader} {tokens : List Token} :
    r.finish = .ok tokens ↔
      r.context = .items ∧ r.outer = [] ∧ r.level.tokens? = some tokens := by
  obtain ⟨offset, context, level, outer⟩ := r
  unfold finish
  cases context with
  | bracket _ _ => exact iff_of_false nofun nofun
  | range _ _ _ => exact iff_of_false nofun nofun
  | counts _ _ => exact iff_of_false nofun nofun
  | items =>
    cases outer with
    | cons _ _ => exact iff_of_false nofun nofun
    | nil =>
      cases level.tokens? with
      | none => simp
      | some found => simp

/-! ## Runs -/

theorem Step.run {r s t : Reader} {b : UInt8} {text : List UInt8} (h : Step r b s)
    (hrun : s.run text = .ok t) : r.run (b :: text) = .ok t := by
  rw [run_cons, bind_eq_ok]
  exact ⟨s, step_eq_ok.2 h, hrun⟩

/-- One run after the other. -/
theorem run_trans {r s t : Reader} {xs ys : List UInt8} (h₁ : r.run xs = .ok s)
    (h₂ : s.run ys = .ok t) : r.run (xs ++ ys) = .ok t := by
  rw [run_append, bind_eq_ok]
  exact ⟨s, h₁, h₂⟩

theorem Step.run_one {r s : Reader} {b : UInt8} (h : Step r b s) : r.run [b] = .ok s :=
  h.run (run_nil s)

/-- What every step keeps, every run keeps. -/
theorem run_induction {holds : List UInt8 → Reader → Prop} {r s : Reader} {text : List UInt8}
    (hstep : ∀ {before : List UInt8} {r s : Reader} {b : UInt8},
      holds before r → Step r b s → holds (before ++ [b]) s)
    (hrun : r.run text = .ok s) {before : List UInt8} (hr : holds before r) :
    holds (before ++ text) s := by
  induction text generalizing r before with
  | nil =>
    obtain rfl := Except.ok.inj hrun
    rwa [List.append_nil]
  | cons b text ih =>
    rw [run_cons, bind_eq_ok] at hrun
    obtain ⟨t, ht, hrest⟩ := hrun
    have hlater := ih hrest (hstep hr (step_eq_ok.1 ht))
    rwa [List.append_assoc, List.singleton_append] at hlater

end Reader

end BytePattern
