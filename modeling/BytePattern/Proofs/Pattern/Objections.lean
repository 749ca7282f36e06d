import BytePattern.Pattern.Counted
import BytePattern.Proofs.Pattern.Braces

set_option autoImplicit false

/-!
# Patterns: objections and the text between braces

The text between braces is read when it has no objection of its own, and otherwise what
is wrong with it is the first of them.  Only that there is nothing to repeat is no
matter of this text, and it comes last.
-/

namespace BytePattern

/-! ## Fields -/

namespace Quantifier

section

variable {field : List UInt8} {n : Nat} {cause : CountFault}

theorem bound_of_read (h : Count.read field = .ok n) : bound field = .ok n :=
  bound_eq_ok.2 (Count.read_eq_ok.1 h)

theorem bound_of_read_error (h : Count.read field = .error cause) :
    bound field = .error (.invalidBound cause) := by
  rw [bound, h]

theorem upperBound_of_read (h : Count.read field = .ok n) :
    upperBound field = .ok (.bounded n) :=
  upperBound_eq_ok.2 (.inr ⟨n, rfl, Count.read_eq_ok.1 h⟩)

theorem upperBound_of_read_error (hne : field ≠ []) (h : Count.read field = .error cause) :
    upperBound field = .error (.invalidBound cause) := by
  rw [upperBound, if_neg hne, bound_of_read_error h]

end

section

variable {body least greatest : List UInt8} {min : Nat} {max : UpperBound} {fault : Fault}

theorem Names.ofFields_eq {parts : List (List UInt8)} (h : Names parts min max) :
    ofFields parts = .ok ⟨min, max⟩ := by
  cases h with
  | exactly hcount => exact ofFields_one.2 ⟨_, bound_of_read hcount, rfl⟩
  | atLeast hleast => exact ofFields_two.2 ⟨bound_of_read hleast, rfl⟩
  | between hleast hgreatest =>
    exact ofFields_two.2 ⟨bound_of_read hleast, upperBound_of_read hgreatest⟩

theorem Names.ofBody_eq (h : Names (fields body) min max) : ofBody body = check ⟨min, max⟩ := by
  show (ofFields (fields body)).bind check = _
  rw [h.ofFields_eq]
  rfl

theorem ofBody_of_ofFields (h : ofFields (fields body) = .error fault) :
    ofBody body = .error fault := by
  show (ofFields (fields body)).bind check = _
  rw [h]
  rfl

theorem ofFields_of_many {parts : List (List UInt8)} (h : 3 ≤ parts.length) :
    ofFields parts = .error (.invalidFieldCount parts.length) := by
  unfold ofFields
  split
  · exact absurd h (by simp)
  · exact absurd h (by simp)
  · rfl

theorem ofFields_first_error {more : List (List UInt8)} (hlength : (least :: more).length < 3)
    (h : bound least = .error fault) : ofFields (least :: more) = .error fault := by
  cases more with
  | nil =>
    show (bound least).bind _ = _
    rw [h]
    rfl
  | cons greatest more =>
    cases more with
    | nil =>
      show (bound least).bind _ = _
      rw [h]
      rfl
    | cons _ _ => exact absurd hlength (by simp)

theorem ofFields_second_error {n : Nat} (hleast : bound least = .ok n)
    (h : upperBound greatest = .error fault) :
    ofFields [least, greatest] = .error fault := by
  show (bound least).bind (fun _ => (upperBound greatest).bind _) = _
  rw [hleast, h]
  rfl

end

end Quantifier

/-! ## The first objection -/

open Quantifier

section

variable {before body : List UInt8} {place : Nat} {fault : Fault}

theorem NoneBefore.mono {place' : Nat} (h : NoneBefore before body place) (hle : place' ≤ place) :
    NoneBefore before body place' :=
  fun earlier hlt => h earlier (Nat.lt_of_lt_of_le hlt hle)

theorem NoneBefore.length_lt (h : NoneBefore before body 2) : (fields body).length < 3 :=
  Nat.not_le.1 fun hmany => h 1 (by decide) _ (.fieldCount hmany)

/-- One or two fields. -/
theorem NoneBefore.fields_cases (h : NoneBefore before body 2) :
    (∃ field, fields body = [field]) ∨ ∃ least greatest, fields body = [least, greatest] := by
  have hlength := h.length_lt
  cases hfields : fields body with
  | nil => exact absurd hfields (fields_ne_nil body)
  | cons first more =>
    cases more with
    | nil => exact .inl ⟨first, rfl⟩
    | cons second more =>
      cases more with
      | nil => exact .inr ⟨first, second, rfl⟩
      | cons _ _ => exact absurd hlength (by simp [hfields])

/-- The first field is a count. -/
theorem NoneBefore.exists_read {first : List UInt8} {more : List (List UInt8)}
    (h : NoneBefore before body 3) (hfields : fields body = first :: more) :
    ∃ n, Count.read first = .ok n := by
  cases hread : Count.read first with
  | ok n => exact ⟨n, rfl⟩
  | error cause => exact absurd (.firstBound hfields hread) (h 2 (by decide) _)

theorem NoneBefore.exists_names (h : NoneBefore before body 4) :
    ∃ min max, Names (fields body) min max := by
  rcases (h.mono (by decide)).fields_cases with ⟨field, hfields⟩ | ⟨least, greatest, hfields⟩
  · obtain ⟨n, hn⟩ := (h.mono (by decide)).exists_read hfields
    exact ⟨n, .bounded n, hfields ▸ .exactly hn⟩
  · obtain ⟨min, hmin⟩ := (h.mono (by decide)).exists_read hfields
    by_cases hempty : greatest = []
    · subst hempty
      exact ⟨min, .unbounded, hfields ▸ .atLeast hmin⟩
    · cases hread : Count.read greatest with
      | ok max => exact ⟨min, .bounded max, hfields ▸ .between hmin hread⟩
      | error cause => exact absurd (.secondBound hfields hempty hread) (h 3 (by decide) _)

theorem NoneBefore.ofBody_eq {min : Nat} {max : UpperBound} (h : NoneBefore before body 7)
    (hnames : Names (fields body) min max) : ofBody body = .ok ⟨min, max⟩ := by
  rw [hnames.ofBody_eq, check_eq_ok]
  refine ⟨rfl, ?_⟩
  cases max with
  | unbounded => exact Nat.not_lt.1 fun hlarge => h 6 (by decide) _ (.largeMin hnames hlarge)
  | bounded max =>
    exact ⟨Nat.not_lt.1 fun hlt => h 4 (by decide) _ (.reversed hnames hlt),
      Nat.not_lt.1 fun hlarge => h 5 (by decide) _ (.largeMax hnames hlarge)⟩

/-- The first objection to the body itself is what is wrong with it. -/
theorem Objection.ofBody_eq (h : Objection before body place fault)
    (hfirst : NoneBefore before body place) :
    ofBody body = .error fault ∨
      (place = 7 ∧ fault = .nothingToRepeat ∧ NothingOpen before) := by
  cases h with
  | fieldCount hmany => exact .inl (ofBody_of_ofFields (ofFields_of_many hmany))
  | firstBound hfields hread =>
    refine .inl (ofBody_of_ofFields ?_)
    have hlength := hfirst.length_lt
    rw [hfields] at hlength ⊢
    exact ofFields_first_error hlength (bound_of_read_error hread)
  | secondBound hfields hne hread =>
    refine .inl (ofBody_of_ofFields ?_)
    obtain ⟨n, hn⟩ := hfirst.exists_read hfields
    rw [hfields]
    exact ofFields_second_error (bound_of_read hn) (upperBound_of_read_error hne hread)
  | @reversed min max hnames hlt =>
    left
    rw [hnames.ofBody_eq, check]
    exact if_pos hlt
  | @largeMax min max hnames hlarge =>
    left
    have hordered : ¬ max < min := fun hlt => hfirst 4 (by decide) _ (.reversed hnames hlt)
    rw [hnames.ofBody_eq, check]
    show ite _ _ _ = _
    rw [if_neg hordered, if_pos hlarge]
  | @largeMin min max hnames hlarge =>
    left
    rw [hnames.ofBody_eq]
    cases max with
    | unbounded => exact if_pos hlarge
    | bounded max =>
      -- an upper bound no less than the lower one is itself above the limit, and is named first
      have hordered : ¬ max < min := fun hlt => hfirst 4 (by decide) _ (.reversed hnames hlt)
      have hmax : repeatLimit < max := Nat.lt_of_lt_of_le hlarge (Nat.not_lt.1 hordered)
      exact absurd (.largeMax hnames hmax) (hfirst 5 (by decide) _)
  | nothing hnothing => exact .inr ⟨rfl, rfl, hnothing⟩

/-- Of the objections that apply one is the first. -/
theorem Objection.exists_first (h : Objection before body place fault) :
    ∃ first ≤ place, ∃ fault', Objection before body first fault' ∧
      NoneBefore before body first := by
  induction place using Nat.strongRecOn generalizing fault with
  | ind place ih =>
    by_cases hnone : NoneBefore before body place
    · exact ⟨place, Nat.le_refl place, fault, h, hnone⟩
    · simp only [NoneBefore, not_forall, not_not] at hnone
      obtain ⟨earlier, hlt, other, hother⟩ := hnone
      obtain ⟨first, hle, hfirst⟩ := ih earlier hlt hother
      exact ⟨first, Nat.le_trans hle (Nat.le_of_lt hlt), hfirst⟩

/-- A body that is not read has an objection of its own, which is what is wrong with
it. -/
theorem Objection.exists_of_ofBody (before : List UInt8) (h : ofBody body = .error fault) :
    ∃ place < 7, Objection before body place fault := by
  by_cases hnone : NoneBefore before body 7
  · obtain ⟨min, max, hnames⟩ := (hnone.mono (by decide)).exists_names
    rw [hnone.ofBody_eq hnames] at h
    cases h
  · simp only [NoneBefore, not_forall, not_not] at hnone
    obtain ⟨place, hlt, other, hother⟩ := hnone
    obtain ⟨first, hle, fault', hobjection, hfirst⟩ := hother.exists_first
    have hbefore : first < 7 := Nat.lt_of_le_of_lt hle hlt
    rcases hobjection.ofBody_eq hfirst with hbody | ⟨rfl, _⟩
    · obtain rfl := Except.error.inj (h.symm.trans hbody)
      exact ⟨first, hbefore, hobjection⟩
    · exact absurd hbefore (Nat.lt_irrefl _)

end

end BytePattern
