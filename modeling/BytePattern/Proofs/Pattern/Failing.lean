import BytePattern.Proofs.Pattern.Objections
import BytePattern.Proofs.Pattern.Step

set_option autoImplicit false

/-!
# Patterns: what can stop a reader

The failing half of what a reader does: one rule for each way in which a byte is not
taken, and one for each way in which a pattern ends too early, with the error that is
given.  A pattern that is not read fails at its first byte of the first kind, or is
taken whole and fails by the second.
-/

namespace BytePattern

/-- An error comes from a first result or from what is done with it. -/
theorem bind_eq_error {ε α β : Type} {x : Except ε α} {f : α → Except ε β} {e : ε} :
    x.bind f = .error e ↔ x = .error e ∨ ∃ a, x = .ok a ∧ f a = .error e := by
  cases x with
  | error e => simp [Except.bind]
  | ok a => simp [Except.bind]

/-! ## Braces -/

namespace Quantifier

/-- What can be wrong with the text between braces. -/
inductive Rejected (body : List UInt8) : Fault → Prop where
  | bound {field : List UInt8} {cause : CountFault} : field ∈ fields body →
      Count.read field = .error cause → Rejected body (.invalidBound cause)
  | fieldCount : 3 ≤ (fields body).length → Rejected body (.invalidFieldCount (fields body).length)
  | reversed {least greatest : List UInt8} {min max : Nat} : fields body = [least, greatest] →
      Count.read least = .ok min → Count.read greatest = .ok max → max < min →
      Rejected body (.reversedBounds min max)
  | tooLarge {field : List UInt8} {count : Nat} : field ∈ fields body →
      Count.read field = .ok count → repeatLimit < count → Rejected body (.repeatTooLarge count)

section

variable {parts : List (List UInt8)} {min : Nat} {max : UpperBound}

theorem Names.exists_min (h : Names parts min max) :
    ∃ field ∈ parts, Count.read field = .ok min := by
  cases h with
  | exactly hcount => exact ⟨_, List.mem_cons_self, hcount⟩
  | atLeast hleast => exact ⟨_, List.mem_cons_self, hleast⟩
  | between hleast _ => exact ⟨_, List.mem_cons_self, hleast⟩

theorem Names.exists_max {n : Nat} (h : Names parts min (.bounded n)) :
    ∃ field ∈ parts, Count.read field = .ok n := by
  cases h with
  | exactly hcount => exact ⟨_, List.mem_cons_self, hcount⟩
  | between _ hgreatest => exact ⟨_, List.mem_cons_of_mem _ List.mem_cons_self, hgreatest⟩

/-- Bounds that are not in order come from two fields. -/
theorem Names.exists_two {n : Nat} (h : Names parts min (.bounded n)) (hlt : n < min) :
    ∃ least greatest, parts = [least, greatest] ∧ Count.read least = .ok min ∧
      Count.read greatest = .ok n := by
  cases h with
  | exactly _ => exact absurd hlt (Nat.lt_irrefl _)
  | between hleast hgreatest => exact ⟨_, _, rfl, hleast, hgreatest⟩

end

/-- Whatever is wrong with the text between braces, it is one of four things. -/
theorem rejected_of_ofBody {body : List UInt8} {fault : Fault} (h : ofBody body = .error fault) :
    Rejected body fault := by
  obtain ⟨place, hplace, hobjection⟩ := Objection.exists_of_ofBody [] h
  cases hobjection with
  | fieldCount hmany => exact .fieldCount hmany
  | firstBound hfields hread => exact .bound (hfields ▸ List.mem_cons_self) hread
  | secondBound hfields _ hread =>
    exact .bound (hfields ▸ List.mem_cons_of_mem _ List.mem_cons_self) hread
  | reversed hnames hlt =>
    obtain ⟨least, greatest, hfields, hmin, hmax⟩ := hnames.exists_two hlt
    exact .reversed hfields hmin hmax hlt
  | largeMax hnames hlarge =>
    obtain ⟨field, hmem, hread⟩ := hnames.exists_max
    exact .tooLarge hmem hread hlarge
  | largeMin hnames hlarge =>
    obtain ⟨field, hmem, hread⟩ := hnames.exists_min
    exact .tooLarge hmem hread hlarge
  | nothing _ => exact absurd hplace (Nat.lt_irrefl _)

end Quantifier

namespace Level

variable {level : Level}

theorem tokens?_eq_none (h : level.tokens? = none) : level.items = [] := by
  unfold tokens? at h
  split at h
  · assumption
  · cases h

theorem bar?_eq_none (h : level.bar? = none) : level.items = [] := by
  unfold bar? at h
  split at h
  · assumption
  · cases h

theorem quantify?_eq_none {q : Quantifier} (h : level.quantify? q = none) : level.items = [] := by
  unfold quantify? at h
  split at h
  · assumption
  · cases h

end Level

namespace Reader

/-! ## Bytes that are not taken -/

/-- A byte is not taken, with an error. -/
inductive Fails (r : Reader) : UInt8 → PatternError → Prop where
  | emptyGroup {opened : Nat} {around : Level} {outer : List (Nat × Level)} :
      r.context = .items → r.outer = (opened, around) :: outer → r.level.items = [] →
      Fails r Mark.closeGroup ⟨.emptyExpression, r.offset⟩
  | unmatchedClose : r.context = .items → r.outer = [] → r.level.ended ≠ [] →
      Fails r Mark.closeGroup ⟨.unmatchedClose, r.offset⟩
  | emptyAlternative : r.context = .items → r.level.items = [] →
      Fails r Mark.bar ⟨.emptyExpression, r.offset⟩
  | nothingToRepeat {b : UInt8} {q : Quantifier} : r.context = .items →
      Quantifier.ofByte? b = some q → r.level.items = [] →
      Fails r b ⟨.nothingToRepeat, r.offset⟩
  | danglingRange {opened dash : Nat} {b : UInt8} : r.context = .range opened dash [] →
      Fails r b ⟨.danglingRange, dash⟩
  | rejected {opened : Nat} {body : List UInt8} {fault : Fault} :
      r.context = .counts opened body → Quantifier.Rejected body.reverse fault →
      Fails r Mark.closeCounts ⟨fault, opened⟩
  | nothingToCount {opened : Nat} {body : List UInt8} : r.context = .counts opened body →
      r.level.items = [] → Fails r Mark.closeCounts ⟨.nothingToRepeat, opened⟩

section

variable {r : Reader} {b : UInt8} {e : PatternError}

theorem nextOr_eq_error {fault : Fault} {level? : Option Level}
    (h : r.nextOr fault level? = .error e) : level? = none ∧ e = ⟨fault, r.offset⟩ := by
  cases level? with
  | none => exact ⟨rfl, (Except.error.inj h).symm⟩
  | some level => cases h

theorem fails_of_close (hc : r.context = .items) (h : r.close = .error e) :
    Fails r Mark.closeGroup e := by
  unfold close at h
  split at h
  · rename_i opened around outer houter
    split at h
    · cases h
    · rename_i hnone
      obtain rfl := Except.error.inj h
      exact .emptyGroup hc houter (Level.tokens?_eq_none hnone)
  · rename_i houter
    split at h
    · cases h
    · rename_i hended
      obtain rfl := Except.error.inj h
      exact .unmatchedClose hc houter fun hnil => hended (List.isEmpty_iff.2 hnil)

theorem fails_of_stepItems (hc : r.context = .items) (h : r.stepItems b = .error e) :
    Fails r b e := by
  unfold stepItems at h
  split at h
  · cases h
  split at h
  · rename_i hb
    exact hb ▸ fails_of_close hc h
  split at h
  · cases h
  split at h
  · cases h
  split at h
  · rename_i hb
    obtain ⟨hnone, rfl⟩ := nextOr_eq_error h
    exact hb ▸ .emptyAlternative hc (Level.bar?_eq_none hnone)
  split at h
  · rename_i q hq
    obtain ⟨hnone, rfl⟩ := nextOr_eq_error h
    exact .nothingToRepeat hc hq (Level.quantify?_eq_none hnone)
  · cases h

theorem fails_of_stepCounts {opened : Nat} {body : List UInt8}
    (hc : r.context = .counts opened body) (h : r.stepCounts opened body b = .error e) :
    Fails r b e := by
  unfold stepCounts at h
  split at h
  · rename_i hb
    subst hb
    split at h
    · rename_i fault hfault
      obtain rfl := Except.error.inj h
      exact .rejected hc (Quantifier.rejected_of_ofBody hfault)
    · split at h
      · cases h
      · rename_i hnone
        obtain rfl := Except.error.inj h
        exact .nothingToCount hc (Level.quantify?_eq_none hnone)
  · cases h

/-- The rules say all that can go wrong in a step. -/
theorem fails_of_step (h : r.step b = .error e) : Fails r b e := by
  unfold step at h
  split at h
  · rename_i hc
    exact fails_of_stepItems hc h
  · cases h
  · rename_i opened dash ranges hc
    unfold stepRange at h
    split at h
    · obtain rfl := Except.error.inj h
      exact .danglingRange hc
    · cases h
  · rename_i opened body hc
    exact fails_of_stepCounts hc h

end

/-! ## Patterns that end too early -/

/-- A pattern that ends here has an error. -/
inductive Stops (r : Reader) : PatternError → Prop where
  | group {opened : Nat} {around : Level} {outer : List (Nat × Level)} :
      r.context = .items → r.outer = (opened, around) :: outer →
      Stops r ⟨.unterminatedGroup, opened⟩
  | empty : r.context = .items → r.outer = [] → r.level.items = [] →
      Stops r ⟨.emptyExpression, r.offset⟩
  | bracket {opened : Nat} {ranges : List (UInt8 × UInt8)} :
      r.context = .bracket opened ranges → Stops r ⟨.unterminatedBracket, opened⟩
  | range {opened dash : Nat} {ranges : List (UInt8 × UInt8)} :
      r.context = .range opened dash ranges → Stops r ⟨.unterminatedBracket, opened⟩
  | counts {opened : Nat} {body : List UInt8} :
      r.context = .counts opened body → Stops r ⟨.unterminatedQuantifier, opened⟩

/-- The rules say all that can be wrong with an end. -/
theorem stops_of_finish {r : Reader} {e : PatternError} (h : r.finish = .error e) :
    Stops r e := by
  unfold finish at h
  split at h
  · rename_i hc
    obtain rfl := Except.error.inj h
    exact .bracket hc
  · rename_i hc
    obtain rfl := Except.error.inj h
    exact .range hc
  · rename_i hc
    obtain rfl := Except.error.inj h
    exact .counts hc
  · rename_i hc
    split at h
    · rename_i houter
      obtain rfl := Except.error.inj h
      exact .group hc houter
    · rename_i houter
      split at h
      · cases h
      · rename_i hnone
        obtain rfl := Except.error.inj h
        exact .empty hc houter (Level.tokens?_eq_none hnone)

/-! ## Runs -/

/-- A run that fails has taken some bytes and fails at the next. -/
theorem run_eq_error {r : Reader} {text : List UInt8} {e : PatternError}
    (h : r.run text = .error e) :
    ∃ before b rest s, text = before ++ b :: rest ∧ r.run before = .ok s ∧ Fails s b e := by
  induction text generalizing r with
  | nil => cases h
  | cons b text ih =>
    rw [run_cons] at h
    rcases bind_eq_error.1 h with hstep | ⟨t, ht, hrest⟩
    · exact ⟨[], b, text, r, rfl, run_nil r, fails_of_step hstep⟩
    · obtain ⟨before, c, rest, s, rfl, hrun, hfails⟩ := ih hrest
      exact ⟨b :: before, c, rest, s, rfl, (step_eq_ok.1 ht).run hrun, hfails⟩

end Reader

/-- A pattern that is not read has a first byte that is not taken, or is taken whole
and ends too early. -/
theorem parse_eq_error {pattern : List UInt8} {e : PatternError} (h : parse pattern = .error e) :
    (∃ before b rest r, pattern = before ++ b :: rest ∧ Reader.start.run before = .ok r ∧
      Reader.Fails r b e) ∨
    ∃ r, Reader.start.run pattern = .ok r ∧ Reader.Stops r e := by
  unfold parse at h
  rcases bind_eq_error.1 h with hrun | ⟨r, hrun, hfinish⟩
  · exact Or.inl (Reader.run_eq_error hrun)
  · exact Or.inr ⟨r, hrun, Reader.stops_of_finish hfinish⟩

end BytePattern
