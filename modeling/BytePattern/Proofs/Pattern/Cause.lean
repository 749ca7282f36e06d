import BytePattern.Proofs.Pattern.Failing
import BytePattern.Proofs.Pattern.Nesting

set_option autoImplicit false

/-!
# Patterns: every error points at its cause

What a reader holds when it fails, put beside the text that it has read: the offsets
that it keeps, of a parenthesis, a bracket, a dash or a brace, are offsets of these
bytes, and the byte at which it fails stands at its own offset.  So the error can be
checked against the pattern without reading it again.
-/

namespace BytePattern

open Grammar

/-- The byte after some text stands at the length of the text. -/
theorem getElem?_length_append (before rest : List UInt8) (b : UInt8) :
    (before ++ b :: rest)[before.length]? = some b := by
  rw [List.getElem?_append_right (Nat.le_refl _), Nat.sub_self, List.getElem?_cons_zero]

/-! ## Offsets in the pattern -/

theorem Grammar.Braced.le_length {pattern body : List UInt8} {k : Nat}
    (h : Braced pattern k body) : k ≤ pattern.length := by
  obtain ⟨_, before, rest, rfl, rfl⟩ := h
  rw [List.length_append]
  exact Nat.le_add_right _ _

theorem Grammar.EndsInBracket.le_length {pattern : List UInt8} {k : Nat}
    (h : EndsInBracket pattern k) : k ≤ pattern.length := by
  obtain ⟨before, inside, _, _, rfl, _, _, rfl | rfl⟩ := h
  · rw [List.length_append]
    exact Nat.le_add_right _ _
  · rw [List.length_append]
    exact Nat.le_add_right _ _

/-- A fault has its cause in the pattern or at its end. -/
theorem Fault.PointsAt.le_length {pattern : List UInt8} {k : Nat} {fault : Fault}
    (h : fault.PointsAt pattern k) : k ≤ pattern.length := by
  have hbyte : ∀ {b : UInt8}, pattern[k]? = some b → k ≤ pattern.length := by
    intro b hb
    obtain ⟨hlt, _⟩ := List.getElem?_eq_some_iff.1 hb
    exact Nat.le_of_lt hlt
  cases fault with
  | unexpectedByte _ => exact absurd h not_false
  | unterminatedGroup => exact hbyte h.1
  | unterminatedBracket => exact EndsInBracket.le_length h
  | unterminatedQuantifier => exact hbyte h.1
  | invalidBound _ =>
    obtain ⟨_, hbraced, _⟩ := h
    exact hbraced.le_length
  | invalidFieldCount _ =>
    obtain ⟨_, _, hbraced, _⟩ := h
    exact hbraced.le_length
  | reversedBounds _ _ =>
    obtain ⟨_, _, hbraced, _⟩ := h
    exact hbraced.le_length
  | repeatTooLarge _ =>
    obtain ⟨_, _, hbraced, _⟩ := h
    exact hbraced.le_length
  | nothingToRepeat =>
    obtain ⟨_, _, hb⟩ := h
    exact hbyte hb
  | danglingRange => exact hbyte h
  | unmatchedClose => exact hbyte h.1
  | emptyExpression =>
    rcases h with rfl | ⟨_, _, hb⟩
    · exact Nat.le_refl _
    · exact hbyte hb

/-! ## Braces -/

theorem Quantifier.Rejected.pointsAt {pattern body : List UInt8} {k : Nat} {fault : Fault}
    (h : Rejected body fault) (hbraced : Braced pattern k body) : fault.PointsAt pattern k := by
  cases h with
  | bound hmem hread => exact ⟨body, hbraced, _, hmem, hread⟩
  | fieldCount hmany =>
    refine ⟨hmany, body, hbraced, ?_⟩
    rw [length_fields, Nat.add_comm]
  | reversed hfields hmin hmax hlt =>
    exact ⟨hlt, body, hbraced, _, _, hfields, hmin, hmax⟩
  | tooLarge hmem hread hlarge => exact ⟨hlarge, body, hbraced, _, hmem, hread⟩

/-! ## What a reader keeps -/

section

variable {text : List UInt8} {r : Reader}

theorem Groups.getElem? {opened : Nat} {around : Level} {outer : List (Nat × Level)}
    (h : Groups text ((opened, around) :: outer)) (rest : List UInt8) :
    (text ++ rest)[opened]? = some Mark.openGroup := by
  cases h with
  | @snoc before own _ _ _ _ =>
    have htext : before ++ (own ++ [Mark.openGroup]) ++ rest =
        (before ++ own) ++ Mark.openGroup :: rest := by simp
    rw [htext]
    exact getElem?_length_append _ rest _

/-- On the right of a bar of the top level, the bar stands where no group is open. -/
theorem Reading.exists_bar (hr : Reading text r) (hc : r.context = .items) (houter : r.outer = [])
    (hended : r.level.ended ≠ []) :
    ∃ before after, text = before ++ Mark.bar :: after ∧ Nesting 0 [] before [] := by
  obtain @⟨before, own, tail, context, level, outer, hgroups, hown, htail⟩ := hr
  obtain rfl : context = .items := hc
  obtain rfl : outer = [] := houter
  cases htail
  cases hgroups
  cases hown with
  | @mk _ own ended _ hbefore _ =>
    cases hbefore with
    | nil => exact absurd rfl hended
    | @snoc text left _ ended hfirst hleft =>
      refine ⟨text ++ left, own, by simp, ?_⟩
      exact (hfirst.nesting 0 fun _ => rfl).trans (hleft.nesting _ [] fun _ => rfl)

end

/-! ## Errors -/

namespace Reader

theorem Fails.pointsAt {before : List UInt8} {r : Reader} {b : UInt8} {e : PatternError}
    (h : Fails r b e) (hr : Reading before r) (rest : List UInt8) :
    e.fault.PointsAt (before ++ b :: rest) e.offset := by
  have hbyte : (before ++ b :: rest)[r.offset]? = some b := by
    rw [hr.offset]
    exact getElem?_length_append before rest b
  cases h with
  | emptyGroup _ _ _ => exact Or.inr ⟨_, by decide, hbyte⟩
  | unmatchedClose hc houter hended =>
    obtain ⟨left, right, rfl, hnesting⟩ := hr.exists_bar hc houter hended
    refine ⟨hbyte, left.length, ?_, ?_, ?_⟩
    · show left.length < r.offset
      rw [hr.offset, List.length_append, List.length_cons]
      omega
    · rw [List.append_assoc]
      exact getElem?_length_append left _ _
    · rw [List.append_assoc, List.take_left]
      exact hnesting
  | emptyAlternative _ _ => exact Or.inr ⟨_, by decide, hbyte⟩
  | nothingToRepeat _ hq _ =>
    have hmark := Quantifier.mem_of_ofByte? hq
    exact ⟨b, List.mem_append_left [Mark.openCounts] hmark, hbyte⟩
  | danglingRange hc =>
    obtain ⟨front, rfl, rfl, rfl⟩ := hr.exists_dash hc
    have htext : front ++ [Mark.openBracket, Mark.dash] ++ b :: rest =
        (front ++ [Mark.openBracket]) ++ Mark.dash :: b :: rest := by simp
    have hdash := getElem?_length_append (front ++ [Mark.openBracket]) (b :: rest) Mark.dash
    rw [List.length_append] at hdash
    rw [htext]
    exact hdash
  | rejected hc hrejected =>
    obtain ⟨hbody, front, hfront, rfl⟩ := hr.exists_body hc
    apply hrejected.pointsAt
    exact ⟨hbody, front, rest, hfront, by simp⟩
  | nothingToCount hc _ =>
    obtain ⟨_, front, rfl, rfl⟩ := hr.exists_body hc
    refine ⟨Mark.openCounts, by decide, ?_⟩
    rw [List.append_assoc]
    exact getElem?_length_append front _ _

theorem Stops.pointsAt {pattern : List UInt8} {r : Reader} {e : PatternError}
    (h : Stops r e) (hr : Reading pattern r) : e.fault.PointsAt pattern e.offset := by
  cases h with
  | group hc houter =>
    obtain @⟨before, own, tail, context, level, outer, hgroups, hown, htail⟩ := hr
    obtain rfl : context = .items := hc
    obtain rfl : outer = _ :: _ := houter
    cases htail
    rw [List.append_nil]
    exact ⟨hgroups.getElem? own, _, hgroups.nesting_append hown⟩
  | empty _ _ _ => exact Or.inl hr.offset
  | bracket hc =>
    obtain @⟨before, own, tail, context, level, outer, hgroups, hown, htail⟩ := hr
    obtain rfl : context = .bracket _ _ := hc
    cases htail with
    | bracket hranges =>
      exact ⟨before ++ own, _, _, _, rfl, hgroups.nesting_append hown, hranges.entries,
        Or.inl rfl⟩
  | range hc =>
    obtain @⟨before, own, tail, context, level, outer, hgroups, hown, htail⟩ := hr
    obtain rfl : context = .range _ _ _ := hc
    cases htail with
    | range hranges =>
      exact ⟨before ++ own, _, _, _, rfl, hgroups.nesting_append hown, hranges.entries,
        Or.inr rfl⟩
  | counts hc =>
    obtain ⟨hbody, front, rfl, rfl⟩ := hr.exists_body hc
    refine ⟨getElem?_length_append front _ _, ?_⟩
    rwa [← List.drop_drop, List.drop_left, List.drop_one, List.tail_cons]

end Reader

/-- The error of a pattern is at an offset of the pattern, or right after it, and what
the fault says of the pattern there is true. -/
theorem pointsAt_of_parse {pattern : List UInt8} {e : PatternError}
    (h : parse pattern = .error e) :
    e.offset ≤ pattern.length ∧ e.fault.PointsAt pattern e.offset := by
  have hpoints : e.fault.PointsAt pattern e.offset := by
    rcases parse_eq_error h with ⟨before, b, rest, r, rfl, hrun, hfails⟩ | ⟨r, hrun, hstops⟩
    · exact hfails.pointsAt (Reading.run hrun) rest
    · exact hstops.pointsAt (Reading.run hrun)
  exact ⟨hpoints.le_length, hpoints⟩

/-- Of `(((a)[(]` the second parenthesis is the innermost that opens a group and is
not closed. -/
theorem pointsAt_of_parse_group :
    parse [0x28, 0x28, 0x28, 0x61, 0x29, 0x5b, 0x28, 0x5d] = .error ⟨.unterminatedGroup, 1⟩ ∧
      ∃ around, Nesting 0 [] [0x28, 0x28, 0x28, 0x61, 0x29, 0x5b, 0x28, 0x5d] (1 :: around) := by
  have h : parse [0x28, 0x28, 0x28, 0x61, 0x29, 0x5b, 0x28, 0x5d] =
      .error ⟨.unterminatedGroup, 1⟩ := rfl
  exact ⟨h, (pointsAt_of_parse h).2.2⟩

end BytePattern
