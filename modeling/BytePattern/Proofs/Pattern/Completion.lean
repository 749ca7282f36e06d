import BytePattern.Pattern.Cause
import BytePattern.Proofs.Pattern.Failing
import BytePattern.Proofs.Pattern.Reading

set_option autoImplicit false

/-!
# Patterns: errors that stay and errors that more text mends

A byte that is not taken is not taken whatever follows it, so its error is there for
every longer pattern too.  An error of the end is another matter: between items a
reader can always go on, with an item if the alternative has none and then with a
parenthesis for each group around it, and from a bracket it gets there by closing
it.
-/

namespace BytePattern

open Grammar

theorem Level.exists_tokens? {level : Level} (h : level.items ≠ []) :
    ∃ tokens, level.tokens? = some tokens := by
  obtain ⟨last, before, hcons⟩ := List.exists_cons_of_ne_nil h
  unfold tokens?
  rw [hcons]
  exact ⟨_, rfl⟩

namespace Reader

/-! ## Readers that can go on to an end -/

/-- Some text takes the reader to where a pattern may end. -/
def Completes (r : Reader) : Prop :=
  ∃ rest t tokens, r.run rest = .ok t ∧ t.finish = .ok tokens

variable {r s : Reader} {b : UInt8}

theorem Step.completes (h : Step r b s) : s.Completes → r.Completes := by
  rintro ⟨rest, t, tokens, hrun, hfinish⟩
  exact ⟨b :: rest, t, tokens, h.run hrun, hfinish⟩

/-- After an item a parenthesis closes each of the groups, the innermost first. -/
theorem completes_of_ne_nil (hc : r.context = .items) (hitems : r.level.items ≠ []) :
    r.Completes := by
  obtain ⟨tokens, htokens⟩ := Level.exists_tokens? hitems
  induction houter : r.outer generalizing r tokens with
  | nil => exact ⟨[], r, tokens, run_nil r, finish_eq_ok.2 ⟨hc, houter, htokens⟩⟩
  | cons group outer ih =>
    have hstep := Step.closeGroup hc houter htokens
    have hmore : (group.2.push (.group tokens)).items ≠ [] := List.cons_ne_nil _ _
    obtain ⟨joined, hjoined⟩ := Level.exists_tokens? hmore
    exact hstep.completes (ih rfl hmore joined hjoined rfl)

/-- Between items there may always be one more, and then an end. -/
theorem completes_of_items (hc : r.context = .items) : r.Completes := by
  have hplain : Plain r.mode 0x61 := ⟨by decide, fun h => absurd h (by decide)⟩
  apply (Step.plain hc hplain).completes
  exact completes_of_ne_nil rfl (List.cons_ne_nil _ _)

theorem completes_of_bracket {opened : Nat} {ranges : List (UInt8 × UInt8)}
    (hc : r.context = .bracket opened ranges) : r.Completes := by
  apply (Step.closeBracket hc).completes
  exact completes_of_items rfl

theorem completes_of_range {opened dash : Nat} {range : UInt8 × UInt8}
    {ranges : List (UInt8 × UInt8)} (hc : r.context = .range opened dash (range :: ranges)) :
    r.Completes := by
  have hstep : Step r 0x61 _ := .extend hc
  apply hstep.completes
  exact completes_of_bracket rfl

end Reader

/-! ## Errors of a byte and errors of the end -/

namespace PatternError

variable {pattern : List UInt8} {e : PatternError}

theorem definitive_of_fault (h : e.fault ∉ [.unterminatedGroup, .unterminatedBracket,
    .unterminatedQuantifier, .emptyExpression]) : e.Definitive pattern := by
  simp only [List.mem_cons, List.not_mem_nil, or_false, not_or] at h
  obtain ⟨hgroup, hbracket, hcounts, hempty⟩ := h
  refine ⟨by simp [hgroup, hbracket, hcounts], ?_⟩
  rintro rfl
  exact hempty rfl

theorem definitive_of_lt {k : Nat} (h : k < pattern.length) :
    (PatternError.mk .emptyExpression k).Definitive pattern := by
  refine ⟨by simp, fun heq => ?_⟩
  exact absurd (congrArg PatternError.offset heq) (Nat.ne_of_lt h)

theorem Definitive.not_completable (h : e.Definitive pattern) : ¬ e.Completable pattern := by
  obtain ⟨hfault, hempty⟩ := h
  simp only [List.mem_cons, List.not_mem_nil, or_false, not_or] at hfault
  rintro (hgroup | heq | ⟨hbracket, _⟩)
  · exact hfault.1 hgroup
  · exact hempty heq
  · exact hfault.2.1 hbracket

end PatternError

namespace Reader

/-- A byte that is not taken shows an error that is not one of the end. -/
theorem Fails.definitive {before : List UInt8} {r : Reader} {b : UInt8} {e : PatternError}
    (h : Fails r b e) (hr : Reading before r) (rest : List UInt8) :
    e.Definitive (before ++ b :: rest) := by
  have hlt : r.offset < (before ++ b :: rest).length := by
    rw [hr.offset, List.length_append, List.length_cons]
    omega
  cases h with
  | emptyGroup _ _ _ => exact PatternError.definitive_of_lt hlt
  | unmatchedClose _ _ _ => exact PatternError.definitive_of_fault (by simp)
  | emptyAlternative _ _ => exact PatternError.definitive_of_lt hlt
  | nothingToRepeat _ _ _ => exact PatternError.definitive_of_fault (by simp)
  | danglingRange _ => exact PatternError.definitive_of_fault (by simp)
  | rejected _ hrejected =>
    apply PatternError.definitive_of_fault
    cases hrejected <;> simp
  | nothingToCount _ _ => exact PatternError.definitive_of_fault (by simp)

theorem Stops.not_definitive {pattern : List UInt8} {r : Reader} {e : PatternError}
    (h : Stops r e) (hr : Reading pattern r) : ¬ e.Definitive pattern := by
  rintro ⟨hfault, hempty⟩
  cases h with
  | group _ _ => exact hfault (by simp)
  | empty _ _ _ => exact hempty (by rw [hr.offset])
  | bracket _ => exact hfault (by simp)
  | range _ => exact hfault (by simp)
  | counts _ => exact hfault (by simp)

theorem Stops.completes {pattern : List UInt8} {r : Reader} {e : PatternError}
    (h : Stops r e) (hr : Reading pattern r) (he : e.Completable pattern) : r.Completes := by
  cases h with
  | group hc _ => exact completes_of_items hc
  | empty hc _ _ => exact completes_of_items hc
  | bracket hc => exact completes_of_bracket hc
  | @range _ _ ranges hc =>
    cases ranges with
    | cons _ _ => exact completes_of_range hc
    | nil =>
      rcases he with hgroup | heq | ⟨_, hdrop⟩
      · cases hgroup
      · cases heq
      · obtain ⟨before, rfl, _, rfl⟩ := hr.exists_dash hc
        exact absurd List.drop_left hdrop
  | counts _ =>
    rcases he with hgroup | heq | ⟨hbracket, _⟩
    · cases hgroup
    · cases heq
    · cases hbracket

end Reader

/-! ## Longer patterns -/

/-- An error that is not one of the end is the error of every longer pattern.  One of
the end is mended by some text, but for open braces and for a bracket whose first
byte is a dash. -/
theorem parse_append_of_error {pattern : List UInt8} {e : PatternError}
    (h : parse pattern = .error e) :
    (e.Definitive pattern → ∀ rest, parse (pattern ++ rest) = .error e) ∧
      (e.Completable pattern → ∃ rest tokens, parse (pattern ++ rest) = .ok tokens) := by
  rcases bind_eq_error.1 h with hrun | ⟨r, hrun, hfinish⟩
  · obtain ⟨before, b, rest, r, rfl, hbefore, hfails⟩ := Reader.run_eq_error hrun
    have hdefinitive := hfails.definitive (Reading.run hbefore) rest
    refine ⟨fun _ more => ?_, fun he => absurd he hdefinitive.not_completable⟩
    unfold parse
    rw [Reader.run_append, hrun]
    rfl
  · have hstops := Reader.stops_of_finish hfinish
    have hr := Reading.run hrun
    refine ⟨fun he => absurd he (hstops.not_definitive hr), fun he => ?_⟩
    obtain ⟨rest, t, tokens, hrest, htokens⟩ := hstops.completes hr he
    exact ⟨rest, tokens, bind_eq_ok.2 ⟨t, Reader.run_trans hrun hrest, htokens⟩⟩

/-- Counts in the wrong order stay wrong; an open bracket in an open group can be
closed. -/
theorem parse_append_of_error_counts :
    parse [0x61, 0x7b, 0x34, 0x2c, 0x32, 0x7d] = .error ⟨.reversedBounds 4 2, 1⟩ ∧
      (∀ rest, parse ([0x61, 0x7b, 0x34, 0x2c, 0x32, 0x7d] ++ rest) =
        .error ⟨.reversedBounds 4 2, 1⟩) ∧
      parse [0x28, 0x5b, 0x61, 0x2d] = .error ⟨.unterminatedBracket, 1⟩ ∧
      ∃ rest tokens, parse ([0x28, 0x5b, 0x61, 0x2d] ++ rest) = .ok tokens := by
  have hcounts : parse [0x61, 0x7b, 0x34, 0x2c, 0x32, 0x7d] =
      .error ⟨.reversedBounds 4 2, 1⟩ := rfl
  have hbracket : parse [0x28, 0x5b, 0x61, 0x2d] = .error ⟨.unterminatedBracket, 1⟩ := rfl
  refine ⟨hcounts, ?_, hbracket, ?_⟩
  · exact (parse_append_of_error hcounts).1 ⟨by decide, by decide⟩
  · exact (parse_append_of_error hbracket).2 (Or.inr (Or.inr ⟨rfl, by decide⟩))

end BytePattern
