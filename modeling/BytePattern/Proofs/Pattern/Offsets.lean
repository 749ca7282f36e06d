import BytePattern.Proofs.Pattern.Acceptance
import BytePattern.Proofs.Pattern.Failing
import BytePattern.Proofs.Pattern.Reading

set_option autoImplicit false

/-!
# Patterns: offsets left behind

An error names the offset at which the reader stands or one that the reader holds, of
a bracket, a dash, a brace or a parenthesis.  An offset that the reader has passed
without holding it is never held again, so no error names it.
-/

namespace BytePattern

/-- The offsets that a context holds. -/
def Context.offsets : Context → List Nat
  | .items => []
  | .bracket opened _ => [opened]
  | .range opened dash _ => [opened, dash]
  | .counts opened _ => [opened]

namespace Reader

/-- The reader is past the offset, and does not hold it. -/
structure LeftBehind (k : Nat) (r : Reader) : Prop where
  passed : k < r.offset
  context : k ∉ r.context.offsets
  outer : k ∉ r.outer.map Prod.fst

section

variable {k : Nat} {r s : Reader} {b : UInt8} {e : PatternError}

/-- All that a step newly holds is the offset of its byte. -/
theorem Step.leftBehind (h : Step r b s) (hk : LeftBehind k r) : LeftBehind k s := by
  obtain ⟨hpassed, hcontext, houter⟩ := hk
  have hnext : k < r.offset + 1 := Nat.lt_succ_of_lt hpassed
  have hnew : k ≠ r.offset := Nat.ne_of_lt hpassed
  cases h with
  | openGroup _ => exact ⟨hnext, List.not_mem_nil, List.not_mem_cons_of_ne_of_not_mem hnew houter⟩
  | closeGroup _ hgroups _ =>
    rw [hgroups] at houter
    exact ⟨hnext, List.not_mem_nil, List.not_mem_of_not_mem_cons houter⟩
  | openBracket _ => exact ⟨hnext, List.not_mem_cons_of_ne_of_not_mem hnew List.not_mem_nil, houter⟩
  | openCounts _ => exact ⟨hnext, List.not_mem_cons_of_ne_of_not_mem hnew List.not_mem_nil, houter⟩
  | bar _ _ => exact ⟨hnext, List.not_mem_nil, houter⟩
  | quantify _ _ _ => exact ⟨hnext, List.not_mem_nil, houter⟩
  | plain _ _ => exact ⟨hnext, List.not_mem_nil, houter⟩
  | single hc _ _ =>
    rw [hc] at hcontext
    exact ⟨hnext, hcontext, houter⟩
  | dash hc =>
    rw [hc] at hcontext
    have hopened := List.ne_of_not_mem_cons hcontext
    have hdash : k ∉ [r.offset] := List.not_mem_cons_of_ne_of_not_mem hnew List.not_mem_nil
    exact ⟨hnext, List.not_mem_cons_of_ne_of_not_mem hopened hdash, houter⟩
  | closeBracket _ => exact ⟨hnext, List.not_mem_nil, houter⟩
  | extend hc =>
    rw [hc] at hcontext
    have hopened := List.ne_of_not_mem_cons hcontext
    exact ⟨hnext, List.not_mem_cons_of_ne_of_not_mem hopened List.not_mem_nil, houter⟩
  | count hc _ =>
    rw [hc] at hcontext
    exact ⟨hnext, hcontext, houter⟩
  | closeCounts _ _ _ => exact ⟨hnext, List.not_mem_nil, houter⟩

theorem Fails.offset_ne (h : Fails r b e) (hk : LeftBehind k r) : e.offset ≠ k := by
  obtain ⟨hpassed, hcontext, _⟩ := hk
  cases h with
  | emptyGroup _ _ _ => exact (Nat.ne_of_lt hpassed).symm
  | unmatchedClose _ _ _ => exact (Nat.ne_of_lt hpassed).symm
  | emptyAlternative _ _ => exact (Nat.ne_of_lt hpassed).symm
  | nothingToRepeat _ _ _ => exact (Nat.ne_of_lt hpassed).symm
  | danglingRange hc =>
    rw [hc] at hcontext
    exact (List.ne_of_not_mem_cons (List.not_mem_of_not_mem_cons hcontext)).symm
  | rejected hc _ =>
    rw [hc] at hcontext
    exact (List.ne_of_not_mem_cons hcontext).symm
  | nothingToCount hc _ =>
    rw [hc] at hcontext
    exact (List.ne_of_not_mem_cons hcontext).symm

theorem Stops.offset_ne (h : Stops r e) (hk : LeftBehind k r) : e.offset ≠ k := by
  obtain ⟨hpassed, hcontext, houter⟩ := hk
  cases h with
  | group _ hgroups =>
    rw [hgroups] at houter
    exact (List.ne_of_not_mem_cons houter).symm
  | empty _ _ _ => exact (Nat.ne_of_lt hpassed).symm
  | bracket hc =>
    rw [hc] at hcontext
    exact (List.ne_of_not_mem_cons hcontext).symm
  | range hc =>
    rw [hc] at hcontext
    exact (List.ne_of_not_mem_cons hcontext).symm
  | counts hc =>
    rw [hc] at hcontext
    exact (List.ne_of_not_mem_cons hcontext).symm

theorem LeftBehind.run {text : List UInt8} (hk : LeftBehind k r) (h : r.run text = .ok s) :
    LeftBehind k s := by
  induction text generalizing r with
  | nil =>
    obtain rfl := Except.ok.inj h
    exact hk
  | cons b text ih =>
    rw [run_cons, bind_eq_ok] at h
    obtain ⟨t, ht, hrest⟩ := h
    exact ih ((step_eq_ok.1 ht).leftBehind hk) hrest

/-- However a pattern goes on, its error does not name an offset left behind. -/
theorem LeftBehind.offset_ne {rest : List UInt8} (hk : LeftBehind k r)
    (h : (r.run rest).bind finish = .error e) : e.offset ≠ k := by
  rcases bind_eq_error.1 h with hfail | ⟨s, hs, hfinish⟩
  · obtain ⟨before, b, _, s, _, hs, hfails⟩ := run_eq_error hfail
    exact hfails.offset_ne (hk.run hs)
  · exact (stops_of_finish hfinish).offset_ne (hk.run hs)

end

end Reader

/-! ## Groups and the text before them -/

theorem Groups.lt_length {text : List UInt8} {outer : List (Nat × Level)} (h : Groups text outer) :
    ∀ opened ∈ outer.map Prod.fst, opened < text.length := by
  induction h with
  | nil => simp
  | @snoc text own outer level _ _ ih =>
    rw [List.map_cons, List.forall_mem_cons, List.length_append, List.length_append]
    refine ⟨?_, fun opened hmem => ?_⟩
    · rw [List.length_append, List.length_singleton]
      omega
    · exact Nat.lt_add_right _ (ih opened hmem)

/-- The groups around a reader were opened before it. -/
theorem Reading.lt_offset {text : List UInt8} {r : Reader} (h : Reading text r) :
    ∀ opened ∈ r.outer.map Prod.fst, opened < r.offset := by
  obtain @⟨before, own, tail, context, level, outer, hgroups, _, _⟩ := h
  intro opened hmem
  show opened < (before ++ own ++ tail).length
  rw [List.length_append, List.length_append, Nat.add_assoc]
  exact Nat.lt_add_right _ (hgroups.lt_length opened hmem)

/-- Past a text the offset before it is left behind, whatever the text was, once the
reader stands between items again. -/
theorem Reading.leftBehind_past {before text : List UInt8} {r : Reader} (h : Reading before r)
    (hne : text ≠ []) (level : Level) :
    Reader.LeftBehind before.length (r.past text .items level) := by
  rw [← h.offset]
  refine ⟨?_, List.not_mem_nil, fun hmem => Nat.lt_irrefl _ (h.lt_offset _ hmem)⟩
  exact Nat.lt_add_of_pos_right (List.length_pos_iff.2 hne)

end BytePattern
