import BytePattern.Proofs.Pattern.Counted

set_option autoImplicit false

/-!
# Patterns: the short quantifiers

A byte that is a quantifier and the braces with the same counts do the same, wherever
they stand and whatever follows.  Afterwards two readers differ in offsets alone, and a
reader never compares offsets: with all of them moved it takes the same bytes and stops
at the same ones.  So the rest of the pattern is read alike, and an error of the one
pattern is that of the other, at the same offset up to the quantifier and as much
further on behind it as the braces are longer.
-/

namespace BytePattern

open Quantifier

/-! ## Offsets moved -/

/-- The error with its offset moved. -/
def PatternError.moved (f : Nat → Nat) (e : PatternError) : PatternError := ⟨e.fault, f e.offset⟩

/-- The context with its offsets moved. -/
def Context.moved (f : Nat → Nat) : Context → Context
  | .items => .items
  | .bracket opened ranges => .bracket (f opened) ranges
  | .range opened dash ranges => .range (f opened) (f dash) ranges
  | .counts opened body => .counts (f opened) body

/-- A result with the offset of its error moved, or what was read changed so. -/
def Reader.movedResult {α β : Type} (f : Nat → Nat) (change : α → β) :
    Except PatternError α → Except PatternError β
  | .ok a => .ok (change a)
  | .error e => .error (e.moved f)

namespace Reader

/-- The reader with its offsets moved. -/
def moved (f : Nat → Nat) (r : Reader) : Reader :=
  ⟨f r.offset, r.context.moved f, r.level, r.outer.map fun group => (f group.1, group.2)⟩

section

variable {f : Nat → Nat} {r : Reader}

theorem next_moved (h : f (r.offset + 1) = f r.offset + 1) (context : Context) (level : Level) :
    (r.moved f).next (context.moved f) level = (r.next context level).moved f := by
  simp only [next, moved, h]

theorem nextOr_moved (h : f (r.offset + 1) = f r.offset + 1) (fault : Fault)
    (level? : Option Level) :
    (r.moved f).nextOr fault level? = movedResult f (moved f) (r.nextOr fault level?) := by
  cases level? with
  | none => rfl
  | some level => exact congrArg Except.ok (next_moved h .items level)

theorem close_moved (h : f (r.offset + 1) = f r.offset + 1) :
    (r.moved f).close = movedResult f (moved f) r.close := by
  obtain ⟨offset, context, level, outer⟩ := r
  cases outer with
  | nil =>
    simp only [close, moved, List.map_nil]
    split
    · exact congrArg Except.ok (next_moved h .items _)
    · rfl
  | cons group outer =>
    simp only [close, moved, List.map_cons]
    cases level.tokens? with
    | none => rfl
    | some tokens => simp only [movedResult, moved, Context.moved, h]

theorem stepItems_moved (h : f (r.offset + 1) = f r.offset + 1) (b : UInt8) :
    (r.moved f).stepItems b = movedResult f (moved f) (r.stepItems b) := by
  unfold stepItems
  split
  · simp only [movedResult, moved, Context.moved, List.map_cons, h]
  split
  · exact close_moved h
  split
  · exact congrArg Except.ok (next_moved h (.bracket r.offset []) r.level)
  split
  · exact congrArg Except.ok (next_moved h (.counts r.offset []) r.level)
  split
  · exact nextOr_moved h _ _
  cases ofByte? b with
  | some q => exact nextOr_moved h _ _
  | none => exact congrArg Except.ok (next_moved h .items _)

theorem stepBracket_moved (h : f (r.offset + 1) = f r.offset + 1) (opened : Nat)
    (ranges : List (UInt8 × UInt8)) (b : UInt8) :
    (r.moved f).stepBracket (f opened) ranges b = (r.stepBracket opened ranges b).moved f := by
  unfold stepBracket
  split
  · exact next_moved h .items _
  split
  · exact next_moved h (.range opened r.offset ranges) r.level
  · exact next_moved h (.bracket opened _) r.level

theorem stepRange_moved (h : f (r.offset + 1) = f r.offset + 1) (opened dash : Nat) (b : UInt8)
    (ranges : List (UInt8 × UInt8)) :
    (r.moved f).stepRange (f opened) (f dash) b ranges =
      movedResult f (moved f) (r.stepRange opened dash b ranges) := by
  cases ranges with
  | nil => rfl
  | cons range ranges => exact congrArg Except.ok (next_moved h (.bracket opened _) r.level)

theorem stepCounts_moved (h : f (r.offset + 1) = f r.offset + 1) (opened : Nat)
    (body : List UInt8) (b : UInt8) :
    (r.moved f).stepCounts (f opened) body b =
      movedResult f (moved f) (r.stepCounts opened body b) := by
  have hlevel : (r.moved f).level = r.level := rfl
  unfold stepCounts
  rw [hlevel]
  split
  · cases ofBody body.reverse with
    | error fault => rfl
    | ok q =>
      dsimp only
      cases r.level.quantify? q with
      | none => rfl
      | some level => exact congrArg Except.ok (next_moved h .items level)
  · exact congrArg Except.ok (next_moved h (.counts opened _) r.level)

/-- No step looks at an offset. -/
theorem step_moved (h : f (r.offset + 1) = f r.offset + 1) (b : UInt8) :
    (r.moved f).step b = movedResult f (moved f) (r.step b) := by
  have hcontext : (r.moved f).context = r.context.moved f := rfl
  unfold step
  rw [hcontext]
  cases r.context with
  | items => exact stepItems_moved h b
  | bracket opened ranges => exact congrArg Except.ok (stepBracket_moved h opened ranges b)
  | range opened dash ranges => exact stepRange_moved h opened dash b ranges
  | counts opened body => exact stepCounts_moved h opened body b

theorem finish_moved (f : Nat → Nat) (r : Reader) :
    (r.moved f).finish = movedResult f id r.finish := by
  obtain ⟨offset, context, level, outer⟩ := r
  cases context with
  | bracket _ _ => rfl
  | range _ _ _ => rfl
  | counts _ _ => rfl
  | items =>
    cases outer with
    | cons group outer => rfl
    | nil =>
      simp only [finish, moved, Context.moved, List.map_nil]
      cases level.tokens? with
      | none => rfl
      | some tokens => rfl

/-- What is left of a pattern is read alike after the offsets have been moved, as long as
the offsets still to come stay in a row. -/
theorem run_moved (hrow : ∀ k, r.offset ≤ k → f (k + 1) = f k + 1) (rest : List UInt8) :
    ((r.moved f).run rest).bind finish = movedResult f id ((r.run rest).bind finish) := by
  induction rest generalizing r with
  | nil => exact finish_moved f r
  | cons b rest ih =>
    have hstep := step_moved (hrow r.offset (Nat.le_refl _)) b
    rw [run_cons, run_cons, hstep]
    cases hs : r.step b with
    | error e => rfl
    | ok s =>
      have hoffset : s.offset = r.offset + 1 := (step_eq_ok.1 hs).offset
      exact ih fun k hk => hrow k (by omega)

end

end Reader

/-! ## Short quantifiers and braces -/

/-- The quantifiers of one byte, each with the braces that have the same counts: `*` and
`{0,}`, `+` and `{1,}`, `?` and `{0,1}`. -/
def shorthands : List (UInt8 × List UInt8) :=
  [(Mark.star, [Mark.openCounts, 0x30, Mark.comma, Mark.closeCounts]),
    (Mark.plus, [Mark.openCounts, 0x31, Mark.comma, Mark.closeCounts]),
    (Mark.query, [Mark.openCounts, 0x30, Mark.comma, 0x31, Mark.closeCounts])]

/-- The offset in a pattern with the braces of what has the other offset with the byte. -/
def pastBraces (before braces : List UInt8) (k : Nat) : Nat :=
  if k ≤ before.length then k else k + (braces.length - 1)

/-- Both of a pair are one quantifier. -/
theorem exists_quantifier_of_shorthand {mark : UInt8} {braces : List UInt8}
    (h : (mark, braces) ∈ shorthands) :
    ∃ q body, ofByte? mark = some q ∧ braces = Mark.openCounts :: (body ++ [Mark.closeCounts]) ∧
      Mark.closeCounts ∉ body ∧ ofBody body = .ok q := by
  simp only [shorthands, List.mem_cons, Prod.mk.injEq, List.not_mem_nil, or_false] at h
  rcases h with ⟨rfl, rfl⟩ | ⟨rfl, rfl⟩ | ⟨rfl, rfl⟩
  · exact ⟨⟨0, .unbounded⟩, [0x30, Mark.comma], rfl, rfl, by decide, rfl⟩
  · exact ⟨⟨1, .unbounded⟩, [0x31, Mark.comma], rfl, rfl, by decide, rfl⟩
  · exact ⟨⟨0, .bounded 1⟩, [0x30, Mark.comma, 0x31], rfl, rfl, by decide, rfl⟩

namespace Reader

section

variable {before braces : List UInt8} {r : Reader} {level : Level}

/-- Where the short quantifier and the braces are taken, the readers behind them differ in
offsets alone. -/
theorem past_braces (h : Reading before r) (hne : braces ≠ []) (mark : UInt8) :
    r.past braces .items level = (r.past [mark] .items level).moved (pastBraces before braces) := by
  have hlength := List.length_pos_iff.2 hne
  have hoffset : r.offset = before.length := h.offset
  have houter :
      r.outer.map (fun group => (pastBraces before braces group.1, group.2)) = r.outer := by
    refine (List.map_congr_left fun group hgroup => ?_).trans (List.map_id _)
    have hlt := h.lt_offset group.1 (List.mem_map_of_mem hgroup)
    rw [pastBraces, if_pos (by omega)]
    rfl
  simp only [past, moved, houter, Context.moved, Reader.mk.injEq, and_true]
  rw [pastBraces, List.length_singleton, if_neg (by omega)]
  omega

/-- Where there is nothing to repeat, both are the same error. -/
theorem run_of_nothing {body : List UInt8} {mark : UInt8} {q : Quantifier}
    (hc : r.context = .items) (hitems : r.level.items = []) (hmark : ofByte? mark = some q)
    (hclose : Mark.closeCounts ∉ body) (hbody : ofBody body = .ok q) (rest : List UInt8) :
    r.run (mark :: rest) = .error ⟨.nothingToRepeat, r.offset⟩ ∧
      r.run (Mark.openCounts :: (body ++ Mark.closeCounts :: rest)) =
        .error ⟨.nothingToRepeat, r.offset⟩ := by
  have hnone : r.level.quantify? q = none := by rw [Level.quantify?, hitems]
  constructor
  · refine run_error_of_step (run_nil r) ?_ rest
    rw [step_items hc, stepItems_quantifier hmark, hnone]
    rfl
  · refine run_error_of_step (takes_openCounts hc hclose) ?_ rest
    exact step_of_nothing rfl (by rwa [List.reverse_reverse]) hitems

end

end Reader

/-- After a text at whose end a pattern stands between items, a quantifier of one byte and
its braces may be put for each other, whatever follows.  Both patterns have the same tokens,
or both have the same fault: at the same offset if that is not behind the text, and as much
further on as the braces are longer if it is. -/
theorem parse_shorthand {before : List UInt8} (hbefore : BetweenItems before) {mark : UInt8}
    {braces : List UInt8} (hpair : (mark, braces) ∈ shorthands) (rest : List UInt8) :
    (∃ tokens, parse (before ++ [mark] ++ rest) = .ok tokens ∧
      parse (before ++ braces ++ rest) = .ok tokens) ∨
    ∃ fault k, parse (before ++ [mark] ++ rest) = .error ⟨fault, k⟩ ∧
      parse (before ++ braces ++ rest) = .error
        ⟨fault, if k ≤ before.length then k else k + (braces.length - 1)⟩ := by
  obtain ⟨r, hrun, hc⟩ := hbefore.exists_run
  have hr := Reading.run hrun
  obtain ⟨q, body, hmark, hbraces, hclose, hbody⟩ := exists_quantifier_of_shorthand hpair
  have hne : braces ≠ [] := hbraces ▸ List.cons_ne_nil _ _
  cases hlevel : r.level.quantify? q with
  | none =>
    -- neither is taken
    obtain ⟨hshort, hlong⟩ := Reader.run_of_nothing hc (Level.quantify?_eq_none hlevel) hmark hclose
      hbody rest
    refine Or.inr ⟨.nothingToRepeat, r.offset, ?_, ?_⟩
    · rw [List.append_assoc, parse_append hrun, List.singleton_append, hshort]
      rfl
    · have hsplit : braces ++ rest = Mark.openCounts :: (body ++ Mark.closeCounts :: rest) := by
        simp [hbraces]
      rw [List.append_assoc, parse_append hrun, hsplit, hlong,
        if_pos (Nat.le_of_eq hr.offset)]
      rfl
  | some level =>
    -- both are taken, and the readers behind them go on alike
    have hshort := (Reader.Step.quantify hc hmark hlevel).takes
    have hlong : r.Takes braces .items level :=
      hbraces ▸
        Reader.takes_quantifier (quantifies_iff.2 (.inr ⟨body, rfl, hclose, hbody⟩)) hc hlevel
    have hrow : ∀ k, (r.past [mark] .items level).offset ≤ k →
        pastBraces before braces (k + 1) = pastBraces before braces k + 1 := by
      intro k hk
      have hoffset : before.length + 1 ≤ k := hr.offset ▸ hk
      unfold pastBraces
      rw [if_neg (by omega), if_neg (by omega)]
      omega
    have hmoved := Reader.run_moved hrow rest
    rw [← Reader.past_braces hr hne mark,
      ← parse_append (Reader.run_trans hrun hlong), ← parse_append (Reader.run_trans hrun hshort)]
      at hmoved
    cases hparse : parse (before ++ [mark] ++ rest) with
    | ok tokens =>
      rw [hparse] at hmoved
      exact Or.inl ⟨tokens, rfl, hmoved⟩
    | error e =>
      rw [hparse] at hmoved
      exact Or.inr ⟨e.fault, e.offset, rfl, hmoved⟩

/-- After `(a|b` the byte `+` and the braces `{1,}` in front of `(`: the error is that of the
parenthesis behind, which the braces put three bytes further on. -/
theorem parse_shorthand_group :
    parse ([0x28, 0x61, 0x7c, 0x62] ++ [Mark.plus] ++ [0x28]) = .error ⟨.unterminatedGroup, 5⟩ ∧
      parse ([0x28, 0x61, 0x7c, 0x62] ++
        [Mark.openCounts, 0x31, Mark.comma, Mark.closeCounts] ++ [0x28]) =
          .error ⟨.unterminatedGroup, 8⟩ := by
  have hgroup : parse [0x28, 0x61, 0x7c, 0x62] = .error ⟨.unterminatedGroup, 0⟩ := rfl
  have hshort : parse ([0x28, 0x61, 0x7c, 0x62] ++ [Mark.plus] ++ [0x28]) =
      .error ⟨.unterminatedGroup, 5⟩ := rfl
  have hpair : (Mark.plus, [Mark.openCounts, 0x31, Mark.comma, Mark.closeCounts]) ∈ shorthands := by
    simp [shorthands]
  refine ⟨hshort, ?_⟩
  rcases parse_shorthand (.inr (.inl ⟨0, hgroup⟩)) hpair [0x28] with
    ⟨tokens, htokens, _⟩ | ⟨fault, k, hfault, hlong⟩
  · cases hshort.symm.trans htokens
  · obtain ⟨rfl, rfl⟩ := PatternError.mk.inj (Except.error.inj (hshort.symm.trans hfault))
    exact hlong

end BytePattern
