import BytePattern.Proofs.Pattern.Acceptance
import BytePattern.Proofs.Pattern.Descent.Depth
import BytePattern.Proofs.Pattern.Descent.Ends
import BytePattern.Proofs.Pattern.Failing

set_option autoImplicit false

/-!
# Patterns: recursive descent reads what the reader reads

Wherever a procedure is called, a reader stands at the cursor with the same tokens and the
same groups around them.  The procedure ends, and either its error is what comes of that
reader, or the reader would have come to where the cursor is then with the tokens that are
returned.  The procedures are taken one by one, each under what is known of a sequence that
begins later in the pattern.  From one sequence to the next inside it no more than five calls
nest, of `sequence`, `parts`, `part`, `begun` and `group` or `bar`, and a byte has been taken.
-/

namespace BytePattern

/-! ## What comes of a reader -/

namespace Reader

/-- The tokens or the error of the pattern, when the reader stands in it at its offset. -/
def outcome (pattern : List UInt8) (r : Reader) : Except PatternError (List Token) :=
  (r.run (pattern.drop r.offset)).bind finish

section

variable {pattern : List UInt8} {r s : Reader} {b : UInt8}

theorem drop_eq_cons {k : Nat} (h : pattern[k]? = some b) :
    pattern.drop k = b :: pattern.drop (k + 1) := by
  obtain ⟨hlt, rfl⟩ := List.getElem?_eq_some_iff.1 h
  exact List.drop_eq_getElem_cons hlt

/-- What comes of a reader comes of its next step. -/
theorem outcome_of_byte (hb : pattern[r.offset]? = some b) :
    r.outcome pattern = (r.step b).bind (outcome pattern) := by
  unfold outcome
  rw [drop_eq_cons hb, run_cons]
  cases hstep : r.step b with
  | error e => rfl
  | ok s =>
    show (s.run (pattern.drop (r.offset + 1))).bind finish = s.outcome pattern
    rw [← (step_eq_ok.1 hstep).offset]
    rfl

theorem outcome_of_step (hb : pattern[r.offset]? = some b) (h : Step r b s) :
    r.outcome pattern = s.outcome pattern := by
  rw [outcome_of_byte hb, h.step]
  rfl

theorem outcome_of_error (hb : pattern[r.offset]? = some b) {e : PatternError}
    (h : r.step b = .error e) : r.outcome pattern = .error e := by
  rw [outcome_of_byte hb, h]
  rfl

theorem outcome_of_end (h : pattern[r.offset]? = none) : r.outcome pattern = r.finish := by
  unfold outcome
  rw [List.drop_eq_nil_of_le (List.getElem?_eq_none_iff.1 h)]
  rfl

/-- What comes of a reader comes of it past a text that it takes. -/
theorem outcome_of_takes (text rest : List UInt8) {context : Context} {level : Level}
    (htext : pattern.drop r.offset = text ++ rest) (h : r.Takes text context level) :
    r.outcome pattern = (r.past text context level).outcome pattern := by
  have hrest : pattern.drop (r.past text context level).offset = rest := by
    show pattern.drop (r.offset + text.length) = rest
    rw [← List.drop_drop, htext, List.drop_left]
  unfold outcome
  rw [hrest, htext, run_append, show r.run text = _ from h]
  rfl

/-- What comes of braces comes of the closing one. -/
theorem outcome_counts {body rest : List UInt8} (hc : r.context = .items)
    (htext : pattern.drop r.offset = Mark.openCounts :: (body ++ Mark.closeCounts :: rest))
    (hnone : Mark.closeCounts ∉ body) :
    r.outcome pattern = (stepCounts ⟨r.offset + 1 + body.length, .counts r.offset body.reverse,
      r.level, r.outer⟩ r.offset body.reverse Mark.closeCounts).bind (outcome pattern) := by
  have hoffset : r.offset + (Mark.openCounts :: body).length = r.offset + 1 + body.length := by
    rw [List.length_cons]
    omega
  have hbrace : pattern[r.offset + (Mark.openCounts :: body).length]? = some Mark.closeCounts := by
    rw [← List.getElem?_drop, htext, ← List.cons_append,
      List.getElem?_append_right (Nat.le_refl _), Nat.sub_self]
    rfl
  rw [outcome_of_takes (Mark.openCounts :: body) _ htext (takes_openCounts hc hnone),
    ← hoffset]
  exact outcome_of_byte hbrace

end

end Reader

/-! ## Levels and open sequences -/

namespace Descent

/-- The tokens of a sequence, in order, stand in a level behind the alternatives that were
ended before it. -/
def Stands (ended : List (List Token)) (tokens : List Token) (level : Level) : Prop :=
  level.items ≠ [] ∧ ∃ own : List (List Token), level.ended = own ++ ended ∧
    own.foldl Level.join level.items.reverse = tokens

theorem Stands.tokens? {tokens : List Token} {level : Level} (h : Stands [] tokens level) :
    level.tokens? = some tokens := by
  obtain ⟨hne, own, hended, htokens⟩ := h
  obtain ⟨last, before, hcons⟩ := List.exists_cons_of_ne_nil hne
  rw [List.append_nil] at hended
  unfold Level.tokens?
  rw [hcons]
  dsimp only
  rw [← hcons, hended, htokens]

theorem stands_items {ended : List (List Token)} {items : List Token} (h : items ≠ []) :
    Stands ended items.reverse ⟨ended, items⟩ := ⟨h, [], rfl, rfl⟩

/-- What stands behind the left side of a bar is joined to it. -/
theorem Stands.join {ended : List (List Token)} {left right : List Token} {level : Level}
    (h : Stands (left :: ended) right level) : Stands ended (Level.join right left) level := by
  obtain ⟨hne, own, hended, htokens⟩ := h
  refine ⟨hne, own ++ [left], ?_, ?_⟩
  · rw [hended, List.append_assoc, List.singleton_append]
  · rw [List.foldl_append, htokens]
    rfl

/-! ## Where a descent has come to -/

/-- The reader at the cursor, between the items of a level in some groups. -/
def Course.reader (c : Course) (level : Level) (outer : List (Nat × Level)) : Reader :=
  ⟨c.cursor, .items, level, outer⟩

/-- An error is what comes of the reader, and the course is still safe. -/
def Errs (pattern : List UInt8) (r : Reader) (e : PatternError) (d : Course) : Prop :=
  d.Safe pattern ∧ r.outcome pattern = .error e

/-- The course has come to where the reader comes with the tokens, which stand in a level
behind the alternatives of the reader. -/
structure Arrives (pattern : List UInt8) (r : Reader) (tokens : List Token) (d : Course)
    (level : Level) : Prop where
  safe : d.Safe pattern
  forward : r.offset ≤ d.cursor
  stands : Stands r.level.ended tokens level
  outcome : r.outcome pattern = (d.reader level r.outer).outcome pattern

/-- A part has come past a byte and left tokens, and a part that does not leave the sequence
open to more of them has come to where the sequence ends. -/
def PartEnds (pattern : List UInt8) (opened : Option Nat) (r : Reader) (context : List Token)
    (d : Course) : Prop :=
  r.offset < d.cursor ∧ context ≠ [] ∧ ∃ level, Arrives pattern r context.reverse d level ∧
    (level = ⟨r.level.ended, context⟩ ∨ SequenceEnds pattern opened d.cursor)

/-- A sequence has come to where it ends. -/
def SequenceArrives (pattern : List UInt8) (opened : Option Nat) (r : Reader)
    (tokens : List Token) (d : Course) : Prop :=
  SequenceEnds pattern opened d.cursor ∧ ∃ level, Arrives pattern r tokens d level

/-- Where a sequence is called: the groups around the reader are those of the call, and on
the right of a bar there is an alternative before it. -/
def Situated (opened : Option Nat) (alternative : Bool) (r : Reader) : Prop :=
  match opened with
  | some offset => ∃ around outer, r.outer = (offset, around) :: outer
  | none => r.outer = [] ∧ (alternative = true ↔ r.level.ended ≠ [])

section

variable {pattern : List UInt8} {opened : Option Nat} {r s : Reader} {c d : Course}

theorem Errs.of_outcome (h : r.outcome pattern = s.outcome pattern) {e : PatternError}
    (herrs : Errs pattern s e d) : Errs pattern r e d := ⟨herrs.1, h.trans herrs.2⟩

/-- An item that has been read is the last of the open sequence. -/
theorem partEnds_item {context : List Token} (hsafe : d.Safe pattern) (hlt : r.offset < d.cursor)
    (hne : context ≠ [])
    (h : r.outcome pattern = (d.reader ⟨r.level.ended, context⟩ r.outer).outcome pattern) :
    PartEnds pattern opened r context d :=
  ⟨hlt, hne, _, ⟨hsafe, Nat.le_of_lt hlt, stands_items hne, h⟩, Or.inl rfl⟩

/-- To record a call does not change where a part has come to. -/
theorem PartEnds.returned {context : List Token} (h : PartEnds pattern opened r context d)
    {procedure : Procedure} (hprocedure : ∀ opened alternative,
      procedure ≠ .sequence opened alternative) :
    PartEnds pattern opened r context (d.returned procedure r.offset context) := by
  obtain ⟨hlt, hne, level, ⟨hsafe, hle, hstands, houtcome⟩, hopen⟩ := h
  refine ⟨hlt, hne, level, ⟨?_, hle, hstands, houtcome⟩, hopen⟩
  exact hsafe.returned hle (fun opened alternative h => absurd h (hprocedure opened alternative))
    fun _ => ⟨hlt, hne⟩

/-! ## Brackets -/

/-- The ranges of a bracket are those that the reader finds. -/
theorem ranges_agree (hsafe : c.Safe pattern) {depth : Nat}
    (hdepth : pattern.length < c.cursor + depth) (start : Nat) (found : List (UInt8 × UInt8))
    (level : Level) (outer : List (Nat × Level)) :
    Ends (ranges pattern start depth found) c
      (Errs pattern ⟨c.cursor, .bracket start found, level, outer⟩) fun all d =>
        d.Safe pattern ∧ c.cursor < d.cursor ∧
          Reader.outcome pattern ⟨c.cursor, .bracket start found, level, outer⟩ =
            (d.reader (level.push (.bracket (.ofRanges all))) outer).outcome pattern := by
  induction depth generalizing c found with
  | zero =>
    have hle := hsafe.cursor_le
    omega
  | succ depth ih =>
    rw [ranges]
    simp only [ends_bind, ends_cursor]
    cases hb : pattern[c.cursor]? with
    | none =>
      simp only [ends_take_none hb, ends_throw]
      exact ⟨hsafe, Reader.outcome_of_end hb⟩
    | some b =>
      have hnext := hsafe.advanced_one hb
      have hnextDepth : pattern.length < (c.advanced 1).cursor + depth := by
        show pattern.length < c.cursor + 1 + depth
        omega
      simp only [ends_take_some hb]
      split
      · rename_i hclose
        subst hclose
        rw [ends_pure]
        exact ⟨hnext, Nat.lt_succ_self _, Reader.outcome_of_step hb (.closeBracket rfl)⟩
      · rename_i hclose
        split
        · rename_i hdash
          subst hdash
          have hfirst := Reader.outcome_of_step hb (.dash
            (r := ⟨c.cursor, .bracket start found, level, outer⟩) rfl)
          simp only [ends_bind]
          cases hhigh : pattern[(c.advanced 1).cursor]? with
          | none =>
            simp only [ends_take_none hhigh, ends_throw]
            exact ⟨hnext, hfirst.trans (Reader.outcome_of_end hhigh)⟩
          | some high =>
            simp only [ends_take_some hhigh]
            have hpast := hnext.advanced_one hhigh
            cases found with
            | nil =>
              rw [ends_throw]
              exact ⟨hpast, hfirst.trans (Reader.outcome_of_error hhigh rfl)⟩
            | cons range before =>
              have hboth := hfirst.trans (Reader.outcome_of_step hhigh (.extend rfl))
              have hpastDepth := Nat.lt_trans hnextDepth
                (Nat.add_lt_add_right (Nat.lt_succ_self (c.advanced 1).cursor) depth)
              refine (ih hpast hpastDepth _).mono (Errs.of_outcome hboth) ?_
              rintro all d ⟨hd, hcursor, houtcome⟩
              refine ⟨hd, ?_, hboth.trans houtcome⟩
              exact Nat.lt_trans (Nat.lt_add_of_pos_right Nat.two_pos) hcursor
        · rename_i hdash
          have hone := Reader.outcome_of_step hb (.single
            (r := ⟨c.cursor, .bracket start found, level, outer⟩) rfl hclose hdash)
          refine (ih hnext hnextDepth _).mono (Errs.of_outcome hone) ?_
          rintro all d ⟨hd, hcursor, houtcome⟩
          exact ⟨hd, Nat.lt_of_succ_lt hcursor, hone.trans houtcome⟩

end

/-! ## Items and quantifiers -/

theorem exists_takeWhile_ne {b : UInt8} {text : List UInt8} (h : b ∈ text) :
    ∃ rest, text = text.takeWhile (fun a => a ≠ b) ++ b :: rest ∧
      b ∉ text.takeWhile fun a => a ≠ b := by
  induction text with
  | nil => exact absurd h List.not_mem_nil
  | cons a text ih =>
    by_cases ha : a = b
    · refine ⟨text, ?_, ?_⟩ <;> simp [ha]
    · obtain ⟨rest, htext, hnone⟩ := ih ((List.mem_cons.1 h).resolve_left (Ne.symm ha))
      refine ⟨rest, ?_, ?_⟩
      · simpa [ha] using htext
      · simpa [ha, Ne.symm ha] using hnone

section

variable {pattern : List UInt8} {opened : Option Nat} {c : Course} {level : Level}
  {outer : List (Nat × Level)} (hsafe : c.Safe pattern)

include hsafe

theorem bracket_agrees {depth : Nat} (hdepth : pattern.length ≤ c.cursor + depth)
    (hb : pattern[c.cursor]? = some Mark.openBracket) :
    Ends (bracket pattern depth level.items) c (Errs pattern (c.reader level outer))
      (PartEnds pattern opened (c.reader level outer)) := by
  have hopen := Reader.outcome_of_step hb (.openBracket (r := c.reader level outer) rfl)
  have hnextDepth : pattern.length < (c.advanced 1).cursor + depth := by
    show pattern.length < c.cursor + 1 + depth
    omega
  unfold bracket
  simp only [ends_bind, ends_cursor, ends_expect hb, ends_returning]
  refine (ranges_agree (hsafe.advanced_one hb) hnextDepth c.cursor [] level outer).mono
    (Errs.of_outcome hopen) ?_
  rintro found d ⟨hd, hlt, houtcome⟩
  have hpast : c.cursor < d.cursor := Nat.lt_of_succ_lt hlt
  exact (partEnds_item hd hpast (List.cons_ne_nil _ _) (hopen.trans houtcome)).returned (by simp)

theorem shorthand_agrees {b : UInt8} (hb : pattern[c.cursor]? = some b) {q : Quantifier}
    (hq : Quantifier.ofByte? b = some q) :
    Ends (shorthand pattern level.items) c (Errs pattern (c.reader level outer))
      (PartEnds pattern opened (c.reader level outer)) := by
  have hnext := hsafe.advanced_one hb
  unfold shorthand
  simp only [ends_bind, ends_cursor, ends_take_some hb, Option.bind_some, hq]
  cases hitems : level.items with
  | nil =>
    have hstep : (c.reader level outer).step b = .error ⟨.nothingToRepeat, c.cursor⟩ := by
      rw [Reader.step_items rfl, Reader.stepItems_quantifier hq]
      show Reader.nextOr _ _ (level.quantify? q) = _
      rw [Level.quantify?, hitems]
      rfl
    exact (ends_throw _).2 ⟨hnext, Reader.outcome_of_error hb hstep⟩
  | cons last before =>
    have hlevel : level.quantify? q =
        some { level with items := .repeated q.min q.max last :: before } := by
      rw [Level.quantify?, hitems]
    have hstep := Reader.outcome_of_step hb (.quantify (r := c.reader level outer) rfl hq hlevel)
    simp only [repeatLast, ends_pure, ends_returning]
    exact (partEnds_item hnext (Nat.lt_succ_self _) (List.cons_ne_nil _ _) hstep).returned (by simp)

/-- The text between braces is what stands before the first closing one. -/
theorem counts_agree (hb : pattern[c.cursor]? = some Mark.openCounts) :
    Ends (counts pattern level.items) c (Errs pattern (c.reader level outer))
      (PartEnds pattern opened (c.reader level outer)) := by
  have hnext := hsafe.advanced_one hb
  have hdrop : pattern.drop c.cursor = Mark.openCounts :: pattern.drop (c.advanced 1).cursor :=
    Reader.drop_eq_cons hb
  unfold counts
  simp only [ends_bind, ends_cursor, ends_expect hb, ends_takeUntil hnext.cursor_le]
  split
  · rename_i hclose
    obtain ⟨rest, htext, hnone⟩ := exists_takeWhile_ne hclose
    generalize (pattern.drop (c.advanced 1).cursor).takeWhile (fun a => a ≠ Mark.closeCounts) =
      body at *
    rw [htext] at hdrop
    have hlast := Reader.outcome_counts (r := c.reader level outer) rfl hdrop hnone
    have hend : (c.advanced 1).cursor + (body.length + 1) ≤ pattern.length := by
      have hlength := congrArg List.length htext
      have hle := hnext.cursor_le
      simp only [List.length_drop, List.length_append, List.length_cons] at hlength
      omega
    have hpast : ((c.advanced 1).advanced (body.length + 1)).Safe pattern := hnext.advanced hend
    simp only [Reader.stepCounts, if_true, List.reverse_reverse] at hlast
    cases hq : Quantifier.ofBody body with
    | error fault =>
      rw [hq] at hlast
      exact (ends_throw _).2 ⟨hpast, hlast⟩
    | ok q =>
      rw [hq] at hlast
      simp only [Level.quantify?, Course.reader] at hlast
      cases hitems : level.items with
      | nil =>
        rw [hitems] at hlast
        simp only [ends_bind, repeatLast, ends_throw]
        exact ⟨hpast, hlast⟩
      | cons last before =>
        rw [hitems] at hlast
        simp only [ends_bind, repeatLast, ends_pure, ends_returning]
        have hlt : c.cursor < c.cursor + 1 + (body.length + 1) := by omega
        exact (partEnds_item hpast hlt (List.cons_ne_nil _ _) hlast).returned (by simp)
  · rename_i hclose
    rw [ends_throw]
    have htakes := Reader.outcome_of_takes (r := c.reader level outer) _ []
      (by rw [List.append_nil]; exact hdrop) (Reader.takes_openCounts rfl hclose)
    refine ⟨hnext, htakes.trans (Reader.outcome_of_end ?_)⟩
    have hle := hnext.cursor_le
    have hcursor : (c.advanced 1).cursor = c.cursor + 1 := rfl
    refine List.getElem?_eq_none ?_
    show pattern.length ≤ c.cursor + (Mark.openCounts :: pattern.drop _).length
    rw [List.length_cons, List.length_drop]
    omega

end

/-! ## Groups and bars -/

/-- A sequence that is called where the course stands ends with what the reader there comes
to, whatever alternatives are before it and whatever groups around it, when the calls in it
may nest five deep for each byte that is left and five more. -/
def SequenceAgrees (pattern : List UInt8) (c : Course) : Prop :=
  ∀ depth : Nat, 5 * (pattern.length + 1) ≤ 5 * c.cursor + depth →
    ∀ (opened : Option Nat) (alternative : Bool) (ended : List (List Token))
      (outer : List (Nat × Level)), Situated opened alternative (c.reader ⟨ended, []⟩ outer) →
    Ends (sequence pattern depth opened alternative) c (Errs pattern (c.reader ⟨ended, []⟩ outer))
      (SequenceArrives pattern opened (c.reader ⟨ended, []⟩ outer))

section

variable {pattern : List UInt8} {opened : Option Nat} {alternative : Bool} {c d : Course}
  {level : Level} {outer : List (Nat × Level)}

section

variable {depth : Nat} (hsafe : c.Safe pattern)
  (hlater : ∀ d : Course, d.Safe pattern → c.cursor < d.cursor → SequenceAgrees pattern d)
  (hdepth : 5 * pattern.length ≤ 5 * c.cursor + depth)

include hsafe hlater hdepth

/-- A sequence that begins past the byte at the cursor. -/
theorem next_agrees {b : UInt8} (hb : pattern[c.cursor]? = some b)
    {opened : Option Nat} {ended : List (List Token)}
    (hsituated : Situated opened alternative ((c.advanced 1).reader ⟨ended, []⟩ outer)) :
    Ends (sequence pattern depth opened alternative) (c.advanced 1)
      (Errs pattern ((c.advanced 1).reader ⟨ended, []⟩ outer))
      (SequenceArrives pattern opened ((c.advanced 1).reader ⟨ended, []⟩ outer)) := by
  refine hlater _ (hsafe.advanced_one hb) (Nat.lt_succ_self _) depth ?_ _ _ _ _ hsituated
  show 5 * (pattern.length + 1) ≤ 5 * (c.cursor + 1) + depth
  omega

theorem group_agrees (hb : pattern[c.cursor]? = some Mark.openGroup) :
    Ends (group pattern (depth + 1) level.items) c (Errs pattern (c.reader level outer))
      (PartEnds pattern opened (c.reader level outer)) := by
  have hopen := Reader.outcome_of_step hb (.openGroup (r := c.reader level outer) rfl)
  have hinside : Situated (some c.cursor) false
      ((c.advanced 1).reader ⟨[], []⟩ ((c.cursor, level) :: outer)) := ⟨_, _, rfl⟩
  rw [group]
  simp only [ends_bind, ends_cursor, ends_expect hb]
  refine (next_agrees hsafe hlater hdepth hb hinside).mono (Errs.of_outcome hopen) ?_
  rintro tokens d ⟨hends, inner, hinner⟩
  have hclose : pattern[d.cursor]? = some Mark.closeGroup := hends
  have hend := Reader.outcome_of_step hclose
    (.closeGroup (r := d.reader inner ((c.cursor, level) :: outer)) rfl rfl hinner.stands.tokens?)
  have hlt : c.cursor < d.cursor + 1 := Nat.lt_succ_of_lt hinner.forward
  simp only [ends_expect hclose, ends_returning]
  exact (partEnds_item (hinner.safe.advanced_one hclose) hlt (List.cons_ne_nil _ _)
    ((hopen.trans hinner.outcome).trans hend)).returned (by simp)

/-- What follows a bar comes to where the sequence ends, so no part follows this one. -/
theorem bar_agrees (hb : pattern[c.cursor]? = some Mark.bar)
    (hsituated : Situated opened alternative (c.reader level outer)) :
    Ends (bar pattern (depth + 1) opened level.items) c (Errs pattern (c.reader level outer))
      (PartEnds pattern opened (c.reader level outer)) := by
  rw [bar]
  simp only [ends_bind, ends_cursor, ends_expect hb]
  cases hitems : level.items with
  | nil =>
    have hstep : (c.reader level outer).step Mark.bar = .error ⟨.emptyExpression, c.cursor⟩ := by
      show Reader.nextOr _ _ level.bar? = _
      rw [Level.bar?, hitems]
      rfl
    exact (ends_throw _).2 ⟨hsafe.advanced_one hb, Reader.outcome_of_error hb hstep⟩
  | cons last before =>
    have hlevel : level.bar? = some ⟨(last :: before).reverse :: level.ended, []⟩ := by
      rw [Level.bar?, hitems]
    have hbar := Reader.outcome_of_step hb (.bar (r := c.reader level outer) rfl hlevel)
    have hbehind : Situated opened true
        ((c.advanced 1).reader ⟨(last :: before).reverse :: level.ended, []⟩ outer) := by
      cases opened with
      | some offset => exact hsituated
      | none => exact ⟨hsituated.1, iff_of_true rfl (List.cons_ne_nil _ _)⟩
    simp only [finished, ends_pure]
    refine (next_agrees hsafe hlater hdepth hb hbehind).mono (Errs.of_outcome hbar) ?_
    rintro right d ⟨hends, inner, hinner⟩
    have hlt : c.cursor < d.cursor := hinner.forward
    have hpart : PartEnds pattern opened (c.reader level outer)
        (Level.join right (last :: before).reverse) d :=
      ⟨hlt, List.cons_ne_nil _ _, inner, ⟨hinner.safe, Nat.le_of_lt hlt, hinner.stands.join,
        hbar.trans hinner.outcome⟩, Or.inr hends⟩
    rw [ends_returning]
    exact hpart.returned (by simp)

/-! ## Parts -/

theorem begun_agrees {b : UInt8} (hb : pattern[c.cursor]? = some b)
    (hclose : b = Mark.closeGroup → (c.reader level outer).mode = .top)
    (hsituated : Situated opened alternative (c.reader level outer)) :
    Ends (begun pattern (depth + 2) opened level.items b) c (Errs pattern (c.reader level outer))
      (PartEnds pattern opened (c.reader level outer)) := by
  rw [begun]
  split
  · rename_i hgroup
    exact group_agrees hsafe hlater hdepth (hgroup ▸ hb)
  rename_i hgroup
  split
  · rename_i hbracket
    exact bracket_agrees hsafe (by omega) (hbracket ▸ hb)
  rename_i hbracket
  split
  · rename_i hshort
    obtain ⟨q, hq⟩ := Option.isSome_iff_exists.1 hshort
    exact shorthand_agrees hsafe hb hq
  rename_i hshort
  split
  · rename_i hcounts
    exact counts_agree hsafe (hcounts ▸ hb)
  rename_i hcounts
  split
  · rename_i hbar
    exact bar_agrees hsafe hlater hdepth (hbar ▸ hb) hsituated
  rename_i hbar
  have hplain : Grammar.Plain (c.reader level outer).mode b := by
    have hmarks := Quantifier.ofByte?_eq_none.1 (Option.not_isSome_iff_eq_none.1 hshort)
    simp only [List.mem_cons, List.not_mem_nil, or_false, not_or] at hmarks
    refine ⟨?_, hclose⟩
    simp only [List.mem_cons, List.not_mem_nil, or_false, not_or]
    exact ⟨hgroup, hbracket, hcounts, hbar, hmarks⟩
  simp only [ends_bind, ends_advance, ends_pure]
  exact partEnds_item (hsafe.advanced_one hb) (Nat.lt_succ_self _) (List.cons_ne_nil _ _)
    (Reader.outcome_of_step hb (.plain rfl hplain))

theorem part_agrees {b : UInt8} (hb : pattern[c.cursor]? = some b)
    (hclose : b = Mark.closeGroup → (c.reader level outer).mode = .top)
    (hsituated : Situated opened alternative (c.reader level outer)) :
    Ends (part pattern (depth + 3) opened level.items) c (Errs pattern (c.reader level outer))
      (PartEnds pattern opened (c.reader level outer)) := by
  rw [part]
  simp only [ends_bind, ends_cursor, ends_peek, hb]
  refine (begun_agrees hsafe hlater hdepth hb hclose hsituated).mono id fun {context d} h => ?_
  rw [ends_returning]
  exact h.returned (by simp)

end

/-! ## Sequences -/

/-- Where a sequence ends no part is begun. -/
theorem parts_of_ends {depth : Nat} {context : List Token}
    (h : SequenceEnds pattern opened c.cursor)
    {fail : PatternError → Course → Prop} {ok : List Token → Course → Prop} :
    Ends (parts pattern (depth + 1) opened alternative context) c fail ok ↔ ok context c := by
  rw [parts]
  cases opened with
  | none =>
    have hnone : pattern[c.cursor]? = none :=
      List.getElem?_eq_none (Nat.le_of_eq (Eq.symm h))
    simp only [ends_bind, ends_peek, hnone, ends_pure]
  | some offset =>
    have hclose : pattern[c.cursor]? = some Mark.closeGroup := h
    simp only [ends_bind, ends_peek, hclose, Option.isSome_some, and_self, if_true, ends_pure]

/-- The sequence that is open is what the reader has read of it. -/
theorem arrives_here (hsafe : c.Safe pattern) {ended : List (List Token)} {context : List Token}
    (hne : context ≠ []) :
    Arrives pattern (c.reader ⟨ended, context⟩ outer) context.reverse c ⟨ended, context⟩ :=
  ⟨hsafe, Nat.le_refl _, stands_items hne, rfl⟩

/-- Before the end of a sequence a byte that closes nothing is begun at the top alone. -/
theorem mode_of_not_ends {b : UInt8} {r : Reader} (hb : pattern[c.cursor]? = some b)
    (hends : ¬ SequenceEnds pattern opened c.cursor)
    (hunmatched : ¬ (b = Mark.closeGroup ∧ alternative = true))
    (hsituated : Situated opened alternative r) (hclose : b = Mark.closeGroup) :
    r.mode = .top := by
  subst hclose
  cases opened with
  | some offset => exact absurd hb hends
  | none =>
    obtain ⟨houter, hiff⟩ := hsituated
    have hended : r.level.ended = [] := by
      by_contra hne
      exact hunmatched ⟨rfl, hiff.2 hne⟩
    exact Reader.mode_eq_top.2 ⟨houter, hended⟩

/-- Behind a bar outside all groups a closing parenthesis closes nothing. -/
theorem outcome_of_unmatched {ended : List (List Token)} {context : List Token}
    (hclose : pattern[c.cursor]? = some Mark.closeGroup) (halternative : alternative = true)
    (hsituated : Situated none alternative (c.reader ⟨ended, context⟩ outer)) :
    (c.reader ⟨ended, context⟩ outer).outcome pattern = .error ⟨.unmatchedClose, c.cursor⟩ := by
  obtain ⟨rfl, hiff⟩ := hsituated
  obtain ⟨first, others, rfl⟩ := List.exists_cons_of_ne_nil (hiff.1 halternative)
  exact Reader.outcome_of_error hclose rfl

/-- What is read from where a part has come to is read from before the part. -/
theorem Arrives.then {r : Reader} {e : Course} {context tokens : List Token} {inner level : Level}
    (h : Arrives pattern r context d inner)
    (hmore : Arrives pattern (d.reader inner r.outer) tokens e level)
    (hended : inner.ended = r.level.ended) : Arrives pattern r tokens e level :=
  ⟨hmore.safe, Nat.le_trans h.forward hmore.forward, hended ▸ hmore.stands,
    h.outcome.trans hmore.outcome⟩

/-- Part after part a sequence comes to its end. -/
theorem parts_agree (hsafe : c.Safe pattern)
    (hlater : ∀ d : Course, d.Safe pattern → c.cursor < d.cursor → SequenceAgrees pattern d)
    {depth : Nat} (hdepth : 5 * pattern.length + 4 ≤ 5 * c.cursor + depth)
    {ended : List (List Token)} {context : List Token}
    (hsituated : Situated opened alternative (c.reader ⟨ended, context⟩ outer)) :
    Ends (parts pattern depth opened alternative context) c
      (Errs pattern (c.reader ⟨ended, context⟩ outer)) fun all d =>
        SequenceEnds pattern opened d.cursor ∧
          ((all = [] ∧ context = [] ∧ d = c) ∨ all ≠ [] ∧ ∃ level,
            Arrives pattern (c.reader ⟨ended, context⟩ outer) all.reverse d level) := by
  induction depth generalizing c context with
  | zero =>
    have hle := hsafe.cursor_le
    omega
  | succ depth ih =>
    by_cases hends : SequenceEnds pattern opened c.cursor
    · rw [parts_of_ends hends]
      refine ⟨hends, ?_⟩
      by_cases hne : context = []
      · exact Or.inl ⟨hne, hne, rfl⟩
      · exact Or.inr ⟨hne, _, arrives_here hsafe hne⟩
    rw [parts]
    simp only [ends_bind, ends_peek]
    cases hb : pattern[c.cursor]? with
    | none =>
      cases opened with
      | none =>
        exact absurd (Nat.le_antisymm hsafe.cursor_le (List.getElem?_eq_none_iff.1 hb)) hends
      | some offset =>
        obtain ⟨around, rest, rfl⟩ := hsituated
        exact (ends_throw _).2 ⟨hsafe, Reader.outcome_of_end hb⟩
    | some b =>
      have hopen : ¬ (b = Mark.closeGroup ∧ opened.isSome = true) := by
        rintro ⟨rfl, hsome⟩
        obtain ⟨offset, rfl⟩ := Option.isSome_iff_exists.1 hsome
        exact hends hb
      simp only [hopen, if_false]
      split
      · rename_i hunmatched
        obtain ⟨rfl, halternative⟩ := hunmatched
        cases opened with
        | some offset => exact absurd hb hends
        | none =>
          simp only [ends_bind, ends_cursor, ends_throw]
          exact ⟨hsafe, outcome_of_unmatched hb halternative hsituated⟩
      · rename_i hunmatched
        have hmode : b = Mark.closeGroup → (c.reader ⟨ended, context⟩ outer).mode = .top :=
          mode_of_not_ends hb hends hunmatched hsituated
        have hlt : c.cursor < pattern.length := (List.getElem?_eq_some_iff.1 hb).1
        obtain ⟨below, rfl⟩ : ∃ below, depth = below + 3 := ⟨depth - 3, by omega⟩
        have hbelow : 5 * pattern.length ≤ 5 * c.cursor + below := by omega
        rw [ends_bind]
        refine (part_agrees hsafe hlater hbelow hb hmode hsituated).mono id ?_
        rintro mid d ⟨hlt, hne, level, harrives, hopen⟩
        have hcursor : c.cursor < d.cursor := hlt
        rcases hopen with rfl | hends
        · -- the sequence is open to more parts, and fewer bytes are left
          have hthere : Situated opened alternative (d.reader ⟨ended, mid⟩ outer) := by
            cases opened <;> exact hsituated
          have hrest := ih harrives.safe
            (fun e he hde => hlater e he (Nat.lt_trans hcursor hde)) (by omega) hthere
          refine hrest.mono (Errs.of_outcome harrives.outcome) ?_
          rintro all e ⟨hends, ⟨_, hnil, _⟩ | ⟨hall, level, hmore⟩⟩
          · exact absurd hnil hne
          · exact ⟨hends, Or.inr ⟨hall, level, harrives.then hmore rfl⟩⟩
        · rw [parts_of_ends hends]
          exact ⟨hends, Or.inr ⟨hne, level, harrives⟩⟩

/-- A sequence without parts is an error where it ends. -/
theorem outcome_of_empty {ended : List (List Token)} (hends : SequenceEnds pattern opened c.cursor)
    (hsituated : Situated opened alternative (c.reader ⟨ended, []⟩ outer)) :
    (c.reader ⟨ended, []⟩ outer).outcome pattern = .error ⟨.emptyExpression, c.cursor⟩ := by
  cases opened with
  | some offset =>
    obtain ⟨around, rest, rfl⟩ := hsituated
    have hclose : pattern[c.cursor]? = some Mark.closeGroup := hends
    exact Reader.outcome_of_error hclose rfl
  | none =>
    obtain ⟨rfl, _⟩ := hsituated
    exact Reader.outcome_of_end (List.getElem?_eq_none (Nat.le_of_eq (Eq.symm hends)))

theorem sequence_agrees_of_later (hsafe : c.Safe pattern)
    (hlater : ∀ d : Course, d.Safe pattern → c.cursor < d.cursor → SequenceAgrees pattern d) :
    SequenceAgrees pattern c := by
  intro depth hdepth opened alternative ended outer hsituated
  have hle := hsafe.cursor_le
  obtain ⟨below, rfl⟩ : ∃ below, depth = below + 1 := ⟨depth - 1, by omega⟩
  have hbelow : 5 * pattern.length + 4 ≤ 5 * c.cursor + below := by omega
  rw [sequence]
  simp only [ends_bind, ends_cursor]
  refine (parts_agree hsafe hlater hbelow hsituated).mono id ?_
  rintro all d ⟨hends, ⟨rfl, _, rfl⟩ | ⟨hne, level, harrives⟩⟩
  · exact (ends_throw _).2 ⟨hsafe, outcome_of_empty hends hsituated⟩
  · obtain ⟨last, before, rfl⟩ := List.exists_cons_of_ne_nil hne
    simp only [finished, ends_pure, ends_returning]
    have hreturned : (d.returned (.sequence opened alternative) c.cursor
        (last :: before).reverse).Safe pattern := by
      refine harrives.safe.returned harrives.forward ?_ (by simp)
      rintro opened' alternative' hsame
      obtain ⟨rfl, _⟩ := Procedure.sequence.inj hsame
      exact hends
    exact ⟨hends, level, hreturned, harrives.forward, harrives.stands, harrives.outcome⟩

/-- Every call of a sequence begins later in the pattern than the one that leads to it. -/
theorem sequence_agrees (hsafe : c.Safe pattern) : SequenceAgrees pattern c := by
  induction hleft : pattern.length - c.cursor using Nat.strongRecOn generalizing c with
  | ind left ih =>
    refine sequence_agrees_of_later hsafe fun d hd hlt => ih _ ?_ hd rfl
    have hle := hd.cursor_le
    omega

end

/-! ## Patterns -/

/-- A descent through a pattern comes to an end whatever the pattern is: its calls nest no
deeper than five for each byte and five more, and it has the tokens or the error that the
pattern is read with.  On the way the cursor never stands behind the end of the pattern and
is never moved back, a part takes at least one byte and leaves the sequence with a token,
and a sequence comes to its closing parenthesis or to the end of the pattern. -/
theorem ofPattern_safe (pattern : List UInt8) :
    ∃ course, course.Safe pattern ∧
      ∀ depth ≥ 5 * (pattern.length + 1),
        ofPattern depth pattern = some (parse pattern, course) := by
  suffices h : ∃ course, course.Safe pattern ∧
      ofPattern (5 * (pattern.length + 1)) pattern = some (parse pattern, course) by
    obtain ⟨course, hsafe, hresult⟩ := h
    exact ⟨course, hsafe, fun depth hdepth => ofPattern_of_le pattern hdepth hresult⟩
  have hsituated : Situated none false (Course.start.reader ⟨[], []⟩ []) :=
    ⟨rfl, iff_of_false Bool.false_ne_true fun h => h rfl⟩
  have hroot := sequence_agrees (safe_start pattern) _ (Nat.le_add_left _ _) none false [] []
    hsituated
  rcases hroot with ⟨e, d, hrun, hsafe, houtcome⟩ | ⟨tokens, d, hrun, hends, level, harrives⟩
  · have herror : parse pattern = .error e := houtcome
    rw [herror]
    exact ⟨d, hsafe, hrun⟩
  · have hnone : pattern[d.cursor]? = none :=
      List.getElem?_eq_none (Nat.le_of_eq (Eq.symm hends))
    have htokens : parse pattern = .ok tokens := by
      refine (harrives.outcome.trans (Reader.outcome_of_end hnone)).trans ?_
      exact Reader.finish_eq_ok.2 ⟨rfl, rfl, harrives.stands.tokens?⟩
    rw [htokens]
    exact ⟨d, harrives.safe, hrun⟩

/-- The descent through `(a)*`, with the calls that have returned, latest first. -/
theorem ofPattern_safe_group :
    ∃ course : Course, course.Safe [0x28, 0x61, 0x29, 0x2a] ∧
      ofPattern 25 [0x28, 0x61, 0x29, 0x2a] =
        some (.ok [.repeated 0 .unbounded (.group [.literal 0x61])], course) ∧
      course.cursor :: course.past = [4, 3, 2, 1, 0] ∧
      (course.returns.map fun r => (r.procedure, r.before, r.after)) =
        [(.sequence none false, 0, 4), (.part, 3, 4), (.shorthand, 3, 4), (.part, 0, 3),
          (.group, 0, 3), (.sequence (some 0) false, 1, 2), (.part, 1, 2)] := by
  have hparse : parse [0x28, 0x61, 0x29, 0x2a] =
      .ok [.repeated 0 .unbounded (.group [.literal 0x61])] := rfl
  obtain ⟨course, hsafe, hresult⟩ := ofPattern_safe [0x28, 0x61, 0x29, 0x2a]
  have hrun := (hresult 25 (by decide)).trans (by rw [hparse])
  obtain rfl := (Prod.mk.inj (Option.some.inj hrun)).2
  exact ⟨_, hsafe, rfl, rfl, rfl⟩

end Descent

end BytePattern
