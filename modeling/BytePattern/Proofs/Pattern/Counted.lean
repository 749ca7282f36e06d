import BytePattern.Proofs.Pattern.Completion
import BytePattern.Proofs.Pattern.Image
import BytePattern.Proofs.Pattern.Offsets

set_option autoImplicit false

/-!
# Patterns: what becomes of braces

A reader that stands between items takes everything up to the closing brace, and there
it is decided what becomes of the braces.  Either they have an objection, and the first
in order is the error of the pattern, whatever follows them; or they have none, and the
token before them is repeated while everything around it stays as it was.
-/

namespace BytePattern

open Grammar

/-! ## Where braces stand -/

theorem exists_stops_of_error {pattern : List UInt8} {e : PatternError}
    (h : parse pattern = .error e) (he : ¬ e.Definitive pattern) :
    ∃ r, Reader.start.run pattern = .ok r ∧ Reader.Stops r e := by
  rcases parse_eq_error h with ⟨before, b, rest, r, rfl, hrun, hfails⟩ | hstops
  · exact absurd (hfails.definitive (Reading.run hrun) rest) he
  · exact hstops

/-- Between two items the whole text is taken, and no bracket and no brace is open. -/
theorem BetweenItems.exists_run {before : List UInt8} (h : BetweenItems before) :
    ∃ r, Reader.start.run before = .ok r ∧ r.context = .items := by
  rcases h with ⟨tokens, hok⟩ | ⟨opened, hgroup⟩ | hempty
  · obtain ⟨r, hrun, hfinish⟩ := bind_eq_ok.1 hok
    exact ⟨r, hrun, (Reader.finish_eq_ok.1 hfinish).1⟩
  · obtain ⟨r, hrun, hstops⟩ := exists_stops_of_error hgroup fun h => h.1 List.mem_cons_self
    cases hstops with
    | group hc _ => exact ⟨r, hrun, hc⟩
  · obtain ⟨r, hrun, hstops⟩ := exists_stops_of_error hempty fun h => h.2 rfl
    refine ⟨r, hrun, ?_⟩
    generalize before.length = k at hstops
    cases hstops with
    | empty hc _ _ => exact hc

section

variable {before : List UInt8} {r : Reader}

/-- After a text that is taken, the rest of the pattern is read by the reader there. -/
theorem parse_append (hrun : Reader.start.run before = .ok r) (rest : List UInt8) :
    parse (before ++ rest) = (r.run rest).bind Reader.finish := by
  unfold parse
  rw [Reader.run_append, hrun]
  rfl

/-- Between items a pattern may end outside of groups and after an item. -/
theorem parse_eq_ok_of_run {tokens : List Token} (hrun : Reader.start.run before = .ok r)
    (hc : r.context = .items) :
    parse before = .ok tokens ↔ r.outer = [] ∧ r.level.tokens? = some tokens := by
  rw [← List.append_nil before, parse_append hrun]
  refine Reader.finish_eq_ok.trans ?_
  rw [and_iff_right hc]

theorem Reader.Fails.items_eq_nil {b : UInt8} {k : Nat} (h : Fails r b ⟨.emptyExpression, k⟩) :
    r.level.items = [] := by
  cases h with
  | emptyGroup _ _ hitems => exact hitems
  | emptyAlternative _ hitems => exact hitems
  | rejected _ hrejected => cases hrejected

theorem Reader.Stops.items_eq_nil {k : Nat} (h : Stops r ⟨.emptyExpression, k⟩) :
    r.offset = k ∧ r.level.items = [] := by
  cases h with
  | empty _ _ hitems => exact ⟨rfl, hitems⟩

/-- Where a sequence has no item, its end is an error at the end of the text. -/
theorem nothingOpen_iff (hrun : Reader.start.run before = .ok r) (hc : r.context = .items) :
    NothingOpen before ↔ r.level.items = [] := by
  have hoffset := (Reading.run hrun).offset
  constructor
  · rintro (hempty | hclose)
    · obtain ⟨s, hs, hstops⟩ := exists_stops_of_error hempty fun h => h.2 rfl
      obtain rfl := Except.ok.inj (hrun.symm.trans hs)
      exact hstops.items_eq_nil.2
    · rw [parse_append hrun] at hclose
      rcases bind_eq_error.1 hclose with hfail | ⟨s, hs, hfinish⟩
      · rcases bind_eq_error.1 hfail with hstep | ⟨s, _, hnil⟩
        · exact (Reader.fails_of_step hstep).items_eq_nil
        · cases hnil
      · -- the parenthesis has been taken, so an error of the end is one byte further on
        have hs' := (Reading.run (Reader.run_trans hrun hs)).offset
        have hk := (Reader.stops_of_finish hfinish).items_eq_nil.1
        rw [hs', List.length_append, List.length_singleton] at hk
        omega
  · intro hitems
    have htokens : r.level.tokens? = none := by rw [Level.tokens?, hitems]
    rw [NothingOpen, ← hoffset]
    cases houter : r.outer with
    | nil =>
      left
      have hfinish : r.finish = .error ⟨.emptyExpression, r.offset⟩ := by
        simp only [Reader.finish, hc, houter, htokens]
      rw [← hfinish, ← List.append_nil before, parse_append hrun]
      rfl
    | cons group outer =>
      right
      have hstep : r.step Mark.closeGroup = .error ⟨.emptyExpression, r.offset⟩ := by
        rw [Reader.step_items hc]
        show r.close = _
        simp only [Reader.close, houter, htokens]
      rw [parse_append hrun, Reader.run_cons, hstep]
      rfl

end

open Quantifier

/-! ## Braces that are not taken -/

namespace Reader

variable {r s : Reader} {body : List UInt8} {e : PatternError}

theorem run_error_of_step {xs : List UInt8} {b : UInt8} (hrun : r.run xs = .ok s)
    (hstep : s.step b = .error e) (rest : List UInt8) : r.run (xs ++ b :: rest) = .error e := by
  rw [run_append, hrun]
  show s.run (b :: rest) = _
  rw [run_cons, hstep]
  rfl

theorem step_of_rejected {opened : Nat} {fault : Fault} (hc : r.context = .counts opened body)
    (h : ofBody body.reverse = .error fault) :
    r.step Mark.closeCounts = .error ⟨fault, opened⟩ := by
  simp only [step, hc, stepCounts, h, if_true]

theorem step_of_nothing {opened : Nat} {q : Quantifier} (hc : r.context = .counts opened body)
    (h : ofBody body.reverse = .ok q) (hitems : r.level.items = []) :
    r.step Mark.closeCounts = .error ⟨.nothingToRepeat, opened⟩ := by
  have hnone : r.level.quantify? q = none := by rw [Level.quantify?, hitems]
  simp only [step, hc, stepCounts, h, hnone, if_true]

/-- With an objection the closing brace is not taken, and the error is at the opening
one. -/
theorem run_of_objection {before : List UInt8} {fault : Fault}
    (hrun : start.run before = .ok r) (hc : r.context = .items) (hbody : Mark.closeCounts ∉ body)
    (h : FirstObjection before body fault) (rest : List UInt8) :
    r.run (Mark.openCounts :: (body ++ Mark.closeCounts :: rest)) =
      .error ⟨fault, r.offset⟩ := by
  obtain ⟨place, hobjection, hfirst⟩ := h
  refine run_error_of_step (takes_openCounts hc hbody) ?_ rest
  rcases hobjection.ofBody_eq hfirst with hrejected | ⟨rfl, rfl, hnothing⟩
  · exact step_of_rejected rfl (by rwa [List.reverse_reverse])
  · obtain ⟨min, max, hnames⟩ := NoneBefore.exists_names (NoneBefore.mono hfirst (by decide))
    have hq := NoneBefore.ofBody_eq hfirst hnames
    exact step_of_nothing rfl (by rwa [List.reverse_reverse]) ((nothingOpen_iff hrun hc).1 hnothing)

end Reader

/-! ## The token that is repeated -/

section

variable {min : Nat} {max : UpperBound}

theorem Token.repeatEnd_of_isItem {token : Token} (h : token.IsItem) :
    token.repeatEnd min max = .repeated min max token := by
  cases token with
  | literal _ => rw [Token.repeatEnd]
  | bracket _ => rw [Token.repeatEnd]
  | either _ _ => exact absurd h not_false
  | repeated _ _ _ => rw [Token.repeatEnd]
  | group _ => rw [Token.repeatEnd]
  | sequence _ => exact absurd h not_false

theorem Token.repeatLast_snoc (tokens : List Token) (token : Token) :
    Token.repeatLast min max (tokens ++ [token]) = tokens ++ [token.repeatEnd min max] := by
  induction tokens with
  | nil => rw [List.nil_append, List.nil_append, Token.repeatLast]
  | cons first tokens ih =>
    cases tokens with
    | nil => simp only [List.cons_append, List.nil_append, Token.repeatLast]
    | cons second tokens =>
      rw [List.cons_append, List.cons_append, Token.repeatLast, ← List.cons_append, ih]
      rfl

/-- In alternatives it is the last one that has the token. -/
theorem Token.repeatLast_foldl_join (ended : List (List Token)) (right : List Token) :
    Token.repeatLast min max (ended.foldl Level.join right) =
      ended.foldl Level.join (Token.repeatLast min max right) := by
  induction ended generalizing right with
  | nil => rfl
  | cons left ended ih =>
    rw [List.foldl_cons, List.foldl_cons, ih]
    simp only [Level.join, Token.repeatLast, Token.repeatEnd]

theorem Pieces.forall_mem {α : Type} {piece : List UInt8 → α → Prop} {holds : α → Prop}
    {text : List UInt8} {xs : List α} (h : Pieces piece text xs)
    (hpiece : ∀ {text x}, piece text x → holds x) : ∀ x ∈ xs, holds x := by
  induction h with
  | nil => exact List.forall_mem_nil _
  | snoc _ hlast ih => exact List.forall_mem_cons.2 ⟨hpiece hlast, ih⟩

/-- What a reader holds of the open alternative is items. -/
theorem Reading.isItem {text : List UInt8} {r : Reader} (h : Reading text r) :
    ∀ token ∈ r.level.items, token.IsItem := by
  obtain @⟨_, _, _, _, _, _, _, hown, _⟩ := h
  cases hown with
  | mk _ hitems => exact hitems.forall_mem fun hitem => hitem.itemIn.isItem

/-- Quantifying a sequence repeats the last of its tokens. -/
theorem Level.tokens?_quantify {level : Level} (min : Nat) (max : UpperBound)
    (hne : level.items ≠ []) (hitems : ∀ token ∈ level.items, token.IsItem) :
    ∃ tokens level', level.tokens? = some tokens ∧ level.quantify? ⟨min, max⟩ = some level' ∧
      level'.tokens? = some (Token.repeatLast min max tokens) := by
  obtain ⟨ended, items⟩ := level
  obtain ⟨last, before, rfl⟩ := List.exists_cons_of_ne_nil hne
  refine ⟨_, _, rfl, rfl, ?_⟩
  show some _ = some _
  rw [Token.repeatLast_foldl_join, List.reverse_cons, List.reverse_cons, Token.repeatLast_snoc,
    Token.repeatEnd_of_isItem (hitems last List.mem_cons_self)]

end

/-! ## Braces and their pattern -/

/-- Without an objection the braces are taken, and the last token is repeated. -/
theorem Reader.takes_of_no_objection {before body : List UInt8} {r : Reader}
    (hrun : start.run before = .ok r) (hc : r.context = .items)
    (hnone : ∀ place fault, ¬ Objection before body place fault) :
    ∃ min max tokens level, Names (fields body) min max ∧ r.level.tokens? = some tokens ∧
      level.tokens? = some (Token.repeatLast min max tokens) ∧
      r.Takes (Mark.openCounts :: (body ++ [Mark.closeCounts])) .items level := by
  have hnone7 : NoneBefore before body 7 := fun earlier _ => hnone earlier
  obtain ⟨min, max, hnames⟩ := (hnone7.mono (by decide)).exists_names
  have hitems : r.level.items ≠ [] := fun h =>
    hnone 7 _ (.nothing ((nothingOpen_iff hrun hc).2 h))
  obtain ⟨tokens, level, htokens, hlevel, hrepeated⟩ :=
    Level.tokens?_quantify min max hitems (Reading.run hrun).isItem
  have hmark := quantifies_of_ofBody (hnone7.ofBody_eq hnames)
  exact ⟨min, max, tokens, level, hnames, htokens, hrepeated, takes_quantifier hmark hc hlevel⟩

/-- Braces after a text at whose end a pattern stands between items.  The first
objection, if there is one, is the error of every pattern that begins so, and is at the
opening brace.  Without an objection no error is there, and a pattern that ends with the
braces is read when it is read without them, with the last token of the last alternative
repeated. -/
theorem parse_counted {before body : List UInt8} (hbefore : BetweenItems before)
    (hbody : Mark.closeCounts ∉ body) :
    (∀ fault, FirstObjection before body fault → ∀ rest,
      parse (before ++ Mark.openCounts :: (body ++ Mark.closeCounts :: rest)) =
        .error ⟨fault, before.length⟩) ∧
    ((∀ place fault, ¬ Objection before body place fault) →
      ∃ min max, Names (fields body) min max ∧
        (∀ rest e, parse (before ++ Mark.openCounts :: (body ++ Mark.closeCounts :: rest)) =
          .error e → e.offset ≠ before.length) ∧
        ∀ tokens, parse (before ++ Mark.openCounts :: (body ++ [Mark.closeCounts])) = .ok tokens ↔
          ∃ tokens', parse before = .ok tokens' ∧ tokens = Token.repeatLast min max tokens') := by
  obtain ⟨r, hrun, hc⟩ := hbefore.exists_run
  have hr := Reading.run hrun
  refine ⟨fun fault hfirst rest => ?_, fun hnone => ?_⟩
  · rw [parse_append hrun, Reader.run_of_objection hrun hc hbody hfirst, hr.offset]
    rfl
  obtain ⟨min, max, tokens, level, hnames, htokens, hrepeated, htakes⟩ :=
    Reader.takes_of_no_objection hrun hc hnone
  have hpast := Reader.run_trans hrun htakes
  refine ⟨min, max, hnames, fun rest e he => ?_, fun found => ?_⟩
  · have hsplit : before ++ Mark.openCounts :: (body ++ Mark.closeCounts :: rest) =
        before ++ Mark.openCounts :: (body ++ [Mark.closeCounts]) ++ rest := by simp
    rw [hsplit, parse_append hpast] at he
    exact (hr.leftBehind_past (List.cons_ne_nil _ _) level).offset_ne he
  rw [parse_eq_ok_of_run hpast rfl]
  constructor
  · rintro ⟨houter, heq⟩
    refine ⟨tokens, (parse_eq_ok_of_run hrun hc).2 ⟨houter, htokens⟩, ?_⟩
    exact Option.some.inj (heq.symm.trans hrepeated)
  · rintro ⟨tokens', hparse, rfl⟩
    obtain ⟨houter, heq⟩ := (parse_eq_ok_of_run hrun hc).1 hparse
    obtain rfl := Option.some.inj (htokens.symm.trans heq)
    exact ⟨houter, hrepeated⟩

/-- After `(a|b` the braces of `{,,}` have three fields, none of which is a count, and the
number of fields comes first; after `a|b` those of `{2,}` repeat the second letter. -/
theorem parse_counted_alternatives :
    (∀ rest, parse ([0x28, 0x61, 0x7c, 0x62] ++
      Mark.openCounts :: ([0x2c, 0x2c] ++ Mark.closeCounts :: rest)) =
        .error ⟨.invalidFieldCount 3, 4⟩) ∧
      parse ([0x61, 0x7c, 0x62] ++ Mark.openCounts :: ([0x32, 0x2c] ++ [Mark.closeCounts])) =
        .ok [.either (.sequence [.literal 0x61])
          (.sequence [.repeated 2 .unbounded (.literal 0x62)])] := by
  constructor
  · have hgroup : parse [0x28, 0x61, 0x7c, 0x62] = .error ⟨.unterminatedGroup, 0⟩ := rfl
    refine (parse_counted (.inr (.inl ⟨0, hgroup⟩)) (by decide)).1 _ ⟨1, ?_, ?_⟩
    · exact .fieldCount (by decide)
    · intro earlier hlt fault h
      obtain rfl := Nat.lt_one_iff.1 hlt
      cases h
  · have hok : parse [0x61, 0x7c, 0x62] =
        .ok [.either (.sequence [.literal 0x61]) (.sequence [.literal 0x62])] := rfl
    have hfields : fields [0x32, 0x2c] = [[0x32], []] := rfl
    have hnames : ∀ {min max}, Names (fields [0x32, 0x2c]) min max →
        min = 2 ∧ max = .unbounded := by
      intro min max h
      rw [hfields] at h
      cases h with
      | atLeast hmin => exact ⟨(Except.ok.inj hmin).symm, rfl⟩
      | between _ hmax => cases hmax
    have hnone : ∀ place fault, ¬ Objection [0x61, 0x7c, 0x62] [0x32, 0x2c] place fault := by
      intro place fault h
      cases h with
      | fieldCount hmany => exact absurd hmany (by decide)
      | firstBound hfirst hread =>
        obtain ⟨rfl, _⟩ := List.cons.inj (hfields.symm.trans hfirst)
        cases hread
      | secondBound htwo hne _ =>
        have hsecond := List.tail_eq_of_cons_eq (hfields.symm.trans htwo)
        exact hne (List.head_eq_of_cons_eq hsecond).symm
      | reversed h _ => cases (hnames h).2
      | largeMax h _ => cases (hnames h).2
      | largeMin h hlarge => exact absurd hlarge (by rw [(hnames h).1]; decide)
      | nothing h => rcases h with h | h <;> cases h
    obtain ⟨min, max, h, _, htokens⟩ := (parse_counted (.inl ⟨_, hok⟩) (by decide)).2 hnone
    obtain ⟨rfl, rfl⟩ := hnames h
    refine (htokens _).2 ⟨_, hok, ?_⟩
    simp only [Token.repeatLast, Token.repeatEnd]

end BytePattern
