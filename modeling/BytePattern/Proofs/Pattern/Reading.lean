import BytePattern.Proofs.Pattern.Step

set_option autoImplicit false

/-!
# Patterns: what a reader has read

The bytes behind a reader, cut along what it holds: the groups that are open
around it, the ended alternatives and the items of the open sequence, and the
inside of a bracket or of braces.  Every part of the reader stands for its part
of the text by the grammar, so where the pattern may end the whole text is a
sequence, with the tokens that the reader gives out.
-/

namespace BytePattern

open Grammar

/-! ## Pieces -/

/-- The text is pieces one after the other, and the list has the latest first. -/
inductive Pieces {α : Type} (piece : List UInt8 → α → Prop) : List UInt8 → List α → Prop where
  | nil : Pieces piece [] []
  | snoc {text last : List UInt8} {x : α} {xs : List α} :
      Pieces piece text xs → piece last x → Pieces piece (text ++ last) (x :: xs)

/-- More text for the latest piece. -/
theorem Pieces.grow {α : Type} {piece : List UInt8 → α → Prop} {text more : List UInt8} {x y : α}
    {xs : List α} (h : Pieces piece text (x :: xs))
    (hmore : ∀ last, piece last x → piece (last ++ more) y) :
    Pieces piece (text ++ more) (y :: xs) := by
  cases h with
  | snoc hbefore hlast =>
    rw [List.append_assoc]
    exact .snoc hbefore (hmore _ hlast)

theorem Pieces.eq_nil {α : Type} {piece : List UInt8 → α → Prop} {text : List UInt8}
    (h : Pieces piece text []) : text = [] := by
  cases h
  rfl

theorem Grammar.Entries.append {text rest : List UInt8} {ranges more : List (UInt8 × UInt8)}
    (h : Entries text ranges) (hrest : Entries rest more) :
    Entries (text ++ rest) (ranges ++ more) := by
  induction h with
  | nil => exact hrest
  | cons hentry _ ih =>
    rw [List.append_assoc]
    exact .cons hentry ih

/-- An entry by itself. -/
theorem Grammar.Entry.entries {text : List UInt8} {range : UInt8 × UInt8} (h : Entry text range) :
    Entries text [range] := by
  have hone := Entries.cons h .nil
  rwa [List.append_nil] at hone

theorem Pieces.entries {text : List UInt8} {ranges : List (UInt8 × UInt8)}
    (h : Pieces Entry text ranges) : Entries text ranges.reverse := by
  induction h with
  | nil => exact .nil
  | snoc _ hlast ih =>
    rw [List.reverse_cons]
    exact ih.append hlast.entries

theorem Grammar.Items.append {mode : Mode} {text rest : List UInt8} {tokens more : List Token} :
    Items mode text tokens → Items mode rest more → Items mode (text ++ rest) (tokens ++ more)
  | .one hitem, hrest => .more hitem hrest
  | .more hitem hitems, hrest => by
    rw [List.append_assoc]
    exact .more hitem (hitems.append hrest)

theorem Pieces.items {mode : Mode} {text : List UInt8} {tokens : List Token}
    (h : Pieces (Item mode) text tokens) (hne : tokens ≠ []) : Items mode text tokens.reverse := by
  induction h with
  | nil => exact absurd rfl hne
  | @snoc text last token tokens hbefore hlast ih =>
    cases tokens with
    | nil =>
      rw [hbefore.eq_nil]
      exact .one hlast
    | cons _ _ =>
      rw [List.reverse_cons]
      exact (ih (List.cons_ne_nil _ _)).append (.one hlast)

/-! ## The open sequence -/

/-- The text is alternatives, each with the bar that ends it, the latest first in
the list. -/
inductive Ended (mode : Mode) : List UInt8 → List (List Token) → Prop where
  | nil : Ended mode [] []
  | snoc {text left : List UInt8} {l : List Token} {ended : List (List Token)} :
      Ended mode text ended → Items (mode.after ended) left l →
      Ended mode (text ++ (left ++ [Mark.bar])) (l :: ended)

/-- Ended alternatives make one sequence with what follows the last bar. -/
theorem Ended.sequence {mode : Mode} {text right : List UInt8} {ended : List (List Token)}
    {r : List Token} (h : Ended mode text ended) (hright : Sequence (mode.after ended) right r) :
    Sequence mode (text ++ right) (ended.foldl Level.join r) := by
  induction h generalizing right r with
  | nil => exact hright
  | @snoc text left l ended _ hleft ih =>
    have hright : Sequence (mode.after ended).afterBar right r := by
      rw [Mode.afterBar_after]
      exact hright
    have hjoined := ih (Sequence.either hleft hright)
    rwa [List.append_cons, ← List.append_assoc] at hjoined

/-- The text is what has been read of the open sequence. -/
inductive Level.Reads (mode : Mode) : List UInt8 → Level → Prop where
  | mk {before own : List UInt8} {ended : List (List Token)} {items : List Token} :
      Ended mode before ended → Pieces (Item (mode.after ended)) own items →
      Level.Reads mode (before ++ own) ⟨ended, items⟩

namespace Level.Reads

variable {mode : Mode} {text more : List UInt8} {level level' : Level}

theorem empty (mode : Mode) : Reads mode [] .empty := .mk .nil .nil

theorem push {token : Token} (h : Reads mode text level)
    (hitem : Item (mode.after level.ended) more token) :
    Reads mode (text ++ more) (level.push token) := by
  cases h with
  | mk hended hitems =>
    rw [List.append_assoc]
    exact .mk hended (.snoc hitems hitem)

theorem quantify {q : Quantifier} (h : Reads mode text level)
    (hlevel : level.quantify? q = some level') (hmark : Quantifies more q) :
    Reads mode (text ++ more) level' := by
  cases h with
  | @mk before own ended items hended hitems =>
    cases items with
    | nil => cases hlevel
    | cons last items =>
      obtain rfl := Option.some.inj hlevel
      rw [List.append_assoc]
      exact .mk hended (hitems.grow fun _ hlast => .quantified hlast hmark)

theorem bar (h : Reads mode text level) (hlevel : level.bar? = some level') :
    Reads mode (text ++ [Mark.bar]) level' := by
  cases h with
  | @mk before own ended items hended hitems =>
    cases items with
    | nil => cases hlevel
    | cons last items =>
      obtain rfl := Option.some.inj hlevel
      have halternative := hended.snoc (hitems.items (List.cons_ne_nil _ _))
      have hnew := Level.Reads.mk halternative .nil
      rwa [List.append_nil, ← List.append_assoc] at hnew

/-- A sequence that may end here is one of the grammar. -/
theorem sequence {tokens : List Token} (h : Reads mode text level)
    (htokens : level.tokens? = some tokens) : Sequence mode text tokens := by
  cases h with
  | @mk before own ended items hended hitems =>
    cases items with
    | nil => cases htokens
    | cons last items =>
      obtain rfl := Option.some.inj htokens
      exact hended.sequence (.items (hitems.items (List.cons_ne_nil _ _)))

end Level.Reads

/-! ## The whole text -/

/-- The text is what stands before the innermost open group, with its parenthesis,
and the groups are those around, innermost first. -/
inductive Groups : List UInt8 → List (Nat × Level) → Prop where
  | nil : Groups [] []
  | snoc {text own : List UInt8} {outer : List (Nat × Level)} {level : Level} :
      Groups text outer → Level.Reads (Mode.within outer) own level →
      Groups (text ++ (own ++ [Mark.openGroup])) (((text ++ own).length, level) :: outer)

/-- The text is what has been read of a bracket or of braces opened at an offset. -/
inductive Inside (opened : Nat) : List UInt8 → Context → Prop where
  | items : Inside opened [] .items
  | bracket {text : List UInt8} {ranges : List (UInt8 × UInt8)} : Pieces Entry text ranges →
      Inside opened (Mark.openBracket :: text) (.bracket opened ranges)
  | range {text : List UInt8} {ranges : List (UInt8 × UInt8)} : Pieces Entry text ranges →
      Inside opened (Mark.openBracket :: text ++ [Mark.dash])
        (.range opened (opened + (text.length + 1)) ranges)
  | counts {body : List UInt8} : Mark.closeCounts ∉ body →
      Inside opened (Mark.openCounts :: body.reverse) (.counts opened body)

/-- The text is what a reader has read. -/
inductive Reading : List UInt8 → Reader → Prop where
  | mk {before own tail : List UInt8} {context : Context} {level : Level}
      {outer : List (Nat × Level)} : Groups before outer →
      Level.Reads (Mode.within outer) own level → Inside (before ++ own).length tail context →
      Reading (before ++ own ++ tail) ⟨(before ++ own ++ tail).length, context, level, outer⟩

theorem Reading.start : Reading [] .start := .mk .nil (Level.Reads.empty _) .items

theorem Reading.offset {text : List UInt8} {r : Reader} (h : Reading text r) :
    r.offset = text.length := by
  cases h
  rfl

/-- What a step does with its byte, it does to the text that has been read. -/
theorem Reading.step {text : List UInt8} {r s : Reader} {b : UInt8} (h : Reading text r)
    (hstep : Reader.Step r b s) : Reading (text ++ [b]) s := by
  obtain @⟨before, own, tail, context, level, outer, hgroups, hown, htail⟩ := h
  cases hstep with
  | openGroup hc =>
    obtain rfl : context = .items := hc
    cases htail
    have hnew := Reading.mk (.snoc hgroups hown) (.empty _) .items
    simpa [Nat.add_assoc] using hnew
  | closeGroup hc houter htokens =>
    obtain rfl : context = .items := hc
    obtain rfl : outer = _ :: _ := houter
    cases htail
    cases hgroups with
    | @snoc text around _ _ hbefore haround =>
      have hgroup := haround.push (.atom (.group (hown.sequence htokens)))
      have hnew := Reading.mk hbefore hgroup .items
      simpa [Nat.add_assoc] using hnew
  | openBracket hc =>
    obtain rfl : context = .items := hc
    cases htail
    have hnew := Reading.mk hgroups hown (.bracket .nil)
    simpa [Reader.next, Nat.add_assoc] using hnew
  | openCounts hc =>
    obtain rfl : context = .items := hc
    cases htail
    have hnew := Reading.mk hgroups hown (.counts List.not_mem_nil)
    simpa [Reader.next, Nat.add_assoc] using hnew
  | bar hc hlevel =>
    obtain rfl : context = .items := hc
    cases htail
    have hnew := Reading.mk hgroups (hown.bar hlevel) .items
    simpa [Reader.next, Nat.add_assoc] using hnew
  | quantify hc hq hlevel =>
    obtain rfl : context = .items := hc
    cases htail
    have hmark := Quantifier.quantifies_of_ofByte? hq
    have hnew := Reading.mk hgroups (hown.quantify hlevel hmark) .items
    simpa [Reader.next, Nat.add_assoc] using hnew
  | plain hc hplain =>
    obtain rfl : context = .items := hc
    cases htail
    have hnew := Reading.mk hgroups (hown.push (.atom (.literal hplain))) .items
    simpa [Reader.next, Nat.add_assoc] using hnew
  | single hc hclose hdash =>
    obtain rfl : context = .bracket _ _ := hc
    cases htail with
    | bracket hranges =>
      have hnew := Reading.mk hgroups hown (.bracket (hranges.snoc (.single hclose hdash)))
      simpa [Reader.next, Nat.add_assoc] using hnew
  | dash hc =>
    obtain rfl : context = .bracket _ _ := hc
    cases htail with
    | bracket hranges =>
      have hnew := Reading.mk hgroups hown (.range hranges)
      simpa [Reader.next, Nat.add_assoc] using hnew
  | closeBracket hc =>
    obtain rfl : context = .bracket _ _ := hc
    cases htail with
    | bracket hranges =>
      have hset := hown.push (.atom (.bracket hranges.entries (covers_reverse _)))
      have hnew := Reading.mk hgroups hset .items
      simpa [Reader.next, Nat.add_assoc] using hnew
  | extend hc =>
    obtain rfl : context = .range _ _ _ := hc
    cases htail with
    | range hranges =>
      have hlonger := hranges.grow fun _ hlast => Entry.extend b hlast
      have hnew := Reading.mk hgroups hown (.bracket hlonger)
      simpa [Reader.next, Nat.add_assoc] using hnew
  | count hc hb =>
    obtain rfl : context = .counts _ _ := hc
    cases htail with
    | counts hbody =>
      have hlonger := List.not_mem_cons_of_ne_of_not_mem hb.symm hbody
      have hnew := Reading.mk hgroups hown (.counts hlonger)
      simpa [Reader.next, Nat.add_assoc] using hnew
  | closeCounts hc hbody hlevel =>
    obtain rfl : context = .counts _ _ := hc
    cases htail with
    | counts _ =>
      have hmark := Quantifier.quantifies_of_ofBody hbody
      have hnew := Reading.mk hgroups (hown.quantify hlevel hmark) .items
      simpa [Reader.next, Nat.add_assoc] using hnew

/-- The text that has been read, after any run from the start. -/
theorem Reading.run {text : List UInt8} {r : Reader} (h : Reader.start.run text = .ok r) :
    Reading text r := by
  have hstep : ∀ {before : List UInt8} {r s : Reader} {b : UInt8}, Reading before r →
      Reader.Step r b s → Reading (before ++ [b]) s := fun hr hs => hr.step hs
  exact Reader.run_induction hstep h Reading.start

/-- Right after a dash that a bracket begins with, the two are the last bytes read. -/
theorem Reading.exists_dash {text : List UInt8} {r : Reader} {opened dash : Nat}
    (hr : Reading text r) (hc : r.context = .range opened dash []) :
    ∃ before, before.length = opened ∧ dash = opened + 1 ∧
      text = before ++ [Mark.openBracket, Mark.dash] := by
  obtain @⟨before, own, tail, context, level, outer, _, _, htail⟩ := hr
  obtain rfl : context = .range opened dash [] := hc
  cases htail with
  | range hranges =>
    rw [hranges.eq_nil]
    exact ⟨before ++ own, rfl, rfl, rfl⟩

/-- Between braces, what has been read since the opening one is the body. -/
theorem Reading.exists_body {text : List UInt8} {r : Reader} {opened : Nat} {body : List UInt8}
    (hr : Reading text r) (hc : r.context = .counts opened body) :
    Mark.closeCounts ∉ body.reverse ∧
      ∃ before, before.length = opened ∧ text = before ++ Mark.openCounts :: body.reverse := by
  obtain @⟨before, own, tail, context, level, outer, _, _, htail⟩ := hr
  obtain rfl : context = .counts opened body := hc
  cases htail with
  | counts hbody => exact ⟨fun hmem => hbody (List.mem_reverse.1 hmem), before ++ own, rfl, rfl⟩

/-- Where a pattern may end, what has been read is a sequence of the grammar. -/
theorem sequence_of_parse {pattern : List UInt8} {tokens : List Token}
    (h : parse pattern = .ok tokens) : Sequence .top pattern tokens := by
  unfold parse at h
  obtain ⟨r, hrun, hfinish⟩ := bind_eq_ok.1 h
  obtain ⟨hcontext, houter, htokens⟩ := Reader.finish_eq_ok.1 hfinish
  obtain @⟨before, own, tail, context, level, outer, hgroups, hown, htail⟩ := Reading.run hrun
  obtain rfl : context = .items := hcontext
  obtain rfl : outer = [] := houter
  cases htail
  cases hgroups
  rw [List.nil_append, List.append_nil]
  exact hown.sequence htokens

end BytePattern
