import BytePattern.Pattern.Cause
import BytePattern.Proofs.Pattern.Reading

set_option autoImplicit false

/-!
# Patterns: open groups and the grammar

A text decides which groups it leaves open, and one that the grammar derives leaves
open those that were open before it.  So of all that stands before some offset only
the parentheses of groups not yet at their end count, and these are the ones that a
reader has on its stack.
-/

namespace BytePattern

open Grammar

namespace Grammar

/-! ## One text after the other -/

theorem Nesting.trans {n : Nat} {around mid left : List Nat} {xs ys : List UInt8}
    (h : Nesting n around xs mid) (hrest : Nesting (n + xs.length) mid ys left) :
    Nesting n around (xs ++ ys) left := by
  have hbyte : ∀ (n : Nat) (b : UInt8) (rest : List UInt8),
      n + (b :: rest).length = n + 1 + rest.length := by
    intro n b rest
    rw [List.length_cons, Nat.add_right_comm, Nat.add_assoc]
  have hpair : ∀ (n : Nat) (b c : UInt8) (inside rest : List UInt8),
      n + (b :: (inside ++ c :: rest)).length = n + (inside.length + 2) + rest.length := by
    intro n b c inside rest
    simp only [List.length_cons, List.length_append]
    omega
  induction h with
  | nil => exact hrest
  | openGroup _ ih =>
    rw [hbyte] at hrest
    exact .openGroup (ih hrest)
  | closeGroup _ ih =>
    rw [hbyte] at hrest
    exact .closeGroup (ih hrest)
  | bracket hinside _ ih =>
    rw [hpair] at hrest
    rw [List.cons_append, List.append_assoc, List.cons_append]
    exact .bracket hinside (ih hrest)
  | counts hbody _ ih =>
    rw [hpair] at hrest
    rw [List.cons_append, List.append_assoc, List.cons_append]
    exact .counts hbody (ih hrest)
  | other hb _ ih =>
    rw [hbyte] at hrest
    exact .other hb (ih hrest)

/-! ## What the grammar derives -/

theorem Quantifies.nesting {mark : List UInt8} {q : Quantifier} (h : Quantifies mark q)
    (n : Nat) (around : List Nat) : Nesting n around mark around := by
  rcases Quantifier.quantifies_iff.1 h with ⟨b, rfl, hb⟩ | ⟨body, rfl, hclose, _⟩
  · have hmark := Quantifier.mem_of_ofByte? hb
    apply Nesting.other _ .nil
    simp only [List.mem_cons, List.not_mem_nil, or_false] at hmark
    rcases hmark with rfl | rfl | rfl <;> decide
  · exact .counts hclose .nil

-- At the top no group may be open: there a closing parenthesis is a literal, and
-- would close a group if there were one.
mutual

theorem Atom.nesting {mode : Mode} {text : List UInt8} {token : Token} :
    Atom mode text token → ∀ (n : Nat) (around : List Nat), (mode = .top → around = []) →
      Nesting n around text around
  | @Atom.literal _ b hplain, n, around, htop => by
    by_cases hclose : b = Mark.closeGroup
    · rw [htop (hplain.2 hclose), hclose]
      exact .closeGroup .nil
    · have hmarks := hplain.1
      apply Nesting.other _ .nil
      simp only [List.mem_cons, List.not_mem_nil, or_false, not_or] at hmarks ⊢
      exact ⟨hmarks.1, hclose, hmarks.2.1, hmarks.2.2.1⟩
  | .bracket hentries _, _, _, _ => .bracket hentries .nil
  | .group hsequence, n, around, _ =>
    .openGroup ((hsequence.nesting (n + 1) (n :: around) nofun).trans (.closeGroup .nil))

theorem Item.nesting {mode : Mode} {text : List UInt8} {token : Token} :
    Item mode text token → ∀ (n : Nat) (around : List Nat), (mode = .top → around = []) →
      Nesting n around text around
  | .atom hatom, n, around, htop => hatom.nesting n around htop
  | .quantified hitem hmark, n, around, htop =>
    (hitem.nesting n around htop).trans (hmark.nesting _ around)

theorem Items.nesting {mode : Mode} {text : List UInt8} {tokens : List Token} :
    Items mode text tokens → ∀ (n : Nat) (around : List Nat), (mode = .top → around = []) →
      Nesting n around text around
  | .one hitem, n, around, htop => hitem.nesting n around htop
  | .more hitem hitems, n, around, htop =>
    (hitem.nesting n around htop).trans (hitems.nesting _ around htop)

/-- A sequence leaves the groups around it open, and no other. -/
theorem Sequence.nesting {mode : Mode} {text : List UInt8} {tokens : List Token} :
    Sequence mode text tokens → ∀ (n : Nat) (around : List Nat), (mode = .top → around = []) →
      Nesting n around text around
  | .items hitems, n, around, htop => hitems.nesting n around htop
  | .either hleft hright, n, around, htop =>
    (hleft.nesting n around htop).trans (.other (by decide)
      (hright.nesting _ around fun h => absurd h (Mode.afterBar_ne_top _)))

end

end Grammar

/-! ## What a reader has read -/

section

variable {mode : Mode} {text : List UInt8} {around : List Nat}

theorem Pieces.nesting {tokens : List Token} (h : Pieces (Item mode) text tokens) (n : Nat)
    (htop : mode = .top → around = []) : Nesting n around text around := by
  induction h with
  | nil => exact .nil
  | snoc _ hlast ih => exact ih.trans (hlast.nesting _ around htop)

theorem Ended.nesting {ended : List (List Token)} (h : Ended mode text ended) (n : Nat)
    (htop : mode = .top → around = []) : Nesting n around text around := by
  induction h with
  | nil => exact .nil
  | snoc _ hleft ih =>
    apply ih.trans
    apply (hleft.nesting _ around fun h => htop (Mode.eq_top_of_after h)).trans
    exact .other (by decide) .nil

theorem Level.Reads.nesting {level : Level} (h : Level.Reads mode text level) (n : Nat)
    (htop : mode = .top → around = []) : Nesting n around text around := by
  cases h with
  | mk hended hitems =>
    apply (hended.nesting n htop).trans
    exact hitems.nesting _ fun h => htop (Mode.eq_top_of_after h)

end

theorem Grammar.Mode.eq_nil_of_within {outer : List (Nat × Level)}
    (h : Mode.within outer = .top) : outer.map Prod.fst = [] := by
  cases outer with
  | nil => rfl
  | cons _ _ => cases h

/-- The groups on the stack are the ones that are open. -/
theorem Groups.nesting {text : List UInt8} {outer : List (Nat × Level)} (h : Groups text outer) :
    Nesting 0 [] text (outer.map Prod.fst) := by
  induction h with
  | nil => exact .nil
  | @snoc text own outer level _ hown ih =>
    have hlength : (text ++ own).length = 0 + text.length + own.length := by
      rw [List.length_append, Nat.zero_add]
    refine ih.trans ((hown.nesting _ Mode.eq_nil_of_within).trans ?_)
    rw [List.map_cons, hlength]
    exact .openGroup .nil

theorem Groups.nesting_append {text own : List UInt8} {outer : List (Nat × Level)} {level : Level}
    (h : Groups text outer) (hown : Level.Reads (Mode.within outer) own level) :
    Nesting 0 [] (text ++ own) (outer.map Prod.fst) :=
  h.nesting.trans (hown.nesting _ Mode.eq_nil_of_within)

/-! ## The text decides -/

namespace Grammar

/-- The inside of a bracket from the left: single bytes, and dashes each with the
byte after it. -/
inductive Inner : List UInt8 → Prop where
  | nil : Inner []
  | single {b : UInt8} {rest : List UInt8} : b ≠ Mark.closeBracket → b ≠ Mark.dash →
      Inner rest → Inner (b :: rest)
  | dash {b : UInt8} {rest : List UInt8} : Inner rest → Inner (Mark.dash :: b :: rest)

theorem Entry.inner {text rest : List UInt8} {range : UInt8 × UInt8} (h : Entry text range)
    (hrest : Inner rest) : Inner (text ++ rest) := by
  induction h generalizing rest with
  | single hclose hdash => exact .single hclose hdash hrest
  | extend b _ ih =>
    rw [List.append_assoc]
    exact ih (.dash hrest)

theorem Entries.inner {text : List UInt8} {ranges : List (UInt8 × UInt8)}
    (h : Entries text ranges) : Inner text := by
  induction h with
  | nil => exact .nil
  | cons hentry _ ih => exact hentry.inner ih

/-- A bracket ends at its first closing bracket that no dash makes an end of a range. -/
theorem Inner.eq_of_append {xs ys xs' ys' : List UInt8} (h : Inner xs) (h' : Inner ys)
    (heq : xs ++ Mark.closeBracket :: xs' = ys ++ Mark.closeBracket :: ys') :
    xs = ys ∧ xs' = ys' := by
  induction h generalizing ys with
  | nil =>
    cases h' with
    | nil => exact ⟨rfl, List.tail_eq_of_cons_eq heq⟩
    | single hclose _ _ => exact absurd (List.head_eq_of_cons_eq heq).symm hclose
    | dash _ => exact absurd (List.head_eq_of_cons_eq heq) (by decide)
  | single hclose hdash _ ih =>
    cases h' with
    | nil => exact absurd (List.head_eq_of_cons_eq heq) hclose
    | dash _ => exact absurd (List.head_eq_of_cons_eq heq) hdash
    | single _ _ hrest =>
      obtain ⟨rfl, htail⟩ := List.cons.inj heq
      obtain ⟨rfl, rfl⟩ := ih hrest htail
      exact ⟨rfl, rfl⟩
  | dash _ ih =>
    cases h' with
    | nil => exact absurd (List.head_eq_of_cons_eq heq) (by decide)
    | single _ hdash _ => exact absurd (List.head_eq_of_cons_eq heq).symm hdash
    | dash hrest =>
      obtain ⟨rfl, htail⟩ := List.cons.inj (List.tail_eq_of_cons_eq heq)
      obtain ⟨rfl, rfl⟩ := ih hrest htail
      exact ⟨rfl, rfl⟩

/-- Braces end at their first closing brace. -/
theorem eq_of_append_closeCounts {xs ys xs' ys' : List UInt8} (hxs : Mark.closeCounts ∉ xs)
    (hys : Mark.closeCounts ∉ ys)
    (heq : xs ++ Mark.closeCounts :: xs' = ys ++ Mark.closeCounts :: ys') :
    xs = ys ∧ xs' = ys' := by
  induction xs generalizing ys with
  | nil =>
    cases ys with
    | nil => exact ⟨rfl, List.tail_eq_of_cons_eq heq⟩
    | cons _ _ => exact absurd (List.head_eq_of_cons_eq heq) (List.ne_of_not_mem_cons hys)
  | cons b xs ih =>
    cases ys with
    | nil => exact absurd (List.head_eq_of_cons_eq heq).symm (List.ne_of_not_mem_cons hxs)
    | cons c ys =>
      obtain ⟨rfl, htail⟩ := List.cons.inj heq
      obtain ⟨rfl, rfl⟩ := ih (List.not_mem_of_not_mem_cons hxs)
        (List.not_mem_of_not_mem_cons hys) htail
      exact ⟨rfl, rfl⟩

/-- A text leaves one list of groups open. -/
theorem Nesting.unique {n : Nat} {around left left' : List Nat} {text : List UInt8}
    (h : Nesting n around text left) (h' : Nesting n around text left') : left = left' := by
  induction h generalizing left' with
  | nil =>
    cases h'
    rfl
  | openGroup _ ih =>
    cases h' with
    | openGroup hrest => exact ih hrest
    | other hb _ => exact absurd hb (by decide)
  | closeGroup _ ih =>
    cases h' with
    | closeGroup hrest => exact ih hrest
    | other hb _ => exact absurd hb (by decide)
  | @bracket _ _ _ inside rest _ hinside _ ih =>
    generalize htail : inside ++ Mark.closeBracket :: rest = tail at h'
    cases h' with
    | bracket hinside' hrest =>
      obtain ⟨rfl, rfl⟩ := hinside.inner.eq_of_append hinside'.inner htail
      exact ih hrest
    | other hb _ => exact absurd hb (by decide)
  | @counts _ _ _ body rest hbody _ ih =>
    generalize htail : body ++ Mark.closeCounts :: rest = tail at h'
    cases h' with
    | counts hbody' hrest =>
      obtain ⟨rfl, rfl⟩ := eq_of_append_closeCounts hbody hbody' htail
      exact ih hrest
    | other hb _ => exact absurd hb (by decide)
  | other hb _ ih =>
    cases h' with
    | other _ hrest => exact ih hrest
    | openGroup _ => exact absurd hb (by decide)
    | closeGroup _ => exact absurd hb (by decide)
    | bracket _ _ => exact absurd hb (by decide)
    | counts _ _ => exact absurd hb (by decide)

end Grammar

end BytePattern
