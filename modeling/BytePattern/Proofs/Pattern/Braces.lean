import BytePattern.Pattern.Grammar
import Mathlib.Data.List.Induction

set_option autoImplicit false

/-!
# Patterns: quantifiers read as the grammar has them

A field is a count below the bound exactly when it is a numeral, and a text is
the join of its fields.  So the text between braces is read as a quantifier
exactly when the grammar has it as one.
-/

namespace BytePattern

open Grammar

/-- A result comes from a first result and what is done with it. -/
theorem bind_eq_ok {ε α β : Type} {x : Except ε α} {f : α → Except ε β} {y : β} :
    x.bind f = .ok y ↔ ∃ a, x = .ok a ∧ f a = .ok y := by
  cases x with
  | error e => simp [Except.bind]
  | ok a => simp [Except.bind]

/-! ## Counts -/

namespace Count

theorem digit?_eq_some {b : UInt8} {d : Nat} : digit? b = some d ↔ Digit b d := by
  have hbounds : 0x30 ≤ b ∧ b ≤ 0x39 ↔ 0x30 ≤ b.toNat ∧ b.toNat ≤ 0x39 :=
    and_congr UInt8.le_iff_toNat_le UInt8.le_iff_toNat_le
  unfold digit? Digit
  split
  · rename_i hin
    have hin := hbounds.1 hin
    rw [Option.some.injEq]
    omega
  · rename_i hout
    refine iff_of_false (Option.some_ne_none d).symm fun hd => hout (hbounds.2 ?_)
    omega

theorem push_eq_ok {value n : Nat} {b : UInt8} :
    push value b = .ok n ↔ ∃ d, Digit b d ∧ n = value * 10 + d ∧ n < bound := by
  simp only [← digit?_eq_some]
  unfold push
  cases hb : digit? b with
  | none => simp
  | some d =>
    constructor
    · intro h
      dsimp only at h
      split at h
      · rename_i hlt
        obtain rfl := Except.ok.inj h
        exact ⟨d, rfl, rfl, hlt⟩
      · cases h
    · rintro ⟨_, hd, rfl, hlt⟩
      obtain rfl := Option.some.inj hd
      dsimp only
      rw [if_pos hlt]

theorem foldlM_push_snoc {text : List UInt8} {value n : Nat} {b : UInt8} :
    (text ++ [b]).foldlM push value = .ok n ↔
      ∃ m, text.foldlM push value = .ok m ∧ push m b = .ok n := by
  have hone : ∀ m, [b].foldlM push m = push m b := by
    intro m
    rw [List.foldlM_cons]
    cases push m b <;> rfl
  rw [List.foldlM_append]
  show (text.foldlM push value).bind (fun m => [b].foldlM push m) = .ok n ↔ _
  simp only [hone, bind_eq_ok]

/-- Digits read from the left are a numeral. -/
theorem foldlM_push_eq_ok {text : List UInt8} {n : Nat} (hne : text ≠ []) :
    text.foldlM push 0 = .ok n ↔ Numeral text n ∧ n < bound := by
  constructor
  · intro h
    induction text using List.reverseRecOn generalizing n with
    | nil => exact absurd rfl hne
    | append_singleton text b ih =>
      obtain ⟨m, hm, hb⟩ := foldlM_push_snoc.1 h
      obtain ⟨d, hd, rfl, hlt⟩ := push_eq_ok.1 hb
      refine ⟨?_, hlt⟩
      cases text with
      | nil =>
        obtain rfl : 0 = m := Except.ok.inj hm
        rw [Nat.zero_mul, Nat.zero_add]
        exact .digit hd
      | cons c text => exact .more (ih (List.cons_ne_nil c text) hm).1 hd
  · rintro ⟨h, hlt⟩
    clear hne
    induction h with
    | @digit b d hd =>
      have hpush : push 0 b = .ok d := push_eq_ok.2 ⟨d, hd, by omega, hlt⟩
      show ([] ++ [b]).foldlM push 0 = .ok d
      exact foldlM_push_snoc.2 ⟨0, rfl, hpush⟩
    | @more text n b d _ hd ih =>
      have hn : n < bound := by omega
      exact foldlM_push_snoc.2 ⟨n, ih hn, push_eq_ok.2 ⟨d, hd, rfl, hlt⟩⟩

end Count

namespace Grammar

theorem Numeral.ne_nil {text : List UInt8} {n : Nat} (h : Numeral text n) : text ≠ [] := by
  cases h <;> simp

theorem Numeral.not_mem {text : List UInt8} {n : Nat} {b : UInt8} (h : Numeral text n)
    (hdigit : Count.digit? b = none) : b ∉ text := by
  have hne : ∀ {c : UInt8} {d : Nat}, Digit c d → b ∉ [c] := by
    rintro c d hd hmem
    rw [← List.mem_singleton.1 hmem, ← Count.digit?_eq_some, hdigit] at hd
    cases hd
  induction h with
  | digit hd => exact hne hd
  | more _ hd ih => exact fun hmem => (List.mem_append.1 hmem).elim ih (hne hd)

theorem Counts.not_mem {text : List UInt8} {n : Nat} {b : UInt8} (h : Counts text n)
    (hplus : b ≠ Mark.plus) (hdigit : Count.digit? b = none) : b ∉ text := by
  rcases h with h | ⟨digits, rfl, h⟩
  · exact h.not_mem hdigit
  · exact List.not_mem_cons_of_ne_of_not_mem hplus (h.not_mem hdigit)

theorem Counts.comma_not_mem {text : List UInt8} {n : Nat} (h : Counts text n) :
    Mark.comma ∉ text := h.not_mem (by decide) rfl

theorem Counts.closeCounts_not_mem {text : List UInt8} {n : Nat} (h : Counts text n) :
    Mark.closeCounts ∉ text := h.not_mem (by decide) rfl

theorem Counts.ne_nil {text : List UInt8} {n : Nat} (h : Counts text n) : text ≠ [] := by
  rcases h with h | ⟨digits, rfl, _⟩
  · exact h.ne_nil
  · exact List.cons_ne_nil _ _

end Grammar

/-- A text is read as a count exactly when it is one below the bound. -/
theorem Count.read_eq_ok {text : List UInt8} {n : Nat} :
    Count.read text = .ok n ↔ Counts text n ∧ n < Count.bound := by
  constructor
  · intro h
    rw [Count.read] at h
    split at h
    · cases h
    · rename_i hne
      have hne : text ≠ [] := fun heq => hne (List.isEmpty_iff.2 heq)
      rw [Count.digits.eq_def] at h
      split at h
      · obtain ⟨hnum, hlt⟩ := (Count.foldlM_push_eq_ok (List.cons_ne_nil _ _)).1 h
        exact ⟨Or.inr ⟨_, rfl, hnum⟩, hlt⟩
      · obtain ⟨hnum, hlt⟩ := (Count.foldlM_push_eq_ok hne).1 h
        exact ⟨Or.inl hnum, hlt⟩
  · rintro ⟨h, hlt⟩
    rw [Count.read, if_neg (fun hempty => h.ne_nil (List.isEmpty_iff.1 hempty))]
    rcases h with h | ⟨digits, rfl, h⟩
    · have hdigits : Count.digits text = text := by
        rw [Count.digits.eq_def]
        split
        · exact absurd List.mem_cons_self (h.not_mem rfl)
        · rfl
      rw [hdigits]
      exact (Count.foldlM_push_eq_ok h.ne_nil).2 ⟨h, hlt⟩
    · cases digits with
      | nil => exact absurd rfl h.ne_nil
      | cons b rest => exact (Count.foldlM_push_eq_ok h.ne_nil).2 ⟨h, hlt⟩

namespace Quantifier

/-! ## Fields -/

theorem fields_of_not_mem {text : List UInt8} (h : Mark.comma ∉ text) : fields text = [text] := by
  induction text with
  | nil => rfl
  | cons b text ih =>
    rw [fields, if_neg (List.ne_of_not_mem_cons h).symm, ih (List.not_mem_of_not_mem_cons h)]

theorem fields_append_comma {text : List UInt8} (h : Mark.comma ∉ text) (rest : List UInt8) :
    fields (text ++ Mark.comma :: rest) = text :: fields rest := by
  induction text with
  | nil => rw [List.nil_append, fields, if_pos rfl]
  | cons b text ih =>
    rw [List.cons_append, fields, if_neg (List.ne_of_not_mem_cons h).symm,
      ih (List.not_mem_of_not_mem_cons h)]

/-- A text is its fields with commas between them. -/
theorem intercalate_fields (text : List UInt8) : [Mark.comma].intercalate (fields text) = text := by
  induction text with
  | nil => rfl
  | cons b text ih =>
    rw [fields]
    split
    · rename_i hb
      subst hb
      obtain ⟨field, more, hcons⟩ := List.exists_cons_of_ne_nil (fields_ne_nil text)
      rw [hcons] at ih ⊢
      rw [List.intercalate_cons_cons, ih]
      rfl
    · split
      · rename_i hnil
        exact absurd hnil (fields_ne_nil text)
      · rename_i field more hcons
        rw [hcons] at ih
        cases more with
        | nil =>
          rw [List.intercalate_singleton] at ih ⊢
          rw [ih]
        | cons second more =>
          rw [List.intercalate_cons_cons] at ih ⊢
          rw [← ih]
          rfl

/-! ## Braces -/

theorem bound_eq_ok {field : List UInt8} {n : Nat} :
    bound field = .ok n ↔ Counts field n ∧ n < Count.bound := by
  rw [← Count.read_eq_ok]
  unfold bound
  cases Count.read field <;> simp

theorem upperBound_eq_ok {field : List UInt8} {max : UpperBound} :
    upperBound field = .ok max ↔
      (field = [] ∧ max = .unbounded) ∨
        ∃ n, max = .bounded n ∧ Counts field n ∧ n < Count.bound := by
  unfold upperBound
  split
  · rename_i hnil
    subst hnil
    constructor
    · intro h
      exact Or.inl ⟨rfl, (Except.ok.inj h).symm⟩
    · rintro (⟨_, rfl⟩ | ⟨n, _, hcounts, _⟩)
      · rfl
      · exact absurd rfl hcounts.ne_nil
  · rename_i hne
    constructor
    · intro h
      split at h
      · rename_i n hn
        exact Or.inr ⟨n, (Except.ok.inj h).symm, bound_eq_ok.1 hn⟩
      · cases h
    · rintro (⟨hnil, _⟩ | ⟨n, rfl, hcounts⟩)
      · exact absurd hnil hne
      · rw [bound_eq_ok.2 hcounts]

/-- The counts are in order and within the limit. -/
def Valid (q : Quantifier) : Prop :=
  match q.max with
  | .bounded max => q.min ≤ max ∧ max ≤ repeatLimit
  | .unbounded => q.min ≤ repeatLimit

theorem check_eq_ok {q r : Quantifier} : check q = .ok r ↔ q = r ∧ q.Valid := by
  unfold check Valid
  cases q.max with
  | bounded max =>
    dsimp only
    by_cases hreversed : max < q.min
    · simp [hreversed, Nat.not_le.2 hreversed]
    · by_cases hlarge : repeatLimit < max
      · simp [hreversed, hlarge, Nat.not_le.2 hlarge]
      · simp [hreversed, hlarge, Nat.not_lt.1 hreversed, Nat.not_lt.1 hlarge]
  | unbounded =>
    dsimp only
    by_cases hlarge : repeatLimit < q.min
    · simp [hlarge, Nat.not_le.2 hlarge]
    · simp [hlarge, Nat.not_lt.1 hlarge]

theorem ofFields_one {count : List UInt8} {q : Quantifier} :
    ofFields [count] = .ok q ↔ ∃ n, bound count = .ok n ∧ q = ⟨n, .bounded n⟩ := by
  show ((bound count).bind fun n => .ok ⟨n, .bounded n⟩) = .ok q ↔ _
  rw [bind_eq_ok]
  simp only [Except.ok.injEq, eq_comm]

theorem ofFields_two {least greatest : List UInt8} {q : Quantifier} :
    ofFields [least, greatest] = .ok q ↔
      bound least = .ok q.min ∧ upperBound greatest = .ok q.max := by
  show ((bound least).bind fun min => (upperBound greatest).bind fun max => .ok ⟨min, max⟩) =
    .ok q ↔ _
  rw [bind_eq_ok]
  constructor
  · rintro ⟨min, hmin, hrest⟩
    obtain ⟨max, hmax, heq⟩ := bind_eq_ok.1 hrest
    obtain rfl := Except.ok.inj heq
    exact ⟨hmin, hmax⟩
  · rintro ⟨hmin, hmax⟩
    exact ⟨q.min, hmin, bind_eq_ok.2 ⟨q.max, hmax, rfl⟩⟩

theorem ofBody_eq_ok {body : List UInt8} {q : Quantifier} :
    ofBody body = .ok q ↔ ofFields (fields body) = .ok q ∧ q.Valid := by
  show ((ofFields (fields body)).bind check) = .ok q ↔ _
  rw [bind_eq_ok]
  constructor
  · rintro ⟨r, hr, hcheck⟩
    obtain ⟨rfl, hvalid⟩ := check_eq_ok.1 hcheck
    exact ⟨hr, hvalid⟩
  · rintro ⟨hq, hvalid⟩
    exact ⟨q, hq, check_eq_ok.2 ⟨rfl, hvalid⟩⟩

theorem lt_bound_of_le {n : Nat} (h : n ≤ repeatLimit) : n < Count.bound :=
  Nat.lt_of_le_of_lt h (by decide)

/-- What is read between braces is a quantifier of the grammar. -/
theorem quantifies_of_ofBody {body : List UInt8} {q : Quantifier} (h : ofBody body = .ok q) :
    Quantifies (Mark.openCounts :: body ++ [Mark.closeCounts]) q := by
  obtain ⟨hfields, hvalid⟩ := ofBody_eq_ok.1 h
  have hjoin := intercalate_fields body
  generalize fields body = parts at hfields hjoin
  match parts with
  | [] => cases hfields
  | [count] =>
    obtain ⟨n, hn, rfl⟩ := ofFields_one.1 hfields
    rw [List.intercalate_singleton] at hjoin
    subst hjoin
    exact .exactly (bound_eq_ok.1 hn).1 hvalid.2
  | [least, greatest] =>
    obtain ⟨hmin, hmax⟩ := ofFields_two.1 hfields
    obtain ⟨min, max⟩ := q
    have hleast := (bound_eq_ok.1 hmin).1
    rw [List.intercalate_cons_cons, List.intercalate_singleton] at hjoin
    subst hjoin
    rcases upperBound_eq_ok.1 hmax with ⟨rfl, rfl⟩ | ⟨n, rfl, hgreatest, _⟩
    · simpa using Quantifies.atLeast hleast hvalid
    · simpa using Quantifies.between hleast hgreatest hvalid.1 hvalid.2
  | _ :: _ :: _ :: _ => cases hfields

theorem ofByte?_eq_none {b : UInt8} :
    ofByte? b = none ↔ b ∉ [Mark.star, Mark.plus, Mark.query] := by
  simp only [List.mem_cons, List.not_mem_nil, or_false, not_or]
  unfold ofByte?
  split
  · rename_i hb
    simp [hb]
  · split
    · rename_i hb
      simp [hb]
    · split
      · rename_i hb
        simp [hb]
      · rename_i hstar hplus hquery
        exact iff_of_true rfl ⟨hstar, hplus, hquery⟩

theorem mem_of_ofByte? {b : UInt8} {q : Quantifier} (h : ofByte? b = some q) :
    b ∈ [Mark.star, Mark.plus, Mark.query] := by
  refine Decidable.byContradiction fun hb => ?_
  rw [ofByte?_eq_none.2 hb] at h
  cases h

theorem quantifies_of_ofByte? {b : UInt8} {q : Quantifier} (h : ofByte? b = some q) :
    Quantifies [b] q := by
  unfold ofByte? at h
  split at h
  · rename_i hb
    obtain rfl := Option.some.inj h
    exact hb ▸ .star
  · split at h
    · rename_i hb
      obtain rfl := Option.some.inj h
      exact hb ▸ .plus
    · split at h
      · rename_i hb
        obtain rfl := Option.some.inj h
        exact hb ▸ .query
      · cases h

section

variable {least greatest : List UInt8} {m n : Nat}

theorem ofBody_exactly (h : Counts least n) (hlimit : n ≤ repeatLimit) :
    ofBody least = .ok ⟨n, .bounded n⟩ := by
  refine ofBody_eq_ok.2 ⟨?_, Nat.le_refl n, hlimit⟩
  rw [fields_of_not_mem h.comma_not_mem]
  exact ofFields_one.2 ⟨n, bound_eq_ok.2 ⟨h, lt_bound_of_le hlimit⟩, rfl⟩

theorem ofBody_atLeast (h : Counts least n) (hlimit : n ≤ repeatLimit) :
    ofBody (least ++ [Mark.comma]) = .ok ⟨n, .unbounded⟩ := by
  refine ofBody_eq_ok.2 ⟨?_, hlimit⟩
  rw [fields_append_comma h.comma_not_mem]
  exact ofFields_two.2 ⟨bound_eq_ok.2 ⟨h, lt_bound_of_le hlimit⟩, rfl⟩

theorem ofBody_between (hleast : Counts least m) (hgreatest : Counts greatest n) (hle : m ≤ n)
    (hlimit : n ≤ repeatLimit) :
    ofBody (least ++ Mark.comma :: greatest) = .ok ⟨m, .bounded n⟩ := by
  have hm : m ≤ repeatLimit := Nat.le_trans hle hlimit
  refine ofBody_eq_ok.2 ⟨?_, hle, hlimit⟩
  rw [fields_append_comma hleast.comma_not_mem, fields_of_not_mem hgreatest.comma_not_mem]
  exact ofFields_two.2 ⟨bound_eq_ok.2 ⟨hleast, lt_bound_of_le hm⟩,
    upperBound_eq_ok.2 (Or.inr ⟨n, rfl, hgreatest, lt_bound_of_le hlimit⟩)⟩

end

/-- The quantifiers of the grammar are the bytes and the braces that are read as
one. -/
theorem quantifies_iff {mark : List UInt8} {q : Quantifier} :
    Quantifies mark q ↔ (∃ b, mark = [b] ∧ ofByte? b = some q) ∨
      ∃ body, mark = Mark.openCounts :: body ++ [Mark.closeCounts] ∧ Mark.closeCounts ∉ body ∧
        ofBody body = .ok q := by
  have hmark : Mark.closeCounts ≠ Mark.comma := by decide
  constructor
  · intro h
    cases h with
    | star => exact Or.inl ⟨Mark.star, rfl, by decide⟩
    | plus => exact Or.inl ⟨Mark.plus, rfl, by decide⟩
    | query => exact Or.inl ⟨Mark.query, rfl, by decide⟩
    | exactly h hlimit =>
      exact Or.inr ⟨_, rfl, h.closeCounts_not_mem, ofBody_exactly h hlimit⟩
    | atLeast h hlimit =>
      refine Or.inr ⟨_, ?_, ?_, ofBody_atLeast h hlimit⟩
      · simp
      · simp [h.closeCounts_not_mem, hmark]
    | between hleast hgreatest hle hlimit =>
      refine Or.inr ⟨_, ?_, ?_, ofBody_between hleast hgreatest hle hlimit⟩
      · simp
      · simp [hleast.closeCounts_not_mem, hgreatest.closeCounts_not_mem, hmark]
  · rintro (⟨b, rfl, hb⟩ | ⟨body, rfl, _, hbody⟩)
    · exact quantifies_of_ofByte? hb
    · exact quantifies_of_ofBody hbody

end Quantifier

end BytePattern
