import BytePattern.Pattern.Readable
import BytePattern.Proofs.Pattern.Parsing

set_option autoImplicit false

/-!
# Patterns: what is read is readable

By induction on derivations, what the grammar derives in a mode satisfies the
conditions on trees, with the condition on closing parentheses in the form that
the mode asks for.  In the top mode it is the one that does not mention modes.
-/

namespace BytePattern

open Grammar

/-! ## Tokens throughout -/

theorem Token.allThroughout_iff {p : Token → Prop} {tokens : List Token} :
    Token.AllThroughout p tokens ↔ ∀ token ∈ tokens, token.Throughout p := by
  induction tokens with
  | nil => simp [Token.AllThroughout]
  | cons token tokens ih => rw [Token.AllThroughout, ih, List.forall_mem_cons]

/-! ## Closing parentheses by mode -/

mutual

/-- Where the token stands in the mode, a literal in it is a closing parenthesis
only where the mode is the top one. -/
def Token.ClosersIn (mode : Mode) : Token → Prop
  | .literal byte => byte = Mark.closeGroup → mode = .top
  | .bracket _ => True
  | .either left right => left.ClosersIn mode ∧ right.ClosersIn mode.afterBar
  | .repeated _ _ body => body.ClosersIn mode
  | .group tokens => Token.AllClosersIn .group tokens
  | .sequence tokens => Token.AllClosersIn mode tokens

/-- The same for each of the tokens. -/
def Token.AllClosersIn (mode : Mode) : List Token → Prop
  | [] => True
  | token :: tokens => token.ClosersIn mode ∧ Token.AllClosersIn mode tokens

end

theorem Token.allClosersIn_iff {mode : Mode} {tokens : List Token} :
    Token.AllClosersIn mode tokens ↔ ∀ token ∈ tokens, token.ClosersIn mode := by
  induction tokens with
  | nil => simp [Token.AllClosersIn]
  | cons token tokens ih => rw [Token.AllClosersIn, ih, List.forall_mem_cons]

mutual

/-- Away from the top no literal is a closing parenthesis. -/
theorem Token.closersIn_inner {mode : Mode} (hmode : mode ≠ .top) :
    ∀ token : Token, token.ClosersIn mode ↔ token.Throughout Token.NotCloser
  | .literal byte => by
    rw [Token.ClosersIn, Token.Throughout, Token.NotCloser]
    exact ⟨fun h hbyte => hmode (h hbyte), fun h hbyte => absurd hbyte h⟩
  | .bracket _ => by
    rw [Token.ClosersIn, Token.Throughout, Token.NotCloser]
  | .either left right => by
    rw [Token.ClosersIn, Token.Throughout, Token.closersIn_inner hmode left,
      Token.closersIn_inner mode.afterBar_ne_top right, Token.NotCloser, true_and]
  | .repeated _ _ body => by
    rw [Token.ClosersIn, Token.Throughout, Token.closersIn_inner hmode body, Token.NotCloser,
      true_and]
  | .group tokens => by
    rw [Token.ClosersIn, Token.Throughout, Token.allClosersIn_inner (by decide) tokens,
      Token.NotCloser, true_and]
  | .sequence tokens => by
    rw [Token.ClosersIn, Token.Throughout, Token.allClosersIn_inner hmode tokens,
      Token.NotCloser, true_and]

theorem Token.allClosersIn_inner {mode : Mode} (hmode : mode ≠ .top) :
    ∀ tokens : List Token,
      Token.AllClosersIn mode tokens ↔ Token.AllThroughout Token.NotCloser tokens
  | [] => by rw [Token.AllClosersIn, Token.AllThroughout]
  | token :: tokens => by
    rw [Token.AllClosersIn, Token.AllThroughout, Token.closersIn_inner hmode token,
      Token.allClosersIn_inner hmode tokens]

end

mutual

/-- At the top a closing parenthesis is a literal only outside groups and right
sides. -/
theorem Token.closersIn_top :
    ∀ token : Token, token.ClosersIn .top ↔ token.ClosersOutside
  | .literal _ => by simp [Token.ClosersIn, Token.ClosersOutside]
  | .bracket _ => by rw [Token.ClosersIn, Token.ClosersOutside]
  | .either left right => by
    rw [Token.ClosersIn, Token.ClosersOutside, Token.closersIn_top left,
      Token.closersIn_inner (Mode.afterBar_ne_top _) right]
  | .repeated _ _ body => by
    rw [Token.ClosersIn, Token.ClosersOutside, Token.closersIn_top body]
  | .group tokens => by
    rw [Token.ClosersIn, Token.ClosersOutside, Token.allClosersIn_inner (by decide) tokens]
  | .sequence tokens => by
    rw [Token.ClosersIn, Token.ClosersOutside, Token.allClosersIn_top tokens]

theorem Token.allClosersIn_top :
    ∀ tokens : List Token, Token.AllClosersIn .top tokens ↔ Token.AllClosersOutside tokens
  | [] => by rw [Token.AllClosersIn, Token.AllClosersOutside]
  | token :: tokens => by
    rw [Token.AllClosersIn, Token.AllClosersOutside, Token.closersIn_top token,
      Token.allClosersIn_top tokens]

end

/-! ## Items and sequences of a mode -/

/-- The token can be an item of a sequence in the mode. -/
structure Token.ItemIn (mode : Mode) (token : Token) : Prop where
  isItem : token.IsItem
  allowed : token.Throughout Token.Allowed
  closers : token.ClosersIn mode

/-- The tokens can be a sequence in the mode. -/
structure Token.SequenceIn (mode : Mode) (tokens : List Token) : Prop where
  sequenced : Token.Sequenced tokens
  allowed : Token.AllThroughout Token.Allowed tokens
  closers : Token.AllClosersIn mode tokens

theorem Token.sequenceIn_top {tokens : List Token} :
    Token.SequenceIn .top tokens ↔ Token.Readable tokens := by
  constructor
  · intro h
    exact ⟨h.sequenced, h.allowed, (Token.allClosersIn_top tokens).1 h.closers⟩
  · intro h
    exact ⟨h.sequenced, h.allowed, (Token.allClosersIn_top tokens).2 h.closers⟩

theorem Token.SequenceIn.of_items {mode : Mode} {tokens : List Token} (hne : tokens ≠ [])
    (h : ∀ token ∈ tokens, token.ItemIn mode) : Token.SequenceIn mode tokens := by
  refine ⟨.items hne fun token ht => (h token ht).isItem, ?_, ?_⟩
  · exact Token.allThroughout_iff.2 fun token ht => (h token ht).allowed
  · exact Token.allClosersIn_iff.2 fun token ht => (h token ht).closers

theorem Token.forall_itemIn {mode : Mode} {tokens : List Token}
    (hitems : ∀ token ∈ tokens, token.IsItem)
    (hallowed : Token.AllThroughout Token.Allowed tokens)
    (hclosers : Token.AllClosersIn mode tokens) : ∀ token ∈ tokens, token.ItemIn mode := by
  intro token ht
  exact ⟨hitems token ht, Token.allThroughout_iff.1 hallowed token ht,
    Token.allClosersIn_iff.1 hclosers token ht⟩

/-! ## What the grammar derives is readable -/

/-- A range starts neither at a closing bracket nor at a dash. -/
theorem Grammar.Entry.low {text : List UInt8} {range : UInt8 × UInt8} (h : Entry text range) :
    range.1 ≠ Mark.closeBracket ∧ range.1 ≠ Mark.dash := by
  induction h with
  | single hclose hdash => exact ⟨hclose, hdash⟩
  | extend _ _ ih => exact ih

theorem Grammar.Entries.low {text : List UInt8} {ranges : List (UInt8 × UInt8)}
    (h : Entries text ranges) :
    ∀ range ∈ ranges, range.1 ≠ Mark.closeBracket ∧ range.1 ≠ Mark.dash := by
  induction h with
  | nil => simp
  | cons hentry _ ih => exact List.forall_mem_cons.2 ⟨hentry.low, ih⟩

/-- A set of ranges none of which starts at `c` contains, with `c`, the byte before it. -/
theorem Grammar.Covers.mem_pred {ranges : List (UInt8 × UInt8)} {set : ByteSet} {b c : UInt8}
    (hset : Covers ranges set) (hnext : c.toNat = b.toNat + 1)
    (hlow : ∀ range ∈ ranges, range.1 ≠ c) (h : c ∈ set) : b ∈ set := by
  rw [hset] at *
  obtain ⟨range, hrange, hle, hge⟩ := h
  have hne : range.1.toNat ≠ c.toNat := fun heq => hlow range hrange (UInt8.toNat_inj.1 heq)
  rw [UInt8.le_iff_toNat_le] at hle hge
  refine ⟨range, hrange, ?_, ?_⟩
  · rw [UInt8.le_iff_toNat_le]
    omega
  · rw [UInt8.le_iff_toNat_le]
    omega

theorem Grammar.Entries.writable {text : List UInt8} {ranges : List (UInt8 × UInt8)}
    {set : ByteSet} (h : Entries text ranges) (hset : Covers ranges set) : set.Writable :=
  ⟨hset.mem_pred rfl fun range hr => (h.low range hr).1,
    hset.mem_pred rfl fun range hr => (h.low range hr).2⟩

/-- The counts are in order and within the limit. -/
theorem Quantifier.valid_iff {min : Nat} {max : UpperBound} :
    Quantifier.Valid ⟨min, max⟩ ↔ min ≤ repeatLimit ∧ max.AtLeast min ∧ max.AtMost repeatLimit := by
  cases max with
  | unbounded => simp [Quantifier.Valid, UpperBound.AtLeast, UpperBound.AtMost]
  | bounded bound =>
    simp only [Quantifier.Valid, UpperBound.AtLeast, UpperBound.AtMost]
    omega

theorem Grammar.Quantifies.valid {mark : List UInt8} {q : Quantifier} (h : Quantifies mark q) :
    q.Valid := by
  cases h with
  | star => exact Nat.zero_le _
  | plus => exact (by decide : 1 ≤ repeatLimit)
  | query => exact (by decide : 0 ≤ 1 ∧ 1 ≤ repeatLimit)
  | exactly _ hlimit => exact ⟨Nat.le_refl _, hlimit⟩
  | atLeast _ hlimit => exact hlimit
  | between _ _ hle hlimit => exact ⟨hle, hlimit⟩

mutual

theorem Grammar.Atom.itemIn {mode : Mode} {text : List UInt8} {token : Token} :
    Atom mode text token → token.ItemIn mode
  | .literal hplain => by
    refine ⟨trivial, ?_, ?_⟩
    · rw [Token.Throughout, Token.Allowed]
      exact hplain.1
    · rw [Token.ClosersIn]
      exact hplain.2
  | .bracket hentries hset => by
    refine ⟨trivial, ?_, ?_⟩
    · rw [Token.Throughout, Token.Allowed]
      exact hentries.writable hset
    · rw [Token.ClosersIn]
      exact trivial
  | .group hsequence => by
    refine ⟨trivial, ?_, ?_⟩
    · rw [Token.Throughout, Token.Allowed]
      exact ⟨hsequence.sequenceIn.sequenced, hsequence.sequenceIn.allowed⟩
    · rw [Token.ClosersIn]
      exact hsequence.sequenceIn.closers

theorem Grammar.Item.itemIn {mode : Mode} {text : List UInt8} {token : Token} :
    Item mode text token → token.ItemIn mode
  | .atom hatom => hatom.itemIn
  | .quantified hitem hmark => by
    refine ⟨trivial, ?_, ?_⟩
    · rw [Token.Throughout, Token.Allowed]
      exact ⟨⟨hitem.itemIn.isItem, Quantifier.valid_iff.1 hmark.valid⟩, hitem.itemIn.allowed⟩
    · rw [Token.ClosersIn]
      exact hitem.itemIn.closers

theorem Grammar.Items.itemIn {mode : Mode} {text : List UInt8} {tokens : List Token} :
    Items mode text tokens → ∀ token ∈ tokens, token.ItemIn mode
  | .one hitem => List.forall_mem_singleton.2 hitem.itemIn
  | .more hitem hitems => List.forall_mem_cons.2 ⟨hitem.itemIn, hitems.itemIn⟩

theorem Grammar.Sequence.sequenceIn {mode : Mode} {text : List UInt8} {tokens : List Token} :
    Sequence mode text tokens → Token.SequenceIn mode tokens
  | .items hitems => .of_items hitems.ne_nil hitems.itemIn
  | .either hleft hright => by
    have hl := Token.SequenceIn.of_items hleft.ne_nil hleft.itemIn
    have hr := hright.sequenceIn
    refine ⟨?_, ?_, ?_⟩
    · exact .either hleft.ne_nil (fun token ht => (hleft.itemIn token ht).isItem) hr.sequenced
    · simp only [Token.AllThroughout, Token.Throughout, Token.Allowed, true_and, and_true]
      exact ⟨hl.allowed, hr.allowed⟩
    · simp only [Token.AllClosersIn, Token.ClosersIn, and_true]
      exact ⟨hl.closers, hr.closers⟩

end

end BytePattern
