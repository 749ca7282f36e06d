import BytePattern.Proofs.Pattern.Step

set_option autoImplicit false

/-!
# Patterns: what the grammar derives is read

A reader that stands between items, where the grammar derives a text, takes the
text and has its token at the end of the open sequence.  The groups around it and
the alternatives before it are neither read nor changed, so each rule of the
grammar is a run of its own, and a derivation is put together from runs.
-/

namespace BytePattern

open Grammar

namespace Level

/-- The level with more items at the end. -/
def pushAll (level : Level) (tokens : List Token) : Level :=
  { level with items := tokens.reverse ++ level.items }

theorem pushAll_cons (level : Level) (token : Token) (tokens : List Token) :
    level.pushAll (token :: tokens) = (level.push token).pushAll tokens := by
  simp [pushAll, push]

section

variable {level : Level} {tokens : List Token}

theorem tokens?_pushAll (hnone : level.items = []) (hne : tokens ≠ []) :
    (level.pushAll tokens).tokens? = some (level.ended.foldl join tokens) := by
  unfold pushAll tokens?
  rw [hnone, List.append_nil]
  cases htokens : tokens.reverse with
  | nil => exact absurd (List.reverse_eq_nil_iff.1 htokens) hne
  | cons last before =>
    show some (level.ended.foldl join (last :: before).reverse) = _
    rw [← htokens, List.reverse_reverse]

theorem bar?_pushAll (hnone : level.items = []) (hne : tokens ≠ []) :
    (level.pushAll tokens).bar? = some ⟨tokens :: level.ended, []⟩ := by
  unfold pushAll bar?
  rw [hnone, List.append_nil]
  cases htokens : tokens.reverse with
  | nil => exact absurd (List.reverse_eq_nil_iff.1 htokens) hne
  | cons last before =>
    show some (Level.mk ((last :: before).reverse :: level.ended) []) = _
    rw [← htokens, List.reverse_reverse]

end

end Level

theorem Grammar.Items.ne_nil {mode : Mode} {text : List UInt8} {tokens : List Token}
    (h : Items mode text tokens) : tokens ≠ [] := by
  cases h with
  | one _ => exact List.cons_ne_nil _ _
  | more _ _ => exact List.cons_ne_nil _ _

namespace Reader

/-! ## Texts taken -/

/-- The reader after a text that leaves the groups around it as they are. -/
def past (r : Reader) (text : List UInt8) (context : Context) (level : Level) : Reader :=
  ⟨r.offset + text.length, context, level, r.outer⟩

theorem past_past (r : Reader) (text rest : List UInt8) (context context' : Context)
    (level level' : Level) :
    (r.past text context level).past rest context' level' =
      r.past (text ++ rest) context' level' := by
  simp [past, Nat.add_assoc]

/-- Past an item the sequence goes on where it was. -/
theorem mode_past_push (r : Reader) (text : List UInt8) (token : Token) :
    (r.past text .items (r.level.push token)).mode = r.mode := rfl

/-- Past a bar the sequence goes on where what follows a bar stands. -/
theorem mode_past_bar (r : Reader) (text : List UInt8) (left : List Token) :
    (r.past text .items ⟨left :: r.level.ended, []⟩).mode = r.mode.afterBar := by
  unfold mode
  rw [Mode.afterBar_after]
  rfl

/-- The reader takes the text, to a context and a level. -/
def Takes (r : Reader) (text : List UInt8) (context : Context) (level : Level) : Prop :=
  r.run text = .ok (r.past text context level)

section

variable {r : Reader} {b : UInt8} {text rest : List UInt8} {context context' : Context}
  {level level' : Level}

theorem takes_nil (h : r.context = context) : r.Takes [] context r.level := by
  subst h
  exact run_nil r

theorem Step.takes (h : Step r b (r.next context level)) : r.Takes [b] context level :=
  h.run_one

theorem Takes.trans (h₁ : r.Takes text context level)
    (h₂ : (r.past text context level).Takes rest context' level') :
    r.Takes (text ++ rest) context' level' := by
  unfold Takes at *
  rw [run_trans h₁ h₂, past_past]

end

/-! ## Quantifiers and brackets -/

theorem takes_counts {opened : Nat} {body : List UInt8} (h : Mark.closeCounts ∉ body) :
    ∀ {r : Reader} {before : List UInt8}, r.context = .counts opened before →
      r.Takes body (.counts opened (body.reverse ++ before)) r.level := by
  induction body with
  | nil => exact takes_nil
  | cons b body ih =>
    intro r before hc
    have hfirst := (Step.count hc (List.ne_of_not_mem_cons h).symm).takes
    have hrest := ih (List.not_mem_of_not_mem_cons h)
      (show (r.past [b] (.counts opened (b :: before)) r.level).context = _ from rfl)
    rw [List.reverse_cons, List.append_assoc]
    exact hfirst.trans hrest

/-- An opening brace and what stands after it, up to the closing one. -/
theorem takes_openCounts {r : Reader} {body : List UInt8} (hc : r.context = .items)
    (h : Mark.closeCounts ∉ body) :
    r.Takes (Mark.openCounts :: body) (.counts r.offset body.reverse) r.level := by
  have hcounts := takes_counts h
    (show (r.past [Mark.openCounts] (.counts r.offset []) r.level).context = _ from rfl)
  rw [List.append_nil] at hcounts
  exact (Step.openCounts hc).takes.trans hcounts

/-- A quantifier is taken where there is something to repeat. -/
theorem takes_quantifier {r : Reader} {mark : List UInt8} {q : Quantifier} {level : Level}
    (h : Quantifies mark q) (hc : r.context = .items) (hlevel : r.level.quantify? q = some level) :
    r.Takes mark .items level := by
  rcases Quantifier.quantifies_iff.1 h with ⟨b, rfl, hb⟩ | ⟨body, rfl, hclose, hbody⟩
  · exact (Step.quantify hc hb hlevel).takes
  · refine (takes_openCounts hc hclose).trans (Step.takes ?_)
    exact .closeCounts rfl (by rwa [List.reverse_reverse]) hlevel

theorem takes_entry {text : List UInt8} {range : UInt8 × UInt8} (h : Entry text range) :
    ∀ {r : Reader} {opened : Nat} {before : List (UInt8 × UInt8)},
      r.context = .bracket opened before →
      r.Takes text (.bracket opened (range :: before)) r.level := by
  induction h with
  | single hclose hdash =>
    intro r opened before hc
    exact (Step.single hc hclose hdash).takes
  | extend b _ ih =>
    intro r opened before hc
    exact (ih hc).trans ((Step.dash rfl).takes.trans (Step.extend rfl).takes)

theorem takes_entries {text : List UInt8} {ranges : List (UInt8 × UInt8)}
    (h : Entries text ranges) :
    ∀ {r : Reader} {opened : Nat} {before : List (UInt8 × UInt8)},
      r.context = .bracket opened before →
      r.Takes text (.bracket opened (ranges.reverse ++ before)) r.level := by
  induction h with
  | nil => exact takes_nil
  | cons hentry _ ih =>
    intro r opened before hc
    rw [List.reverse_cons, List.append_assoc]
    exact (takes_entry hentry hc).trans (ih rfl)

theorem takes_bracket {r : Reader} {text : List UInt8} {ranges : List (UInt8 × UInt8)}
    {set : ByteSet} (h : Entries text ranges) (hset : Covers ranges set)
    (hc : r.context = .items) :
    r.Takes (Mark.openBracket :: text ++ [Mark.closeBracket]) .items
      (r.level.push (.bracket set)) := by
  have hreverse := covers_reverse ranges.reverse
  rw [List.reverse_reverse] at hreverse
  have hentries := takes_entries h
    (show (r.past [Mark.openBracket] (.bracket r.offset []) r.level).context = _ from rfl)
  rw [List.append_nil] at hentries
  refine ((Step.openBracket hc).takes.trans hentries).trans (Step.takes ?_)
  rw [hset.unique hreverse]
  exact .closeBracket rfl

/-! ## Groups -/

/-- The reader inside a group that it opens. -/
def inGroup (r : Reader) : Reader :=
  ⟨r.offset + 1, .items, .empty, (r.offset, r.level) :: r.outer⟩

theorem takes_group {r : Reader} {text : List UInt8} {level : Level} {tokens : List Token}
    (hc : r.context = .items) (h : r.inGroup.Takes text .items level)
    (htokens : level.tokens? = some tokens) :
    r.Takes (Mark.openGroup :: text ++ [Mark.closeGroup]) .items
      (r.level.push (.group tokens)) := by
  have hopen : Step r Mark.openGroup r.inGroup := .openGroup hc
  have hclose : Step (r.inGroup.past text .items level) Mark.closeGroup _ :=
    .closeGroup rfl rfl htokens
  have hsize : r.offset + 1 + text.length + 1 =
      r.offset + (Mark.openGroup :: text ++ [Mark.closeGroup]).length := by
    simp only [List.cons_append, List.length_cons, List.length_append, List.length_nil]
    omega
  unfold Takes past
  rw [← hsize]
  exact hopen.run (run_trans h hclose.run_one)

/-! ## Items and sequences -/

mutual

theorem takes_atom {mode : Mode} {text : List UInt8} {token : Token} :
    Atom mode text token → ∀ r : Reader, r.context = .items → r.mode = mode →
      r.Takes text .items (r.level.push token)
  | .literal hplain, r, hc, hmode => (Step.plain hc (hmode ▸ hplain)).takes
  | .bracket hentries hset, r, hc, _ => takes_bracket hentries hset hc
  | .group hsequence, r, hc, _ => by
    obtain ⟨level, htakes, htokens⟩ := takes_sequence hsequence r.inGroup rfl rfl rfl
    exact takes_group hc htakes htokens

theorem takes_item {mode : Mode} {text : List UInt8} {token : Token} :
    Item mode text token → ∀ r : Reader, r.context = .items → r.mode = mode →
      r.Takes text .items (r.level.push token)
  | .atom hatom, r, hc, hmode => takes_atom hatom r hc hmode
  | .quantified hitem hquantifies, r, hc, hmode =>
    (takes_item hitem r hc hmode).trans (takes_quantifier hquantifies rfl rfl)

theorem takes_items {mode : Mode} {text : List UInt8} {tokens : List Token} :
    Items mode text tokens → ∀ r : Reader, r.context = .items → r.mode = mode →
      r.Takes text .items (r.level.pushAll tokens)
  | .one hitem, r, hc, hmode => takes_item hitem r hc hmode
  | @Items.more _ text rest token tokens hitem hitems, r, hc, hmode => by
    have hrest := takes_items hitems (r.past text .items (r.level.push token)) rfl
      ((mode_past_push r text token).trans hmode)
    rw [Level.pushAll_cons]
    exact (takes_item hitem r hc hmode).trans hrest

/-- A sequence is taken from where nothing of it has been read; its tokens are
then the open sequence, joined to the alternatives before it. -/
theorem takes_sequence {mode : Mode} {text : List UInt8} {tokens : List Token} :
    Sequence mode text tokens → ∀ r : Reader, r.context = .items → r.mode = mode →
      r.level.items = [] → ∃ level : Level, r.Takes text .items level ∧
        level.tokens? = some (r.level.ended.foldl Level.join tokens)
  | @Sequence.items _ text tokens hitems, r, hc, hmode, hnone => by
    refine ⟨r.level.pushAll tokens, takes_items hitems r hc hmode, ?_⟩
    exact Level.tokens?_pushAll hnone hitems.ne_nil
  | @Sequence.either _ left right l ts hleft hright, r, hc, hmode, hnone => by
    have hbar := Level.bar?_pushAll hnone hleft.ne_nil
    obtain ⟨level, hrest, htokens⟩ := takes_sequence hright
      (r.past (left ++ [Mark.bar]) .items ⟨l :: r.level.ended, []⟩) rfl
      ((mode_past_bar r _ l).trans (hmode ▸ rfl)) rfl
    have hfirst := (takes_items hleft r hc hmode).trans (Step.bar rfl hbar).takes
    refine ⟨level, ?_, htokens⟩
    rw [List.append_cons]
    exact hfirst.trans hrest

end

end Reader

/-- What the grammar derives is read as it derives it. -/
theorem parse_of_sequence {pattern : List UInt8} {tokens : List Token}
    (h : Sequence .top pattern tokens) : parse pattern = .ok tokens := by
  obtain ⟨level, htakes, htokens⟩ := Reader.takes_sequence h .start rfl rfl rfl
  unfold parse
  rw [bind_eq_ok]
  exact ⟨_, htakes, Reader.finish_eq_ok.2 ⟨rfl, rfl, htokens⟩⟩

end BytePattern
