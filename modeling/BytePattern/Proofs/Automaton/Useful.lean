import BytePattern.Proofs.Automaton.Connected
import BytePattern.Proofs.Automaton.Tidy

set_option autoImplicit false

/-!
# Automata: useful states

A state is useful if the start leads to it and it leads to the end.  A bracket without
bytes has an exit that nothing leads into, and nothing ever will: the edges that are
added later lead into entries and into the pairs of states around blocks.  So a token
with such a bracket strands a state, while a token without one has a connected block,
and all states of an automaton are useful exactly when every bracket has a byte.
-/

namespace BytePattern

/-! ## Stranded states -/

/-- A state of the block other than the entry that no edge leads into. -/
structure Fragment.Strands (f : Fragment) (before after : Arena) (id : Nat) : Prop where
  id_ge : before.size ≤ id
  id_lt : id < after.size
  id_ne : id ≠ f.entry
  source : Arena.Source before after id

/-- Assembling strands a state. -/
def MakesStranded (make : Arena → Fragment × Arena) : Prop :=
  ∀ arena : Arena, (make arena).1.Within arena (make arena).2 ∧
    ∃ id, (make arena).1.Strands arena (make arena).2 id

namespace Arena

/-- What was there before the block does not lead into the block. -/
theorem Source.older {base before after : Arena} {id : Nat} (h : Source before after id)
    (hbefore : Appends base before) (hafter : Appends before after) (hid : before.size ≤ id) :
    Source base after id := by
  intro s symbol hs hedge
  rcases Nat.lt_or_ge s before.size with hlt | hge
  · rw [hafter.targets_eq hlt] at hedge
    exact Nat.not_lt.2 hid (hbefore.inside hs hedge).2
  · exact h s symbol hge hedge

end Arena

namespace Fragment

variable {base before after later : Arena} {f g : Fragment} {a b id : Nat}

/-- An edge to another state. -/
theorem Strands.join (h : f.Strands before after id) (hne : id ≠ b) :
    f.Strands before (after.join a b) id := by
  refine ⟨h.id_ge, ?_, h.id_ne, h.source.join hne⟩
  rw [Arena.size_join]
  exact h.id_lt

/-- A block behind the block. -/
theorem Strands.appends (h : f.Strands before after id) (hlater : Arena.Appends after later) :
    f.Strands before later id :=
  ⟨h.id_ge, Nat.lt_of_lt_of_le h.id_lt hlater.size_le, h.id_ne, h.source.appends h.id_lt hlater⟩

/-- A block in front of the block. -/
theorem Strands.older (h : f.Strands before after id) (hbefore : Arena.Appends base before)
    (hafter : Arena.Appends before after) : f.Strands base after id :=
  ⟨Nat.le_trans hbefore.size_le h.id_ge, h.id_lt, h.id_ne, h.source.older hbefore hafter h.id_ge⟩

/-- A fragment with another entry. -/
theorem Strands.of_ne (h : f.Strands before after id) (hne : id ≠ g.entry) :
    g.Strands before after id :=
  ⟨h.id_ge, h.id_lt, hne, h.source⟩

/-- A stranded state is no entry of a fragment behind the block. -/
theorem Strands.ne_entry_of_within (h : f.Strands before after id) (hg : g.Within after later) :
    id ≠ g.entry :=
  Nat.ne_of_lt (Nat.lt_of_lt_of_le h.id_lt hg.entry_ge)

/-- A stranded state is no entry of a fragment in front of the block. -/
theorem Strands.ne_entry_of_before (h : g.Strands before after id) (hf : f.Within base before) :
    id ≠ f.entry :=
  Nat.ne_of_gt (Nat.lt_of_lt_of_le hf.entry_lt h.id_ge)

end Fragment

namespace Arena

theorem strands_pair (arena : Arena) : arena.pair.Strands arena arena.addPair (arena.size + 1) :=
  ⟨Nat.le_succ _, by simp, Nat.succ_ne_self _, source_addPair (.refl arena) (Nat.le_succ _)⟩

section

variable {base before after : Arena} {f g last : Fragment} {id : Nat}

/-! ### Two blocks -/

theorem strands_join_left (hf : f.Strands base before id) (hg : g.Within before after) :
    Fragment.Strands ⟨f.entry, g.exit⟩ base (after.join f.exit g.entry) id :=
  ((hf.appends hg.appends).join (hf.ne_entry_of_within hg)).of_ne hf.id_ne

theorem strands_join_right (hf : f.Within base before) (hg : g.Strands before after id)
    (hg' : g.Within before after) :
    Fragment.Strands ⟨f.entry, g.exit⟩ base (after.join f.exit g.entry) id := by
  have hne : id ≠ f.entry := hg.ne_entry_of_before hf
  exact ((hg.older hf.appends hg'.appends).join hg.id_ne).of_ne hne

/-- The pair around two blocks leads into their entries, and they lead into its exit. -/
theorem strands_fork (h : f.Strands base after id) (hg : id ≠ g.entry) :
    (after.fork f g).1.Strands base (after.fork f g).2 id := by
  have hexit : id ≠ after.size + 1 := Nat.ne_of_lt (Nat.lt_succ_of_lt h.id_lt)
  have hopen : f.Strands base (openFork after f g) id :=
    ((h.appends (Appends.refl after).addPair).join h.id_ne).join hg
  rw [fork_eq]
  dsimp only
  exact ((hopen.join hexit).join hexit).of_ne (Nat.ne_of_lt h.id_lt)

theorem strands_fork_left (hf : f.Strands base before id) (hg : g.Within before after) :
    (after.fork f g).1.Strands base (after.fork f g).2 id :=
  strands_fork (hf.appends hg.appends) (hf.ne_entry_of_within hg)

theorem strands_fork_right (hf : f.Within base before) (hg : g.Strands before after id)
    (hg' : g.Within before after) : (after.fork f g).1.Strands base (after.fork f g).2 id :=
  strands_fork ((hg.older hf.appends hg'.appends).of_ne (hg.ne_entry_of_before hf)) hg.id_ne

/-! ### Copies -/

theorem appends_openPair (min : Nat) (base : Arena) : Appends base (openPair min base) := by
  have hpair : Appends base base.addPair := (Appends.refl base).addPair
  unfold openPair
  split
  · exact hpair.link (Nat.le_refl _) (Nat.le_succ _) (by simp)
  · exact hpair

/-- A state of the copies between the pair after `base` stays stranded while copies are
added. -/
theorem strands_chain {make : Arena → Fragment × Arena}
    (hmake : ∀ arena : Arena, (make arena).1.Within arena (make arena).2) (min : Nat)
    (hexit : id ≠ base.pair.exit) :
    ∀ (count index : Nat) {last : Fragment} {arena : Arena}, last.Strands base arena id →
      (chain make min base.pair.exit count index last arena).1.Strands base
        (chain make min base.pair.exit count index last arena).2 id := by
  intro count
  induction count with
  | zero => exact fun _ _ _ h => h
  | succ count ih =>
    intro index last arena h
    have hne := h.ne_entry_of_within (hmake arena)
    have hlinked : (make arena).1.Strands base
        ((make arena).2.join last.exit (make arena).1.entry) id :=
      ((h.appends (hmake arena).appends).join hne).of_ne hne
    rw [chain_succ]
    -- what is added leads into the new copy or into the exit of the pair
    apply ih
    split
    · exact hlinked.join hexit
    · exact hlinked

/-- A state that is stranded in the first copy is stranded in the repetition. -/
theorem strands_unroll {make : Arena → Fragment × Arena} (hmake : MakesStranded make) (min : Nat)
    (max : UpperBound) (base : Arena) :
    ∃ id, (unroll make min max base).1.Strands base (unroll make min max base).2 id := by
  obtain ⟨hwithin, id, hstrands⟩ := hmake (openPair min base)
  have hge : base.size + 2 ≤ id := size_openPair base min ▸ hstrands.id_ge
  have hentry : id ≠ base.pair.entry := Nat.ne_of_gt (Nat.lt_of_succ_lt hge)
  have hexit : id ≠ base.pair.exit := Nat.ne_of_gt hge
  have hcopies : ∀ count, (copies make min count base).1.Strands base
      (copies make min count base).2 id := by
    intro count
    have hfirst := hstrands.older (appends_openPair min base) hwithin.appends
    exact strands_chain (fun arena => (hmake arena).1) min hexit (count - 1) 2
      (hfirst.join hstrands.id_ne)
  refine ⟨id, ?_⟩
  cases max with
  | bounded count =>
    rw [unroll_bounded]
    exact ((hcopies count).join hexit).of_ne hentry
  | unbounded =>
    have hlast := hcopies (Nat.max min 1)
    rw [unroll_unbounded]
    exact ((hlast.join hexit).join hlast.id_ne).of_ne hentry

end

end Arena

/-- Tokens assembled after a fragment leave its states stranded. -/
theorem Token.strands_assembleAfter (tokens : List Token) {base arena : Arena} {f : Fragment}
    {id : Nat} (h : f.Strands base arena id) :
    (Token.assembleAfter tokens f arena).1.Strands base (Token.assembleAfter tokens f arena).2
      id := by
  induction tokens generalizing f arena with
  | nil => exact h
  | cons token tokens ih =>
    rw [Token.assembleAfter]
    exact ih (Arena.strands_join_left h (token.within_assemble arena))

mutual

/-- A token with a bracket without bytes strands a state. -/
theorem Token.exists_strands_assemble : ∀ token : Token, ¬ token.Throughout Token.NotBlank →
    ∀ arena : Arena, ∃ id, (token.assemble arena).1.Strands arena (token.assemble arena).2 id
  | .literal byte, h, arena => by
    rw [Token.Throughout] at h
    exact absurd Token.noConfusion h
  | .bracket set, h, arena => by
    rw [Token.Throughout] at h
    obtain rfl : set = .empty := Token.bracket.inj (Classical.not_not.1 h)
    exact ⟨_, Arena.strands_pair arena⟩
  | .either left right, h, arena => by
    rw [Token.Throughout] at h
    have hleft' := left.within_assemble arena
    have hright' := right.within_assemble (left.assemble arena).2
    rw [Token.assemble]
    by_cases hleft : left.Throughout Token.NotBlank
    · have hright : ¬ right.Throughout Token.NotBlank :=
        fun hright => h ⟨Token.noConfusion, hleft, hright⟩
      obtain ⟨id, hid⟩ := right.exists_strands_assemble hright (left.assemble arena).2
      exact ⟨id, Arena.strands_fork_right hleft' hid hright'⟩
    · obtain ⟨id, hid⟩ := left.exists_strands_assemble hleft arena
      exact ⟨id, Arena.strands_fork_left hid hright'⟩
  | .repeated min max body, h, arena => by
    rw [Token.Throughout] at h
    have hbody : ¬ body.Throughout Token.NotBlank := fun hbody => h ⟨Token.noConfusion, hbody⟩
    rw [Token.assemble]
    exact Arena.strands_unroll (fun base => ⟨body.within_assemble base,
      body.exists_strands_assemble hbody base⟩) min max arena
  | .group tokens, h, arena => by
    rw [Token.Throughout] at h
    rw [Token.assemble]
    exact Token.exists_strands_assembleAll tokens (fun hall => h ⟨Token.noConfusion, hall⟩) arena
  | .sequence tokens, h, arena => by
    rw [Token.Throughout] at h
    rw [Token.assemble]
    exact Token.exists_strands_assembleAll tokens (fun hall => h ⟨Token.noConfusion, hall⟩) arena

theorem Token.exists_strands_assembleAll : ∀ tokens : List Token,
    ¬ Token.AllThroughout Token.NotBlank tokens → ∀ arena : Arena,
      ∃ id, (Token.assembleAll tokens arena).1.Strands arena (Token.assembleAll tokens arena).2 id
  | [], h, arena => by
    rw [Token.AllThroughout] at h
    exact absurd trivial h
  | token :: tokens, h, arena => by
    rw [Token.AllThroughout] at h
    rw [Token.assembleAll]
    by_cases hfirst : token.Throughout Token.NotBlank
    · exact Token.exists_strands_assembleAfter tokens (fun hrest => h ⟨hfirst, hrest⟩)
        (token.within_assemble arena)
    · obtain ⟨id, hid⟩ := token.exists_strands_assemble hfirst arena
      exact ⟨id, Token.strands_assembleAfter tokens hid⟩

theorem Token.exists_strands_assembleAfter : ∀ tokens : List Token,
    ¬ Token.AllThroughout Token.NotBlank tokens → ∀ {base arena : Arena} {f : Fragment},
      f.Within base arena → ∃ id, (Token.assembleAfter tokens f arena).1.Strands base
        (Token.assembleAfter tokens f arena).2 id
  | [], h, base, arena, f => by
    rw [Token.AllThroughout] at h
    exact absurd trivial h
  | token :: tokens, h, base, arena, f => by
    intro hf
    rw [Token.AllThroughout] at h
    have hnext := token.within_assemble arena
    rw [Token.assembleAfter]
    by_cases hfirst : token.Throughout Token.NotBlank
    · exact Token.exists_strands_assembleAfter tokens (fun hrest => h ⟨hfirst, hrest⟩)
        (Arena.within_join hf hnext)
    · obtain ⟨id, hid⟩ := token.exists_strands_assemble hfirst arena
      exact ⟨id, Token.strands_assembleAfter tokens
        (Arena.strands_join_right hf hid hnext)⟩

end

/-! ## The automaton of a token list -/

namespace Automaton

/-- The start leads to the state, and the state leads to the end. -/
def Useful (a : Automaton) (id : Nat) : Prop :=
  a.states.Leads a.start id ∧ a.states.Leads id a.accept

theorem useful_of_notBlank {tokens : List Token} (h : Token.AllThroughout Token.NotBlank tokens)
    {id : Nat} (hid : id < (ofTokens tokens).size) : (ofTokens tokens).Useful id := by
  have hwithin := Token.within_assembleAll tokens #[]
  have hconnected := Token.connected_assembleAll tokens h #[]
  have hsize := size_close (Token.assembleAll tokens #[]).1 (Token.assembleAll tokens #[]).2
  rw [ofTokens_eq] at hid ⊢
  generalize Token.assembleAll tokens #[] = whole at *
  have hexit := hwithin.exit_lt
  have hgrows : Arena.Grows whole.2 (close whole.1 whole.2).states := by
    intro s t symbol hedge
    exact (mem_targets_close hexit).2 (Or.inl hedge)
  have henter : (close whole.1 whole.2).states.Leads whole.2.size whole.1.entry :=
    .edge ((mem_targets_close hexit).2 (Or.inr ⟨rfl, Or.inl ⟨rfl, rfl⟩⟩))
  have hleave : (close whole.1 whole.2).states.Leads whole.1.exit (whole.2.size + 1) :=
    .edge ((mem_targets_close hexit).2 (Or.inr ⟨rfl, Or.inr ⟨rfl, rfl⟩⟩))
  have hends := Arena.Between.ends
    ((henter.trans ((hconnected.through hwithin).grows hgrows)).trans hleave)
  have hall := ((hconnected.grows hgrows).wrap henter hleave).or hends
  have hid' : id < whole.2.size + 2 := hsize ▸ hid
  have hempty : (#[] : Arena).size = 0 := rfl
  have hcases : ((#[] : Arena).size ≤ id ∧ id < whole.2.size) ∨ id = whole.2.size ∨
      id = whole.2.size + 1 := by
    omega
  exact ⟨hall.reached hcases, hall.reaching hcases⟩

theorem exists_unreached_of_blank {tokens : List Token}
    (h : ¬ Token.AllThroughout Token.NotBlank tokens) :
    ∃ id, id < (ofTokens tokens).size ∧
      ¬ (ofTokens tokens).states.Leads (ofTokens tokens).start id := by
  have hwithin := Token.within_assembleAll tokens #[]
  obtain ⟨id, hid⟩ := Token.exists_strands_assembleAll tokens h #[]
  have hsize := size_close (Token.assembleAll tokens #[]).1 (Token.assembleAll tokens #[]).2
  rw [ofTokens_eq]
  generalize Token.assembleAll tokens #[] = whole at *
  have hlt := hid.id_lt
  refine ⟨id, ?_, fun hleads => ?_⟩
  · unfold size
    omega
  · have hstart : whole.2.size = id := hleads.eq_of_no_edge fun u symbol hedge => by
      rcases (mem_targets_close hwithin.exit_lt).1 hedge with hold | ⟨_, ⟨_, heq⟩ | ⟨_, heq⟩⟩
      · exact hid.source u symbol (Nat.zero_le _) hold
      · exact hid.id_ne heq
      · omega
    omega

/-- All states are useful exactly when every bracket has a byte. -/
theorem useful_ofTokens_iff (tokens : List Token) :
    (∀ id < (ofTokens tokens).size, (ofTokens tokens).Useful id) ↔
      Token.AllThroughout Token.NotBlank tokens := by
  constructor
  · intro huseful
    by_contra h
    obtain ⟨id, hid, hunreached⟩ := exists_unreached_of_blank h
    exact hunreached (huseful id hid).1
  · exact fun h id hid => useful_of_notBlank h hid

/-- Edges of an automaton are under epsilon or bytes, so what they lead to is reached
by a walk. -/
theorem exists_walk_of_leads {tokens : List Token} {s t : Nat}
    (h : (ofTokens tokens).states.Leads s t) : ∃ w, (ofTokens tokens).states.Walk s w t := by
  obtain ⟨labels, htrail⟩ := h
  induction htrail with
  | refl s => exact ⟨[], .refl s⟩
  | @step s t u symbol labels hedge _ ih =>
    obtain ⟨w, hwalk⟩ := ih
    obtain ⟨hstart, hend⟩ := targets_mark tokens s
    cases symbol with
    | epsilon => exact ⟨w, .epsilon hedge hwalk⟩
    | byte b => exact ⟨b :: w, .byte hedge hwalk⟩
    | startOfText =>
      rw [show (ofTokens tokens).states.targets s .startOfText = [] from hstart] at hedge
      cases hedge
    | endOfText =>
      rw [show (ofTokens tokens).states.targets s .endOfText = [] from hend] at hedge
      cases hedge

end Automaton

end BytePattern
