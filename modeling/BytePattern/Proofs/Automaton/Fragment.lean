import BytePattern.Proofs.Automaton.Block
import BytePattern.Token.Language

set_option autoImplicit false

/-!
# Automata: what a fragment spells

The fragment that a token assembles to spells the language of the token: the
walks from its entry to its exit spell exactly the byte strings that the token
matches.  This holds in the arena in which the token was assembled, so a loop
that leads out of an exit is part of it; what makes fragments compose is that no
edge of a block leads into its entry.

Each construct is calculated edge by edge.  For a repetition the invariant of
the copies is `Chained`: what is spelled on the way to the exit of the last copy,
what is spelled on the ways that leave early, and the same for the last copy
alone.
-/

namespace BytePattern

open Computability

/-! ## Fragments -/

/-- A block was appended, and the fragment is its entry and its exit: no edge of
the block leads into the entry, and walks from the entry to the exit spell the
language. -/
structure Fragment.Spells (f : Fragment) (before after : Arena) (l : Language UInt8) : Prop where
  appends : Arena.Appends before after
  entry_ge : before.size ≤ f.entry
  entry_lt : f.entry < after.size
  exit_ge : before.size ≤ f.exit
  exit_lt : f.exit < after.size
  entry_ne_exit : f.entry ≠ f.exit
  source : Arena.Source before after f.entry
  language : after.language f.entry f.exit = l

/-- Assembling yields a fragment of the language, whatever was assembled before. -/
def Makes (make : Arena → Fragment × Arena) (l : Language UInt8) : Prop :=
  ∀ arena : Arena, (make arena).1.Spells arena (make arena).2 l

namespace Arena

/-! ### Single bytes -/

theorem spells_pair (arena : Arena) : arena.pair.Spells arena arena.addPair 0 := by
  have hsize := size_addPair arena
  have happends : Appends arena arena.addPair := (Appends.refl arena).addPair
  have hne : arena.size ≠ arena.size + 1 := by omega
  refine ⟨happends, ?_, ?_, ?_, ?_, hne, ?_, ?_⟩
  · exact Nat.le_refl _
  · show arena.size < arena.addPair.size
    omega
  · show arena.size ≤ arena.size + 1
    omega
  · show arena.size + 1 < arena.addPair.size
    omega
  · exact source_addPair (Appends.refl arena) (Nat.le_refl _)
  · show arena.addPair.language arena.size (arena.size + 1) = 0
    rw [(sink_addPair (Nat.le_refl _)).language, if_neg hne]

/-- One more edge from the entry to an exit without edges. -/
theorem spells_link {before after : Arena} {f : Fragment} {l : Language UInt8}
    (h : f.Spells before after l) (hsink : Sink after f.exit) (symbol : Symbol) :
    f.Spells before (after.link f.entry symbol f.exit) (l + symbol.language) ∧
      Sink (after.link f.entry symbol f.exit) f.exit := by
  have hback : after.language f.exit f.entry = 0 := by
    rw [hsink.language, if_neg h.entry_ne_exit.symm]
  refine ⟨⟨h.appends.link h.entry_ge h.exit_ge h.exit_lt, h.entry_ge, ?_, h.exit_ge, ?_,
    h.entry_ne_exit, ?_, ?_⟩, ?_⟩
  · rw [size_link]
    exact h.entry_lt
  · rw [size_link]
    exact h.exit_lt
  · intro s label hs hedge
    rcases mem_targets_link.1 hedge with hold | ⟨_, _, _, heq⟩
    · exact h.source s label hs hold
    · exact h.entry_ne_exit heq
  · rw [language_link_of_no_return h.entry_lt symbol hback, h.language,
      h.source.language h.appends h.entry_ge h.entry_ge, if_pos rfl, one_mul,
      hsink.language, if_pos rfl, mul_one]
  · intro t label hedge
    rcases mem_targets_link.1 hedge with hold | ⟨heq, _, _, _⟩
    · exact hsink t label hold
    · exact h.entry_ne_exit heq.symm

theorem spells_links {before : Arena} {f : Fragment} (symbols : List Symbol) {after : Arena}
    {l : Language UInt8} (h : f.Spells before after l) (hsink : Sink after f.exit) :
    f.Spells before (symbols.foldl (fun a symbol => a.link f.entry symbol f.exit) after)
      (l + (symbols.map Symbol.language).sum) := by
  induction symbols generalizing after l with
  | nil => simpa using h
  | cons symbol symbols ih =>
    obtain ⟨hnext, hsink'⟩ := spells_link h hsink symbol
    rw [List.foldl_cons, List.map_cons, List.sum_cons, ← add_assoc]
    exact ih hnext hsink'

theorem makes_readAny (symbols : List Symbol) :
    Makes (fun arena => arena.readAny symbols) (symbols.map Symbol.language).sum := by
  intro arena
  have hsink : Sink arena.addPair arena.pair.exit :=
    sink_addPair (Nat.le_succ arena.size)
  have h := spells_links symbols (spells_pair arena) hsink
  rwa [zero_add] at h

/-! ### One after the other -/

/-- A fragment linked to one that was assembled after it. -/
theorem spells_join {base before after : Arena} {f g : Fragment} {l m : Language UInt8}
    (hf : f.Spells base before l) (hg : g.Spells before after m) :
    Fragment.Spells ⟨f.entry, g.exit⟩ base (after.join f.exit g.entry) (l * m) := by
  have happends : Appends base after := hf.appends.trans hg.appends
  have hge : base.size ≤ before.size := hf.appends.size_le
  have hle : before.size ≤ after.size := hg.appends.size_le
  have hback : after.language g.entry f.exit = 0 :=
    hg.appends.language_to_older hg.entry_ge hf.exit_lt
  have hout : after.language f.entry g.exit = 0 :=
    hf.appends.language_to_newer hg.appends hf.entry_ge hf.entry_lt hg.exit_ge
  have hfirst : after.language f.entry f.exit = l := by
    rw [hf.appends.language_eq hg.appends hf.entry_ge hf.entry_lt, hf.language]
  have hentry := hf.entry_lt
  have hexit := hf.exit_lt
  have hentry' := hg.entry_ge
  have hexit' := hg.exit_ge
  refine ⟨happends.link hf.exit_ge (Nat.le_trans hge hg.entry_ge) hg.entry_lt, hf.entry_ge, ?_,
    Nat.le_trans hge hg.exit_ge, ?_, ?_, ?_, ?_⟩
  · rw [size_join]
    exact Nat.lt_of_lt_of_le hf.entry_lt hle
  · rw [size_join]
    exact hg.exit_lt
  · show f.entry ≠ g.exit
    omega
  · apply (hf.source.appends hf.entry_lt hg.appends).join
    show f.entry ≠ g.entry
    omega
  · show (after.join f.exit g.entry).language f.entry g.exit = l * m
    rw [language_join (Nat.lt_of_lt_of_le hf.exit_lt hle) hback, hout, hfirst, hg.language,
      zero_add]

/-! ### Alternatives -/

section Fork

variable {base arena : Arena} {a b c s t : Nat}

/-- Two epsilon edges out of a source reach what is reached from either target. -/
theorem language_enter_both (h : Appends base arena) (hsource : Source base arena c)
    (hc : base.size ≤ c) (hc' : c < arena.size) (ha : base.size ≤ a) (ha' : a < arena.size)
    (hb : base.size ≤ b) (hac : a ≠ c) (hbc : b ≠ c) :
    ((arena.join c a).join c b).language c t =
      arena.language c t + arena.language a t + arena.language b t := by
  have hlink : Appends base (arena.join c a) := h.link hc ha ha'
  have hsource' : Source base (arena.join c a) c := hsource.join hac.symm
  rw [language_join_source hlink hsource' hc (by rwa [size_join]) hb hbc,
    language_join_source h hsource hc hc' ha hac,
    language_join_source_of_ne h hsource hc hc' ha hac hb hbc]

/-- Two epsilon edges into a sink lead there from where either source is reached. -/
theorem language_leave_both (hsink : Sink arena c) (ha : a < arena.size) (hb : b < arena.size)
    (hac : c ≠ a) (hbc : c ≠ b) :
    ((arena.join a c).join b c).language s c =
      arena.language s c + arena.language s a + arena.language s b := by
  rw [language_join_sink (hsink.join hac) (by rwa [size_join]) hbc,
    language_join_sink hsink ha hac, language_join_sink_of_ne hsink ha hac hbc]

end Fork

theorem openFork_spells {base before after : Arena} {f g : Fragment} {l m : Language UInt8}
    (hf : f.Spells base before l) (hg : g.Spells before after m) :
    (openFork after f g).size = after.size + 2 ∧ Appends base (openFork after f g) ∧
      Source base (openFork after f g) after.size ∧ Sink (openFork after f g) (after.size + 1) ∧
      (openFork after f g).language after.size f.exit = l ∧
      (openFork after f g).language after.size g.exit = m ∧
      (openFork after f g).language after.size (after.size + 1) = 0 := by
  have hge : base.size ≤ before.size := hf.appends.size_le
  have hle : before.size ≤ after.size := hg.appends.size_le
  obtain ⟨hfa, hfe, hfe', hfx, hfx', _, _, hfl⟩ := hf
  obtain ⟨hga, hge', hgelt, hgx, hgx', _, _, hgl⟩ := hg
  have hpair : Appends after after.addPair := (Appends.refl after).addPair
  have hrest : Appends before after.addPair := hga.trans hpair
  have hall : Appends base after.addPair := hfa.trans hrest
  have hsize : after.addPair.size = after.size + 2 := size_addPair after
  have hsource : Source base after.addPair after.size :=
    source_addPair (hfa.trans hga) (Nat.le_refl _)
  have hsink : Sink after.addPair (after.size + 1) := sink_addPair (Nat.le_succ _)
  -- the new entry reaches what is reached from the two blocks, and these keep to themselves
  have henter : ∀ t, after.size ≠ t → (openFork after f g).language after.size t =
      after.addPair.language f.entry t + after.addPair.language g.entry t := by
    intro t ht
    unfold openFork
    rw [language_enter_both hall hsource (by omega) (by omega) hfe (by omega) (by omega)
      (by omega) (by omega), (sink_addPair (Nat.le_refl _)).language, if_neg ht, zero_add]
  have hff : after.addPair.language f.entry f.exit = l := by
    rw [hfa.language_eq hrest hfe hfe', hfl]
  have hgg : after.addPair.language g.entry g.exit = m := by
    rw [hga.language_eq hpair hge' hgelt, hgl]
  have hfg : after.addPair.language f.entry g.exit = 0 :=
    hfa.language_to_newer hrest hfe hfe' hgx
  have hgf : after.addPair.language g.entry f.exit = 0 := hrest.language_to_older hge' hfx'
  have hfout : after.addPair.language f.entry (after.size + 1) = 0 :=
    hfa.language_to_newer hrest hfe hfe' (by omega)
  have hgout : after.addPair.language g.entry (after.size + 1) = 0 :=
    hga.language_to_newer hpair hge' hgelt (by omega)
  refine ⟨by simp [openFork], ?_, ?_, ?_, ?_, ?_, ?_⟩
  · exact (hall.link (by omega) hfe (by omega)).link (by omega) (by omega) (by simp; omega)
  · exact (hsource.join (by omega)).join (by omega)
  · exact (hsink.join (by omega)).join (by omega)
  · rw [henter _ (by omega), hff, hgf, add_zero]
  · rw [henter _ (by omega), hfg, hgg, zero_add]
  · rw [henter _ (by omega), hfout, hgout, add_zero]

theorem spells_fork {base before after : Arena} {f g : Fragment} {l m : Language UInt8}
    (hf : f.Spells base before l) (hg : g.Spells before after m) :
    (after.fork f g).1.Spells base (after.fork f g).2 (l + m) := by
  have hge : base.size ≤ before.size := hf.appends.size_le
  have hle : before.size ≤ after.size := hg.appends.size_le
  have hfx := hf.exit_ge
  have hfx' := hf.exit_lt
  have hgx := hg.exit_ge
  have hgx' := hg.exit_lt
  obtain ⟨hsize, happends, hsource, hsink, hleft, hright, hnone⟩ := openFork_spells hf hg
  rw [fork_eq]
  dsimp only
  generalize openFork after f g = arena at *
  refine ⟨(happends.link hfx (by omega) (by omega)).link (by omega) (by omega) (by simp; omega),
    by dsimp only; omega, by simp; omega, by dsimp only; omega, by simp; omega,
    by dsimp only; omega, ?_, ?_⟩
  · exact (hsource.join (by omega)).join (by omega)
  · rw [language_leave_both hsink (by omega) (by omega) (by omega) (by omega), hnone, hleft,
      hright, zero_add]

/-! ### Copies -/

/-- Some copies hang between the pair of states after `base`, the last one not
yet linked to the second of them: what is spelled on the way to the exit of the
last copy, on the ways that leave before it, and from the entry of the last copy
on. -/
structure Chained (base : Arena) (last : Fragment) (arena : Arena) (l : Language UInt8)
    (min count : Nat) : Prop where
  appends : Appends base arena
  entry_ge : base.size + 2 ≤ last.entry
  entry_lt : last.entry < arena.size
  exit_ge : base.size + 2 ≤ last.exit
  exit_lt : last.exit < arena.size
  source : Source base arena base.size
  sink : Sink arena (base.size + 1)
  reached : arena.language base.size last.exit = l ^ count
  skipped : arena.language base.size (base.size + 1) = repeats l min count
  copied : arena.language last.entry last.exit = l
  escaped : arena.language last.entry (base.size + 1) = if min < count ∧ 1 < count then 1 else 0

/-- One more copy has been linked to the last one, and it cannot be left yet
before its exit. -/
structure Linked (base : Arena) (copy : Fragment) (arena : Arena) (l : Language UInt8)
    (min count : Nat) : Prop where
  appends : Appends base arena
  entry_ge : base.size + 2 ≤ copy.entry
  entry_lt : copy.entry < arena.size
  exit_ge : base.size + 2 ≤ copy.exit
  exit_lt : copy.exit < arena.size
  source : Source base arena base.size
  sink : Sink arena (base.size + 1)
  reached : arena.language base.size copy.exit = l ^ (count + 1)
  entered : arena.language base.size copy.entry = l ^ count
  skipped : arena.language base.size (base.size + 1) = repeats l min count
  copied : arena.language copy.entry copy.exit = l
  stayed : arena.language copy.entry copy.entry = 1
  escaped : arena.language copy.entry (base.size + 1) = 0

/-- One more copy, linked to the last one. -/
theorem Chained.link {base arena after : Arena} {last copy : Fragment} {l : Language UInt8}
    {min count : Nat} (h : Chained base last arena l min count)
    (hcopy : copy.Spells arena after l) :
    Linked base copy (after.join last.exit copy.entry) l min count := by
  obtain ⟨happends, hle, hle', hlx, hlx', hsource, hsink, hreached, hskipped, _, _⟩ := h
  obtain ⟨hc, hce, hce', hcx, hcx', hne, hcsource, hcl⟩ := hcopy
  have hgrow : arena.size ≤ after.size := hc.size_le
  have hall : Appends base after := happends.trans hc
  have hsize : (after.join last.exit copy.entry).size = after.size := size_join ..
  -- the edge is on no way back, so each language changes by at most one product
  have hback : after.language copy.entry last.exit = 0 := hc.language_to_older hce hlx'
  have hlink : ∀ s t, (after.join last.exit copy.entry).language s t =
      after.language s t + after.language s last.exit * after.language copy.entry t :=
    language_join (by omega) hback
  have hout : after.language copy.entry (base.size + 1) = 0 :=
    hc.language_to_older hce (by omega)
  have hself : after.language copy.entry copy.entry = 1 := by
    rw [hcsource.language hc hce hce, if_pos rfl]
  have hold : ∀ t, after.language base.size t = arena.language base.size t :=
    happends.language_eq hc (Nat.le_refl _) (by omega)
  have hnew : ∀ t, arena.size ≤ t → after.language base.size t = 0 :=
    fun t ht => happends.language_to_newer hc (Nat.le_refl _) (by omega) ht
  refine ⟨hall.link (by omega) (by omega) hce', by omega, by omega, by omega, by omega,
    (hsource.appends (by omega) hc).join (by omega),
    (hsink.appends (by omega) hc).join (by omega), ?_, ?_, ?_, ?_, ?_, ?_⟩
  · rw [hlink, hnew _ hcx, hold, hreached, hcl, zero_add, pow_succ]
  · rw [hlink, hnew _ hce, hold, hreached, hself, zero_add, mul_one]
  · rw [hlink, hold, hskipped, hout, mul_zero, add_zero]
  · rw [hlink, hback, hcl, zero_mul, add_zero]
  · rw [hlink, hback, hself, zero_mul, add_zero]
  · rw [hlink, hback, hout, zero_mul, add_zero]

/-- A copy that may not be left at once. -/
theorem Linked.chained {base arena : Arena} {copy : Fragment} {l : Language UInt8}
    {min count : Nat} (h : Linked base copy arena l min count) (hmin : ¬ min < count + 1) :
    Chained base copy arena l min (count + 1) := by
  refine ⟨h.appends, h.entry_ge, h.entry_lt, h.exit_ge, h.exit_lt, h.source, h.sink, h.reached, ?_,
    h.copied, ?_⟩
  · rw [h.skipped, repeats_of_le (by omega), repeats_of_le (by omega)]
  · rw [h.escaped, if_neg (fun hc => hmin hc.1)]

/-- A copy that may be left at once. -/
theorem Linked.chained_leave {base arena : Arena} {copy : Fragment} {l : Language UInt8}
    {min count : Nat} (h : Linked base copy arena l min count) (hmin : min < count + 1)
    (hcount : 0 < count) :
    Chained base copy (arena.join copy.entry (base.size + 1)) l min (count + 1) := by
  obtain ⟨happends, hce, hce', hcx, hcx', hsource, hsink, hreached, hentered, hskipped,
    hcopied, hstayed, hescaped⟩ := h
  have hto : ∀ s, (arena.join copy.entry (base.size + 1)).language s (base.size + 1) =
      arena.language s (base.size + 1) + arena.language s copy.entry :=
    fun s => language_join_sink hsink (by omega) (by omega)
  have hkeep : ∀ s, (arena.join copy.entry (base.size + 1)).language s copy.exit =
      arena.language s copy.exit :=
    fun s => language_join_sink_of_ne hsink (by omega) (by omega) (by omega)
  refine ⟨happends.link (by omega) (by omega) (by omega), by omega, by simp; omega, by omega,
    by simp; omega, hsource.join (by omega), hsink.join (by omega), ?_, ?_, ?_, ?_⟩
  · rw [hkeep, hreached]
  · rw [hto, hskipped, hentered, repeats_succ (by omega)]
  · rw [hkeep, hcopied]
  · rw [hto, hescaped, hstayed, zero_add, if_pos ⟨hmin, by omega⟩]

/-- One more copy, linked to the last one, and left at once where that is
admitted. -/
theorem Chained.step {base arena after : Arena} {last copy : Fragment} {l : Language UInt8}
    {min count : Nat} (h : Chained base last arena l min count)
    (hcopy : copy.Spells arena after l) (hcount : 0 < count) :
    Chained base copy
      (if min < count + 1 then
        (after.join last.exit copy.entry).join copy.entry (base.size + 1)
      else after.join last.exit copy.entry) l min (count + 1) := by
  split
  · rename_i hmin
    exact (h.link hcopy).chained_leave hmin hcount
  · rename_i hmin
    exact (h.link hcopy).chained hmin

/-- Any number of further copies. -/
theorem Chained.chain {make : Arena → Fragment × Arena} {base : Arena} {l : Language UInt8}
    {min : Nat} (hmake : Makes make l) (more : Nat) :
    ∀ {arena : Arena} {last : Fragment} {count : Nat}, 0 < count →
      Chained base last arena l min count →
      Chained base (Arena.chain make min (base.size + 1) more (count + 1) last arena).1
        (Arena.chain make min (base.size + 1) more (count + 1) last arena).2 l min
        (count + more) := by
  induction more with
  | zero =>
    intro arena last count _ h
    exact h
  | succ more ih =>
    intro arena last count hcount h
    have hcounts : count + (more + 1) = count + 1 + more := by omega
    rw [chain_succ, hcounts]
    exact ih (Nat.succ_pos count) (h.step (hmake arena) hcount)

theorem openPair_spells (l : Language UInt8) (min : Nat) (base : Arena) :
    (openPair min base).size = base.size + 2 ∧ Appends base (openPair min base) ∧
      Source base (openPair min base) base.size ∧ Sink (openPair min base) (base.size + 1) ∧
      (openPair min base).language base.size (base.size + 1) = repeats l min 1 := by
  have hsize : base.addPair.size = base.size + 2 := size_addPair base
  have happends : Appends base base.addPair := (Appends.refl base).addPair
  have hsource : Source base base.addPair base.size :=
    source_addPair (Appends.refl base) (Nat.le_refl _)
  have hsink : Sink base.addPair (base.size + 1) := sink_addPair (Nat.le_succ _)
  have hstuck : ∀ t, base.addPair.language base.size t = if base.size = t then 1 else 0 :=
    (sink_addPair (Nat.le_refl _)).language
  unfold openPair
  by_cases hmin : min = 0
  · subst hmin
    rw [if_pos rfl]
    refine ⟨by simp, happends.link (by omega) (by omega) (by omega), hsource.join (by omega),
      hsink.join (by omega), ?_⟩
    rw [language_join_sink hsink (by omega) (by omega), hstuck, hstuck, if_neg (by omega),
      if_pos rfl, repeats_succ (Nat.le_refl 0), repeats_of_le (Nat.le_refl 0), pow_zero]
  · rw [if_neg hmin]
    refine ⟨hsize, happends, hsource, hsink, ?_⟩
    rw [hstuck, if_neg (by omega), repeats_of_le (by omega)]

/-- The first copy. -/
theorem Chained.first {base after : Arena} {first : Fragment} {l : Language UInt8} {min : Nat}
    (hfirst : first.Spells (openPair min base) after l) :
    Chained base first (after.join base.size first.entry) l min 1 := by
  obtain ⟨hsize, hopen, hsource, hsink, hskip⟩ := openPair_spells l min base
  generalize openPair min base = start at *
  obtain ⟨hc, hce, hce', hcx, hcx', _, _, hcl⟩ := hfirst
  have hgrow : start.size ≤ after.size := hc.size_le
  have hall : Appends base after := hopen.trans hc
  have hsource' : Source base after base.size := hsource.appends (by omega) hc
  have hold : after.language base.size (base.size + 1) = repeats l min 1 := by
    rw [hopen.language_eq hc (Nat.le_refl _) (by omega), hskip]
  have hnew : after.language base.size first.exit = 0 :=
    hopen.language_to_newer hc (Nat.le_refl _) (by omega) hcx
  have hback : after.language first.entry (base.size + 1) = 0 :=
    hc.language_to_older hce (by omega)
  have henter : ∀ t, (after.join base.size first.entry).language base.size t =
      after.language base.size t + after.language first.entry t :=
    fun t => language_join_source hall hsource' (Nat.le_refl _) (by omega) (by omega) (by omega)
  have hkeep : ∀ t, (after.join base.size first.entry).language first.entry t =
      after.language first.entry t :=
    fun t => language_join_source_of_ne hall hsource' (Nat.le_refl _) (by omega) (by omega)
      (by omega) (by omega) (by omega)
  refine ⟨hall.link (Nat.le_refl _) (by omega) hce', by omega, by simp; omega, by omega,
    by simp; omega, hsource'.join (by omega), (hsink.appends (by omega) hc).join (by omega),
    ?_, ?_, ?_, ?_⟩
  · rw [henter, hnew, hcl, zero_add, pow_one]
  · rw [henter, hold, hback, add_zero]
  · rw [hkeep, hcl]
  · rw [hkeep, hback, if_neg (by omega)]

/-- The last copy linked to the exit of the whole. -/
theorem Chained.spells {base arena : Arena} {last : Fragment} {l : Language UInt8}
    {min count : Nat} (h : Chained base last arena l min count) (hmin : min ≤ count) :
    base.pair.Spells base (arena.join last.exit base.pair.exit) (repeats l min (count + 1)) := by
  have hentry := h.entry_ge
  have hexit := h.exit_ge
  have hlt := h.exit_lt
  refine ⟨h.appends.link (by omega) (Nat.le_succ _) (show base.size + 1 < arena.size by omega),
    Nat.le_refl _, ?_, Nat.le_succ _, ?_, Nat.ne_of_lt (Nat.lt_succ_self _), ?_, ?_⟩
  · show base.size < (arena.join last.exit (base.size + 1)).size
    rw [size_join]
    omega
  · show base.size + 1 < (arena.join last.exit (base.size + 1)).size
    rw [size_join]
    omega
  · exact h.source.join (Nat.ne_of_lt (Nat.lt_succ_self _))
  · show (arena.join last.exit (base.size + 1)).language base.size (base.size + 1) = _
    rw [language_join_sink h.sink hlt (by omega), h.skipped, h.reached, repeats_succ hmin]

/-- The last copy linked to the exit of the whole, and the exit back to the last
copy. -/
theorem Chained.spells_loop {base arena : Arena} {last : Fragment} {l : Language UInt8}
    {min count : Nat} (h : Chained base last arena l min count) (hmin : min ≤ count)
    (hlast : count ≤ min ∨ count ≤ 1) :
    base.pair.Spells base ((arena.join last.exit base.pair.exit).join base.pair.exit last.entry)
      (repeats l min (count + 1) * l∗) := by
  have hentry := h.entry_ge
  have hentry' := h.entry_lt
  have hexit := h.exit_lt
  have hclosed := h.spells hmin
  have haround : (arena.join last.exit base.pair.exit).language last.entry base.pair.exit = l := by
    show (arena.join last.exit (base.size + 1)).language last.entry (base.size + 1) = l
    rw [language_join_sink h.sink hexit (by have := h.exit_ge; omega), h.copied, h.escaped,
      if_neg (by omega), zero_add]
  refine ⟨hclosed.appends.link hclosed.exit_ge (by omega) (by rwa [size_join]), hclosed.entry_ge,
    ?_, hclosed.exit_ge, ?_, hclosed.entry_ne_exit, ?_, ?_⟩
  · rw [size_join]
    exact hclosed.entry_lt
  · rw [size_join]
    exact hclosed.exit_lt
  · exact hclosed.source.join (show base.size ≠ last.entry by omega)
  · rw [language_join_loop hclosed.exit_lt, hclosed.language, haround, ← mul_one_add,
      one_add_kstar_mul]

/-- So many copies. -/
theorem Chained.copies {make : Arena → Fragment × Arena} {l : Language UInt8}
    (hmake : Makes make l) (min count : Nat) (base : Arena) :
    Chained base (copies make min count base).1 (copies make min count base).2 l min
      (1 + (count - 1)) :=
  (Chained.first (hmake (openPair min base))).chain hmake (count - 1) Nat.one_pos

theorem makes_unroll {make : Arena → Fragment × Arena} {l : Language UInt8}
    (hmake : Makes make l) {min : Nat} {max : UpperBound} (horder : max.AtLeast min) :
    Makes (unroll make min max) {w | ∃ count, max.Admits min count ∧ w ∈ l ^ count} := by
  intro base
  cases max with
  | bounded bound =>
    have hmin : min ≤ 1 + (bound - 1) := by
      have hle : min ≤ bound := horder
      omega
    rw [unroll_bounded, ← repeats_bounded]
    exact (Chained.copies hmake min bound base).spells hmin
  | unbounded =>
    have hcopies : 1 + (Nat.max min 1 - 1) = Nat.max min 1 := by
      have hpos : 1 ≤ Nat.max min 1 := Nat.le_max_right min 1
      omega
    have hmin : min ≤ Nat.max min 1 := Nat.le_max_left min 1
    have hlast : Nat.max min 1 ≤ min ∨ Nat.max min 1 ≤ 1 := by
      show max min 1 ≤ min ∨ max min 1 ≤ 1
      omega
    have hchained := Chained.copies hmake min (Nat.max min 1) base
    rw [hcopies] at hchained
    rw [unroll_unbounded, ← repeats_unbounded l min _ hmin]
    exact hchained.spells_loop hmin hlast

end Arena

/-! ## Tokens -/

theorem sum_language_bytes (bytes : List UInt8) :
    ((bytes.map Symbol.byte).map Symbol.language).sum = {w | ∃ b ∈ bytes, w = [b]} := by
  apply Language.ext
  intro w
  induction bytes with
  | nil =>
    refine iff_of_false (Language.notMem_zero w) ?_
    rintro ⟨b, hb, _⟩
    exact absurd hb List.not_mem_nil
  | cons b bytes ih =>
    rw [List.map_cons, List.map_cons, List.sum_cons, Language.mem_add, ih]
    constructor
    · rintro (hw | ⟨c, hc, hw⟩)
      · exact ⟨b, List.mem_cons_self, hw⟩
      · exact ⟨c, List.mem_cons_of_mem _ hc, hw⟩
    · rintro ⟨c, hc, hw⟩
      rcases List.mem_cons.1 hc with rfl | hc
      · exact Or.inl hw
      · exact Or.inr ⟨c, hc, hw⟩

mutual

/-- The fragment of a token spells what the token matches. -/
theorem Token.makes_assemble : ∀ token : Token, token.Ordered →
    Makes token.assemble token.language
  | .literal byte, _ => by
    have h := Arena.makes_readAny [.byte byte]
    have hsum : ([Symbol.byte byte].map Symbol.language).sum = {[byte]} := by
      rw [List.map_singleton, List.sum_singleton, Symbol.language]
    rw [hsum] at h
    intro arena
    rw [Token.assemble, Token.language]
    exact h arena
  | .bracket set, _ => by
    have h := Arena.makes_readAny (set.members.map .byte)
    rw [sum_language_bytes] at h
    intro arena
    rw [Token.assemble, Token.language]
    exact h arena
  | .either left right, h => by
    rw [Token.Ordered] at h
    intro arena
    rw [Token.assemble, Token.language]
    exact Arena.spells_fork (Token.makes_assemble left h.1 arena)
      (Token.makes_assemble right h.2 _)
  | .repeated min max body, h => by
    rw [Token.Ordered] at h
    intro arena
    rw [Token.assemble, Token.language]
    exact Arena.makes_unroll (Token.makes_assemble body h.2) h.1 arena
  | .group tokens, h => by
    rw [Token.Ordered] at h
    intro arena
    rw [Token.assemble, Token.language]
    exact Token.makes_assembleAll tokens h arena
  | .sequence tokens, h => by
    rw [Token.Ordered] at h
    intro arena
    rw [Token.assemble, Token.language]
    exact Token.makes_assembleAll tokens h arena

/-- The fragment of tokens spells what they match one after the other. -/
theorem Token.makes_assembleAll : ∀ tokens : List Token, Token.AllOrdered tokens →
    Makes (Token.assembleAll tokens) (Token.languages tokens)
  | [], _ => by
    have h := Arena.makes_readAny [.epsilon]
    have hsum : ([Symbol.epsilon].map Symbol.language).sum = 1 := by
      rw [List.map_singleton, List.sum_singleton, Symbol.language]
    rw [hsum] at h
    intro arena
    rw [Token.assembleAll, Token.languages]
    exact h arena
  | token :: tokens, h => by
    rw [Token.AllOrdered] at h
    intro arena
    rw [Token.assembleAll, Token.languages]
    exact Token.spells_assembleAfter tokens h.2 (Token.makes_assemble token h.1 arena)

/-- Tokens assembled after a fragment extend what it spells. -/
theorem Token.spells_assembleAfter : ∀ tokens : List Token, Token.AllOrdered tokens →
    ∀ {base arena : Arena} {f : Fragment} {l : Language UInt8}, f.Spells base arena l →
      (Token.assembleAfter tokens f arena).1.Spells base (Token.assembleAfter tokens f arena).2
        (l * Token.languages tokens)
  | [], _, base, arena, f, l => by
    intro hf
    rw [Token.assembleAfter, Token.languages, mul_one]
    exact hf
  | token :: tokens, h, base, arena, f, l => by
    intro hf
    rw [Token.AllOrdered] at h
    rw [Token.assembleAfter, Token.languages, ← mul_assoc]
    exact Token.spells_assembleAfter tokens h.2
      (Arena.spells_join hf (Token.makes_assemble token h.1 arena))

end

/-- A token adds a block with an entry and an exit of its own, whatever was assembled
before.  No edge of the block leads into the entry, none leads out of the block, and the
walks from the entry to the exit that stay in the block spell what the token matches. -/
theorem Token.fragment_language (token : Token) (hordered : token.Ordered) (arena : Arena) :
    ∃ (f : Fragment) (after : Arena), token.assemble arena = (f, after) ∧ f.entry ≠ f.exit ∧
      (arena.size ≤ f.entry ∧ f.entry < after.size) ∧
      (arena.size ≤ f.exit ∧ f.exit < after.size) ∧
      (∀ (s t : Nat) (symbol : Symbol), arena.size ≤ s → t ∈ after.targets s symbol →
        t ≠ f.entry ∧ arena.size ≤ t ∧ t < after.size) ∧
      ∀ w : List UInt8, after.WalkInside (fun id => arena.size ≤ id ∧ id < after.size)
        f.entry w f.exit ↔ w ∈ token.language := by
  have h := Token.makes_assemble token hordered arena
  refine ⟨_, _, rfl, h.entry_ne_exit, ⟨h.entry_ge, h.entry_lt⟩, ⟨h.exit_ge, h.exit_lt⟩,
    fun s t symbol hs hedge => ⟨?source, h.appends.inside hs hedge⟩, fun w => ?language⟩
  case source =>
    rintro rfl
    exact h.source s symbol hs hedge
  case language =>
    rw [Arena.walkInside_iff (fun hs hedge => h.appends.inside hs.1 hedge)
      ⟨h.entry_ge, h.entry_lt⟩, ← Arena.mem_language, h.language]

/-- Behind a state with an edge into its block, `a{0,0}` still spells no copy and one copy. -/
theorem Token.fragment_language_optional :
    (Token.repeated 0 (.bounded 0) (.literal 0x61)).Ordered ∧
      ∃ (f : Fragment) (after : Arena),
        (Token.repeated 0 (.bounded 0) (.literal 0x61)).assemble #[State.blank.link .epsilon 4] =
          (f, after) ∧
        after.WalkInside (fun id => 1 ≤ id ∧ id < after.size) f.entry [] f.exit ∧
        after.WalkInside (fun id => 1 ≤ id ∧ id < after.size) f.entry [0x61] f.exit ∧
        ¬ after.WalkInside (fun id => 1 ≤ id ∧ id < after.size) f.entry [0x61, 0x61] f.exit := by
  have hordered : (Token.repeated 0 (.bounded 0) (.literal 0x61)).Ordered := by
    rw [Token.Ordered, Token.Ordered]
    exact ⟨Nat.le_refl 0, trivial⟩
  obtain ⟨f, after, hassemble, _, _, _, _, hlanguage⟩ :=
    Token.fragment_language _ hordered #[State.blank.link .epsilon 4]
  have hbody : (Token.literal 0x61).language = {[0x61]} := by rw [Token.language]
  rw [Token.language, hbody] at hlanguage
  refine ⟨hordered, f, after, hassemble, (hlanguage _).2 ⟨0, ?_, ?_⟩, (hlanguage _).2 ⟨1, ?_, ?_⟩,
    fun hwalk => ?_⟩
  · exact ⟨Nat.le_refl 0, Nat.zero_le _⟩
  · rw [pow_zero]
    exact Language.nil_mem_one
  · exact ⟨Nat.zero_le 1, Nat.le_refl 1⟩
  · rw [pow_one]
    exact Set.mem_singleton _
  · obtain ⟨count, ⟨_, hle⟩, hw⟩ := (hlanguage _).1 hwalk
    have hcount : count = 0 ∨ count = 1 := Nat.le_one_iff_eq_zero_or_eq_one.1 hle
    rcases hcount with rfl | rfl
    · rw [pow_zero] at hw
      exact absurd hw (by simp [Language.mem_one])
    · rw [pow_one] at hw
      exact absurd (Set.mem_singleton_iff.1 hw) (by simp)

end BytePattern
