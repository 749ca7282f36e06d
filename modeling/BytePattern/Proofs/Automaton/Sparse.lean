import BytePattern.Proofs.Automaton.Block
import Mathlib.Data.List.Nodup

set_option autoImplicit false

/-!
# Automata: few edges

An assembled arena lists no destination twice under a symbol, and no state of it
has more than three epsilon edges.  Edges are added to a state after it has been
made, so the invariant says how many more the state can take: the entry of a
fragment is left with two epsilon edges at most, since a repetition may add one
that skips the copy, and the exit is left with one at most, since whatever
follows adds one.
-/

namespace BytePattern

namespace Arena

/-! ## Degrees -/

/-- How many epsilon edges a state has. -/
def degree (arena : Arena) (id : Nat) : Nat := (arena.targets id .epsilon).length

section

variable {arena : Arena} {a b s : Nat}

theorem degree_join_of_ne (hs : s ≠ a) : (arena.join a b).degree s = arena.degree s := by
  unfold degree
  rw [targets_join_of_ne hs]

theorem degree_join_le : (arena.join a b).degree a ≤ arena.degree a + 1 := by
  unfold degree join
  rw [targets_link, List.length_append]
  split
  · exact Nat.le_refl _
  · exact Nat.le_succ _

theorem degree_addPair_of_le (hs : arena.size ≤ s) : arena.addPair.degree s = 0 := by
  unfold degree
  rw [targets_addPair, targets_of_le hs]
  rfl

theorem Appends.degree_eq {before after : Arena} (h : Appends before after)
    (hs : s < before.size) : after.degree s = before.degree s := by
  unfold degree
  rw [h.targets_eq hs]

theorem not_mem_of_degree (hs : arena.degree s = 0) (t : Nat) : t ∉ arena.targets s .epsilon := by
  rw [List.length_eq_zero_iff.1 hs]
  exact List.not_mem_nil

end

/-! ## Sparse arenas -/

/-- No state lists a destination twice under a symbol, and none has more than
three epsilon edges. -/
structure Sparse (arena : Arena) : Prop where
  nodup : ∀ (id : Nat) (symbol : Symbol), (arena.targets id symbol).Nodup
  degree_le : ∀ id : Nat, arena.degree id ≤ 3

theorem sparse_empty : Sparse #[] := by
  refine ⟨fun id symbol => ?_, fun id => ?_⟩
  · exact List.nodup_nil
  · exact Nat.zero_le 3

section

variable {arena : Arena} {a b : Nat}

/-- Only the edges matter. -/
theorem Sparse.of_targets_eq {later : Arena} (h : Sparse arena)
    (heq : ∀ (id : Nat) (symbol : Symbol), later.targets id symbol = arena.targets id symbol) :
    Sparse later := by
  refine ⟨fun id symbol => ?_, fun id => ?_⟩
  · rw [heq]
    exact h.nodup id symbol
  · unfold degree
    rw [heq]
    exact h.degree_le id

theorem Sparse.addPair (h : Sparse arena) : Sparse arena.addPair :=
  h.of_targets_eq (targets_addPair arena)

/-- A destination that is new under its symbol. -/
theorem Sparse.nodup_link (h : Sparse arena) {symbol : Symbol}
    (hnew : b ∉ arena.targets a symbol) (id : Nat) (label : Symbol) :
    ((arena.link a symbol b).targets id label).Nodup := by
  rw [targets_link]
  split
  · rename_i heq
    obtain ⟨rfl, _, rfl⟩ := heq
    rw [← List.concat_eq_append]
    exact (h.nodup id label).concat hnew
  · rw [List.append_nil]
    exact h.nodup id label

/-- A new epsilon edge for a state that has at most two. -/
theorem Sparse.join (h : Sparse arena) (hnew : b ∉ arena.targets a .epsilon)
    (hdegree : arena.degree a ≤ 2) : Sparse (arena.join a b) := by
  refine ⟨h.nodup_link hnew, fun id => ?_⟩
  by_cases hid : id = a
  · subst hid
    exact Nat.le_trans degree_join_le (Nat.succ_le_succ hdegree)
  · rw [degree_join_of_ne hid]
    exact h.degree_le id

end

end Arena

/-! ## Sparse fragments -/

/-- The arena has stayed sparse, with edges to spare at the entry and the exit of
the fragment. -/
structure Fragment.Sparse (f : Fragment) (before after : Arena) : Prop
    extends f.Within before after where
  sparse : after.Sparse
  entry_degree : after.degree f.entry ≤ 2
  exit_degree : after.degree f.exit ≤ 1

/-- Assembling on a sparse arena yields a sparse fragment. -/
def MakesSparse (make : Arena → Fragment × Arena) : Prop :=
  ∀ arena : Arena, arena.Sparse → (make arena).1.Sparse arena (make arena).2

namespace Arena

/-! ### One more edge -/

section

variable {base arena later : Arena} {f : Fragment} {a b : Nat}

/-- A fragment that takes one more edge at its entry. -/
theorem sparse_join_entry (h : f.Sparse base arena) (hb : base.size ≤ b) (hb' : b < arena.size)
    (hnew : b ∉ arena.targets f.entry .epsilon) (hdegree : arena.degree f.entry ≤ 1) :
    f.Sparse base (arena.join f.entry b) := by
  refine ⟨within_link h.toWithin h.entry_ge hb hb' _,
    h.sparse.join hnew (Nat.le_succ_of_le hdegree), ?_, ?_⟩
  · exact Nat.le_trans degree_join_le (Nat.succ_le_succ hdegree)
  · rw [degree_join_of_ne h.entry_ne_exit.symm]
    exact h.exit_degree

/-- A fragment that takes its only edge at its exit. -/
theorem sparse_join_exit (h : f.Sparse base arena) (hb : base.size ≤ b) (hb' : b < arena.size)
    (hdegree : arena.degree f.exit = 0) : f.Sparse base (arena.join f.exit b) := by
  refine ⟨within_link h.toWithin h.exit_ge hb hb' _,
    h.sparse.join (not_mem_of_degree hdegree b) (by omega), ?_, ?_⟩
  · rw [degree_join_of_ne h.entry_ne_exit]
    exact h.entry_degree
  · have hstep := @degree_join_le arena f.exit b
    omega

/-- An edge at another state of the block. -/
theorem sparse_join_inner (h : f.Sparse base arena) (ha : base.size ≤ a) (hb : base.size ≤ b)
    (hb' : b < arena.size) (hentry : f.entry ≠ a) (hexit : f.exit ≠ a)
    (hnew : b ∉ arena.targets a .epsilon) (hdegree : arena.degree a ≤ 2) :
    f.Sparse base (arena.join a b) := by
  refine ⟨within_link h.toWithin ha hb hb' _, h.sparse.join hnew hdegree, ?_, ?_⟩
  · rw [degree_join_of_ne hentry]
    exact h.entry_degree
  · rw [degree_join_of_ne hexit]
    exact h.exit_degree

/-- A sparse block after the block. -/
theorem sparse_appends (h : f.Sparse base arena) (happends : Appends arena later)
    (hlater : later.Sparse) : f.Sparse base later := by
  refine ⟨within_appends h.toWithin happends, hlater, ?_, ?_⟩
  · rw [happends.degree_eq h.entry_lt]
    exact h.entry_degree
  · rw [happends.degree_eq h.exit_lt]
    exact h.exit_degree

/-- Two more states, without edges. -/
theorem sparse_pair (h : Appends base arena) (hsparse : arena.Sparse) :
    arena.pair.Sparse base arena.addPair := by
  have hentry : arena.addPair.degree arena.pair.entry = 0 := degree_addPair_of_le (Nat.le_refl _)
  have hexit : arena.addPair.degree arena.pair.exit = 0 := degree_addPair_of_le (Nat.le_succ _)
  exact ⟨within_addPair h, hsparse.addPair, by omega, by omega⟩

end

/-! ### Single bytes -/

theorem degree_link_byte (arena : Arena) (a b s : Nat) (c : UInt8) :
    (arena.link a (.byte c) b).degree s = arena.degree s := by
  unfold degree
  rw [targets_link, if_neg (fun h => nomatch h.2.2), List.append_nil]

/-- One more byte from the entry to the exit. -/
theorem sparse_link_byte {before after : Arena} {f : Fragment} {c : UInt8}
    (h : f.Sparse before after) (hnew : after.targets f.entry (.byte c) = []) :
    f.Sparse before (after.link f.entry (.byte c) f.exit) := by
  have hnew' : f.exit ∉ after.targets f.entry (.byte c) := by simp [hnew]
  refine ⟨within_link h.toWithin h.entry_ge h.exit_ge h.exit_lt _,
    ⟨h.sparse.nodup_link hnew', fun id => ?_⟩, ?_, ?_⟩
  · rw [degree_link_byte]
    exact h.sparse.degree_le id
  · rw [degree_link_byte]
    exact h.entry_degree
  · rw [degree_link_byte]
    exact h.exit_degree

theorem sparse_link_bytes {before : Arena} {f : Fragment} {bytes : List UInt8}
    (hbytes : bytes.Nodup) :
    ∀ {after : Arena}, f.Sparse before after →
      (∀ c ∈ bytes, after.targets f.entry (.byte c) = []) →
      f.Sparse before ((bytes.map Symbol.byte).foldl
        (fun a symbol => a.link f.entry symbol f.exit) after) := by
  induction bytes with
  | nil =>
    intro after h _
    exact h
  | cons c bytes ih =>
    intro after h hnew
    obtain ⟨hc, hbytes⟩ := List.nodup_cons.1 hbytes
    obtain ⟨hfirst, hrest⟩ := List.forall_mem_cons.1 hnew
    refine ih hbytes (sparse_link_byte h hfirst) fun d hd => ?_
    have hne : d ≠ c := fun heq => hc (heq ▸ hd)
    rw [targets_link, if_neg (fun h => hne (Symbol.byte.inj h.2.2)), List.append_nil]
    exact hrest d hd

/-- A fragment that reads any one of some distinct bytes. -/
theorem makesSparse_readAny {bytes : List UInt8} (hbytes : bytes.Nodup) :
    MakesSparse fun arena => arena.readAny (bytes.map .byte) := by
  intro arena h
  refine sparse_link_bytes hbytes (sparse_pair (Appends.refl arena) h) fun c _ => ?_
  rw [targets_addPair]
  exact targets_of_le (Nat.le_refl arena.size) _

theorem makesSparse_readNothing : MakesSparse readNothing := by
  intro arena h
  have hpair := sparse_pair (Appends.refl arena) h
  have hdegree : arena.addPair.degree arena.pair.entry = 0 := degree_addPair_of_le (Nat.le_refl _)
  exact sparse_join_entry hpair hpair.exit_ge hpair.exit_lt (not_mem_of_degree hdegree _)
    (hdegree.trans_le (Nat.zero_le 1))

/-! ### One after the other -/

theorem sparse_join {base before after : Arena} {f g : Fragment} (hf : f.Sparse base before)
    (hg : g.Sparse before after) :
    Fragment.Sparse ⟨f.entry, g.exit⟩ base (after.join f.exit g.entry) := by
  have hdegree : after.degree f.exit ≤ 1 := by
    rw [hg.appends.degree_eq hf.exit_lt]
    exact hf.exit_degree
  have hnew : g.entry ∉ after.targets f.exit .epsilon :=
    hf.appends.not_mem_targets hg.appends hf.exit_ge hf.exit_lt hg.entry_ge
  refine ⟨within_join hf.toWithin hg.toWithin, hg.sparse.join hnew (Nat.le_succ_of_le hdegree),
    ?_, ?_⟩
  · show (after.join f.exit g.entry).degree f.entry ≤ 2
    rw [degree_join_of_ne hf.entry_ne_exit, hg.appends.degree_eq hf.entry_lt]
    exact hf.entry_degree
  · show (after.join f.exit g.entry).degree g.exit ≤ 1
    rw [degree_join_of_ne (Nat.ne_of_gt (Nat.lt_of_lt_of_le hf.exit_lt hg.exit_ge))]
    exact hg.exit_degree

/-! ### Alternatives -/

/-- The pair of states around two blocks, with its edges into them. -/
theorem sparse_openFork {base before after : Arena} {f g : Fragment} (hf : f.Sparse base before)
    (hg : g.Sparse before after) : after.pair.Sparse base (openFork after f g) := by
  have hle : base.size ≤ before.size := hf.appends.size_le
  have hle' : before.size ≤ after.size := hg.appends.size_le
  have hsize : after.addPair.size = after.size + 2 := size_addPair after
  have hfe := hf.entry_lt
  have hge := hg.entry_ge
  have hge' := hg.entry_lt
  have hpair := sparse_pair (hf.appends.trans hg.appends) hg.sparse
  have hnone : after.addPair.degree after.size = 0 := degree_addPair_of_le (Nat.le_refl _)
  have hfirst : after.pair.Sparse base (after.addPair.join after.size f.entry) :=
    sparse_join_entry hpair hf.entry_ge (by omega) (not_mem_of_degree hnone _)
      (hnone.trans_le (Nat.zero_le 1))
  refine sparse_join_entry hfirst (by omega) (by rw [size_join]; omega) ?_ ?_
  · intro hedge
    rcases mem_targets_join.1 hedge with hold | ⟨_, _, _, heq⟩
    · exact not_mem_of_degree hnone _ hold
    · omega
  · exact Nat.le_trans degree_join_le (Nat.succ_le_succ (Nat.le_of_eq hnone))

theorem sparse_fork {base before after : Arena} {f g : Fragment} (hf : f.Sparse base before)
    (hg : g.Sparse before after) : (after.fork f g).1.Sparse base (after.fork f g).2 := by
  have hle : base.size ≤ before.size := hf.appends.size_le
  have hle' : before.size ≤ after.size := hg.appends.size_le
  have hfx := hf.exit_ge
  have hfx' := hf.exit_lt
  have hgx := hg.exit_ge
  have hgx' := hg.exit_lt
  have hentry : after.pair.entry = after.size := rfl
  have hexit : after.pair.exit = after.size + 1 := rfl
  have hsize : (openFork after f g).size = after.size + 2 := by simp [openFork]
  -- the exits of the blocks are as the blocks left them
  have hkept : ∀ {s : Nat}, s < after.size →
      (openFork after f g).targets s .epsilon = after.targets s .epsilon := by
    intro s hs
    unfold openFork
    rw [targets_join_of_ne (by omega), targets_join_of_ne (by omega), targets_addPair]
  have hleft : after.size + 1 ∉ after.targets f.exit .epsilon :=
    (hf.appends.trans hg.appends).not_mem_targets (Appends.refl after) hfx (by omega) (by omega)
  have hright : after.size + 1 ∉ after.targets g.exit .epsilon :=
    hg.appends.not_mem_targets (Appends.refl after) hgx hgx' (by omega)
  have hleft' : after.degree f.exit ≤ 1 := by
    rw [hg.appends.degree_eq hfx']
    exact hf.exit_degree
  have hfirst : after.pair.Sparse base ((openFork after f g).join f.exit (after.size + 1)) := by
    refine sparse_join_inner (sparse_openFork hf hg) hfx (by omega) (by omega) (by omega) (by omega)
      ?_ ?_
    · rwa [hkept (by omega)]
    · unfold degree
      rw [hkept (by omega)]
      exact Nat.le_succ_of_le hleft'
  have hsecond : after.pair.Sparse base
      (((openFork after f g).join f.exit (after.size + 1)).join g.exit (after.size + 1)) := by
    refine sparse_join_inner hfirst (by omega) (by omega) (by rw [size_join]; omega) (by omega)
      (by omega) ?_ ?_
    · rwa [targets_join_of_ne (by omega), hkept (by omega)]
    · unfold degree
      rw [targets_join_of_ne (by omega), hkept (by omega)]
      exact Nat.le_succ_of_le hg.exit_degree
  rw [fork_eq]
  dsimp only
  exact hsecond

/-! ### Copies -/

/-- Some copies hang between the pair of states after `base`, and the last one is
not yet linked to the second of them. -/
structure Hangs (base : Arena) (last : Fragment) (arena : Arena) : Prop where
  whole : base.pair.Sparse base arena
  closed : arena.degree base.pair.exit = 0
  entry_ge : base.size + 2 ≤ last.entry
  entry_lt : last.entry < arena.size
  exit_ge : base.size + 2 ≤ last.exit
  exit_lt : last.exit < arena.size
  exit_degree : arena.degree last.exit ≤ 1
  unlinked : base.pair.exit ∉ arena.targets last.exit .epsilon

section

variable {base arena after : Arena} {last copy : Fragment}

/-- One more copy, linked to the last one. -/
theorem Hangs.link (h : Hangs base last arena) (hcopy : copy.Sparse arena after) :
    Hangs base copy (after.join last.exit copy.entry) := by
  have hentry : base.pair.entry = base.size := rfl
  have hexit : base.pair.exit = base.size + 1 := rfl
  have hsize : (after.join last.exit copy.entry).size = after.size := size_join ..
  have hlx := h.exit_ge
  have hlx' := h.exit_lt
  have hce := hcopy.entry_ge
  have hce' := hcopy.entry_lt
  have hcx := hcopy.exit_ge
  have hcx' := hcopy.exit_lt
  have hdegree : after.degree last.exit ≤ 1 := by
    rw [hcopy.appends.degree_eq hlx']
    exact h.exit_degree
  have hnew : copy.entry ∉ after.targets last.exit .epsilon :=
    h.whole.appends.not_mem_targets hcopy.appends (by omega) hlx' hce
  have hwhole : base.pair.Sparse base after := sparse_appends h.whole hcopy.appends hcopy.sparse
  refine ⟨sparse_join_inner hwhole (by omega) (by omega) hce' (by omega) (by omega) hnew
    (by omega), ?_, by omega, by omega, by omega, by omega, ?_, ?_⟩
  · rw [degree_join_of_ne (by omega), hcopy.appends.degree_eq (by omega)]
    exact h.closed
  · rw [degree_join_of_ne (by omega)]
    exact hcopy.exit_degree
  · rw [targets_join_of_ne (by omega)]
    intro hedge
    have hinside := hcopy.appends.inside hcx hedge
    omega

/-- The edge that skips the rest of the copies. -/
theorem Hangs.skip (h : Hangs base last arena) (hne : last.entry ≠ last.exit)
    (hdegree : arena.degree last.entry ≤ 2)
    (hnew : base.pair.exit ∉ arena.targets last.entry .epsilon) :
    Hangs base last (arena.join last.entry base.pair.exit) := by
  have hentry : base.pair.entry = base.size := rfl
  have hexit : base.pair.exit = base.size + 1 := rfl
  have hsize : (arena.join last.entry base.pair.exit).size = arena.size := size_join ..
  have hge := h.entry_ge
  have hlt := h.entry_lt
  refine ⟨sparse_join_inner h.whole (by omega) (by omega) (by omega) (by omega) (by omega) hnew
    hdegree, ?_, hge, hlt.trans_eq hsize.symm, h.exit_ge, h.exit_lt.trans_eq hsize.symm, ?_, ?_⟩
  · rw [degree_join_of_ne (by omega)]
    exact h.closed
  · rw [degree_join_of_ne hne.symm]
    exact h.exit_degree
  · rw [targets_join_of_ne hne.symm]
    exact h.unlinked

/-- One more copy, which may be the last when more than `min` have been read. -/
theorem Hangs.step (h : Hangs base last arena) (hcopy : copy.Sparse arena after)
    (min index : Nat) :
    Hangs base copy (if min < index then
      (after.join last.exit copy.entry).join copy.entry base.pair.exit
      else after.join last.exit copy.entry) := by
  have hlinked : Hangs base copy (after.join last.exit copy.entry) := h.link hcopy
  have hne : copy.entry ≠ last.exit := Nat.ne_of_gt (Nat.lt_of_lt_of_le h.exit_lt hcopy.entry_ge)
  have hexit : base.pair.exit < arena.size := h.whole.exit_lt
  split
  · refine hlinked.skip hcopy.entry_ne_exit ?_ ?_
    · rw [degree_join_of_ne hne]
      exact hcopy.entry_degree
    · rw [targets_join_of_ne hne]
      intro hedge
      exact Nat.not_lt.2 (hcopy.appends.inside hcopy.entry_ge hedge).1 hexit
  · exact hlinked

theorem Hangs.chain {make : Arena → Fragment × Arena} (hmake : MakesSparse make) (min : Nat) :
    ∀ (count index : Nat) {last : Fragment} {arena : Arena}, Hangs base last arena →
      Hangs base (chain make min base.pair.exit count index last arena).1
        (chain make min base.pair.exit count index last arena).2 := by
  intro count
  induction count with
  | zero =>
    intro _ _ _ h
    exact h
  | succ count ih =>
    intro index last arena h
    rw [chain_succ]
    exact ih (index + 1) (h.step (hmake arena h.whole.sparse) min index)

end

/-! ### Repetitions -/

theorem size_openPair (base : Arena) (min : Nat) : (openPair min base).size = base.size + 2 := by
  unfold openPair
  split
  · rw [size_join, size_addPair]
  · rw [size_addPair]

section

variable {base after : Arena} {copy : Fragment}

/-- The pair of states of a repetition, which has no edge but the one that skips
it. -/
theorem sparse_openPair (h : base.Sparse) (min : Nat) : base.pair.Sparse base (openPair min base) ∧
    (openPair min base).degree base.pair.entry ≤ 1 ∧
    (openPair min base).degree base.pair.exit = 0 := by
  have hpair : base.pair.Sparse base base.addPair := sparse_pair (Appends.refl base) h
  have hentry : base.addPair.degree base.pair.entry = 0 := degree_addPair_of_le (Nat.le_refl _)
  have hexit : base.addPair.degree base.pair.exit = 0 := degree_addPair_of_le (Nat.le_succ _)
  unfold openPair
  split
  · have hnew : base.pair.exit ∉ base.addPair.targets base.pair.entry .epsilon :=
      not_mem_of_degree hentry _
    refine ⟨sparse_join_entry hpair hpair.exit_ge hpair.exit_lt hnew (Nat.le_succ_of_le
      (Nat.le_of_eq hentry)), ?_, ?_⟩
    · exact Nat.le_trans degree_join_le (Nat.succ_le_succ (Nat.le_of_eq hentry))
    · exact (degree_join_of_ne hpair.entry_ne_exit.symm).trans hexit
  · exact ⟨hpair, Nat.le_succ_of_le (Nat.le_of_eq hentry), hexit⟩

/-- The first copy, entered from the pair of states. -/
theorem Hangs.first {min : Nat} (h : base.Sparse) (hcopy : copy.Sparse (openPair min base) after) :
    Hangs base copy (after.join base.pair.entry copy.entry) := by
  obtain ⟨hopen, hentry, hexit⟩ := sparse_openPair h min
  have hwhole : base.pair.Sparse base after := sparse_appends hopen hcopy.appends hcopy.sparse
  have hdegree : after.degree base.pair.entry ≤ 1 := by
    rwa [hcopy.appends.degree_eq hopen.entry_lt]
  have hnew : copy.entry ∉ after.targets base.pair.entry .epsilon :=
    hopen.appends.not_mem_targets hcopy.appends hopen.entry_ge hopen.entry_lt hcopy.entry_ge
  have hsize : (after.join base.pair.entry copy.entry).size = after.size := size_join ..
  have hsize' : (openPair min base).size = base.size + 2 := size_openPair base min
  have hce := hcopy.entry_ge
  have hcx := hcopy.exit_ge
  have hpe : base.pair.entry = base.size := rfl
  have hpx : base.pair.exit = base.size + 1 := rfl
  refine ⟨sparse_join_entry hwhole (by omega) hcopy.entry_lt hnew hdegree, ?_, by omega,
    hcopy.entry_lt.trans_eq hsize.symm, by omega, hcopy.exit_lt.trans_eq hsize.symm, ?_, ?_⟩
  · rwa [degree_join_of_ne (by omega), hcopy.appends.degree_eq (by omega)]
  · rw [degree_join_of_ne (by omega)]
    exact hcopy.exit_degree
  · rw [targets_join_of_ne (by omega)]
    intro hedge
    have hinside := hcopy.appends.inside hcx hedge
    omega

variable {arena : Arena} {last : Fragment}

/-- The last copy, linked to the pair of states. -/
theorem Hangs.close (h : Hangs base last arena) :
    base.pair.Sparse base (arena.join last.exit base.pair.exit) ∧
      (arena.join last.exit base.pair.exit).degree base.pair.exit = 0 := by
  have hpe : base.pair.entry = base.size := rfl
  have hpx : base.pair.exit = base.size + 1 := rfl
  have hge := h.exit_ge
  have hlt := h.exit_lt
  refine ⟨sparse_join_inner h.whole (by omega) (by omega) (by omega) (by omega) (by omega)
    h.unlinked (Nat.le_succ_of_le h.exit_degree), ?_⟩
  rw [degree_join_of_ne (by omega)]
  exact h.closed

theorem Hangs.copies {make : Arena → Fragment × Arena} (hmake : MakesSparse make)
    (hbase : base.Sparse) (min count : Nat) :
    Hangs base (copies make min count base).1 (copies make min count base).2 :=
  Hangs.chain hmake min (count - 1) 2
    (Hangs.first hbase (hmake _ (sparse_openPair hbase min).1.sparse))

theorem makesSparse_unroll {make : Arena → Fragment × Arena} (hmake : MakesSparse make)
    (min : Nat) (max : UpperBound) : MakesSparse (unroll make min max) := by
  intro base hbase
  cases max with
  | bounded count =>
    rw [unroll_bounded]
    exact (Hangs.copies hmake hbase min count).close.1
  | unbounded =>
    rw [unroll_unbounded]
    have hangs := Hangs.copies hmake hbase min (Nat.max min 1)
    obtain ⟨hclosed, hexit⟩ := hangs.close
    refine sparse_join_exit hclosed (Nat.le_trans (Nat.le_add_right _ 2) hangs.entry_ge) ?_ hexit
    rw [size_join]
    exact hangs.entry_lt

end

end Arena

/-! ## Tokens -/

mutual

theorem Token.sparse_assemble : ∀ token : Token, MakesSparse token.assemble
  | .literal byte => Arena.makesSparse_readAny (List.nodup_singleton byte)
  | .bracket set => Arena.makesSparse_readAny set.nodup_members
  | .either left right => by
    intro arena h
    have hleft := left.sparse_assemble arena h
    have hright := right.sparse_assemble _ hleft.sparse
    exact Arena.sparse_fork hleft hright
  | .repeated min max body => Arena.makesSparse_unroll body.sparse_assemble min max
  | .group tokens => Token.sparse_assembleAll tokens
  | .sequence tokens => Token.sparse_assembleAll tokens

theorem Token.sparse_assembleAll : ∀ tokens : List Token, MakesSparse (Token.assembleAll tokens)
  | [] => Arena.makesSparse_readNothing
  | token :: tokens => by
    intro arena h
    have hfirst := token.sparse_assemble arena h
    exact Token.sparse_assembleAfter tokens hfirst

theorem Token.sparse_assembleAfter : ∀ (tokens : List Token) {base arena : Arena} {f : Fragment},
    f.Sparse base arena →
      (Token.assembleAfter tokens f arena).1.Sparse base (Token.assembleAfter tokens f arena).2
  | [], _, _, _, h => h
  | token :: tokens, _, _, _, h => by
    have hnext := token.sparse_assemble _ h.sparse
    exact Token.sparse_assembleAfter tokens (Arena.sparse_join h hnext)

end

end BytePattern
