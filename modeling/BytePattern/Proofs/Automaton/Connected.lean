import BytePattern.Pattern.Readable
import BytePattern.Proofs.Automaton.Relocation

set_option autoImplicit false

/-!
# Automata: connected blocks

Where every bracket has a byte, every state of a block is reached from the entry of the
block and reaches its exit.  Bounds of repetitions have no part in this: the copies hang
one behind the other, so an edge that skips some of them is never the only way to
anything, and all states but the exit of the pair around the copies reach the last of
them at any time.
-/

namespace BytePattern

namespace Arena

/-! ## Where edges lead -/

/-- There is a sequence of edges from one state to another, whatever their labels. -/
def Leads (arena : Arena) (s t : Nat) : Prop := ∃ labels, arena.Trail s labels t

/-- No edge is lost. -/
def Grows (before after : Arena) : Prop :=
  ∀ (s t : Nat) (symbol : Symbol), t ∈ before.targets s symbol → t ∈ after.targets s symbol

section

variable {arena first second third : Arena} {a b s t u : Nat} {symbol : Symbol}

theorem Leads.refl (arena : Arena) (s : Nat) : arena.Leads s s := ⟨[], .refl s⟩

theorem Leads.edge (h : t ∈ arena.targets s symbol) : arena.Leads s t := ⟨_, .step h (.refl t)⟩

theorem Leads.trans (h₁ : arena.Leads s t) (h₂ : arena.Leads t u) : arena.Leads s u := by
  obtain ⟨labels, htrail⟩ := h₁
  induction htrail with
  | refl => exact h₂
  | step hedge _ ih =>
    obtain ⟨rest, hrest⟩ := ih h₂
    exact ⟨_, .step hedge hrest⟩

theorem Leads.grows (h : first.Leads s t) (hgrows : Grows first second) : second.Leads s t := by
  obtain ⟨labels, htrail⟩ := h
  induction htrail with
  | refl s => exact .refl second s
  | step hedge _ ih => exact (Leads.edge (hgrows _ _ _ hedge)).trans ih

/-- Nothing leads to a state without edges into it but the state itself. -/
theorem Leads.eq_of_no_edge (h : arena.Leads s t)
    (hnone : ∀ (u : Nat) (symbol : Symbol), t ∉ arena.targets u symbol) : s = t := by
  obtain ⟨labels, htrail⟩ := h
  induction htrail with
  | refl => rfl
  | step hedge _ ih =>
    obtain rfl := ih hnone
    exact absurd hedge (hnone _ _)

theorem leads_join (ha : a < arena.size) (b : Nat) : (arena.join a b).Leads a b :=
  .edge (mem_targets_join.2 (Or.inr ⟨rfl, ha, rfl, rfl⟩))

theorem Grows.refl (arena : Arena) : Grows arena arena := fun _ _ _ h => h

theorem Grows.trans (h₁ : Grows first second) (h₂ : Grows second third) : Grows first third :=
  fun s t symbol h => h₂ s t symbol (h₁ s t symbol h)

theorem grows_link (arena : Arena) (a b : Nat) (symbol : Symbol) :
    Grows arena (arena.link a symbol b) :=
  fun _ _ _ h => mem_targets_link.2 (Or.inl h)

theorem grows_join (arena : Arena) (a b : Nat) : Grows arena (arena.join a b) :=
  grows_link arena a b .epsilon

theorem grows_addPair (arena : Arena) : Grows arena arena.addPair := by
  intro s t symbol h
  rwa [targets_addPair]

theorem Appends.grows (h : Appends first second) : Grows first second := by
  intro s t symbol hedge
  rwa [h.targets_eq (lt_size_of_mem_targets hedge)]

end

end Arena

/-! ## States between two -/

/-- The states are reached from the entry of the fragment and reach its exit. -/
structure Arena.Between (arena : Arena) (f : Fragment) (inside : Nat → Prop) : Prop where
  reached : ∀ {id : Nat}, inside id → arena.Leads f.entry id
  reaching : ∀ {id : Nat}, inside id → arena.Leads id f.exit

namespace Arena.Between

variable {arena later : Arena} {f : Fragment} {inside other : Nat → Prop} {a b : Nat}

theorem grows (h : arena.Between f inside) (hgrows : Grows arena later) : later.Between f inside :=
  ⟨fun hid => (h.reached hid).grows hgrows, fun hid => (h.reaching hid).grows hgrows⟩

theorem mono (h : arena.Between f inside) (hsub : ∀ id, other id → inside id) :
    arena.Between f other :=
  ⟨fun hid => h.reached (hsub _ hid), fun hid => h.reaching (hsub _ hid)⟩

theorem or (h : arena.Between f inside) (h' : arena.Between f other) :
    arena.Between f fun id => inside id ∨ other id :=
  ⟨fun hid => hid.elim h.reached h'.reached, fun hid => hid.elim h.reaching h'.reaching⟩

/-- From further in front to further behind. -/
theorem wrap (h : arena.Between f inside) (hin : arena.Leads a f.entry)
    (hout : arena.Leads f.exit b) : arena.Between ⟨a, b⟩ inside :=
  ⟨fun hid => hin.trans (h.reached hid), fun hid => (h.reaching hid).trans hout⟩

theorem ends (h : arena.Leads a b) : arena.Between ⟨a, b⟩ fun id => id = a ∨ id = b := by
  refine ⟨?reached, ?reaching⟩
  case reached =>
    rintro id (rfl | rfl)
    · exact .refl arena id
    · exact h
  case reaching =>
    rintro id (rfl | rfl)
    · exact h
    · exact .refl arena id

end Arena.Between

/-! ## Connected blocks -/

/-- Every state of the block is reached from the entry and reaches the exit. -/
def Fragment.Connected (f : Fragment) (before after : Arena) : Prop :=
  after.Between f fun id => before.size ≤ id ∧ id < after.size

/-- Assembling appends a connected block. -/
def MakesConnected (make : Arena → Fragment × Arena) : Prop :=
  ∀ arena : Arena, (make arena).1.Within arena (make arena).2 ∧
    (make arena).1.Connected arena (make arena).2

/-- The block of a connected fragment can be passed through. -/
theorem Fragment.Connected.through {f : Fragment} {before after : Arena}
    (h : f.Connected before after) (hf : f.Within before after) : after.Leads f.entry f.exit :=
  h.reached ⟨hf.exit_ge, hf.exit_lt⟩

namespace Arena

/-! ### Single symbols -/

theorem grows_links (symbols : List Symbol) (arena : Arena) (a b : Nat) :
    Grows arena (symbols.foldl (fun arena symbol => arena.link a symbol b) arena) ∧
      (symbols.foldl (fun arena symbol => arena.link a symbol b) arena).size = arena.size := by
  induction symbols generalizing arena with
  | nil => exact ⟨.refl arena, rfl⟩
  | cons symbol symbols ih =>
    obtain ⟨hgrows, hsize⟩ := ih (arena.link a symbol b)
    exact ⟨(grows_link arena a b symbol).trans hgrows, hsize.trans (size_link ..)⟩

theorem connected_readAny {symbols : List Symbol} (hne : symbols ≠ []) (arena : Arena) :
    (arena.readAny symbols).1.Connected arena (arena.readAny symbols).2 := by
  obtain ⟨symbol, symbols, rfl⟩ := List.exists_cons_of_ne_nil hne
  obtain ⟨hgrows, hsize⟩ := grows_links symbols
    (arena.addPair.link arena.pair.entry symbol arena.pair.exit) arena.pair.entry arena.pair.exit
  have hpair : arena.pair.entry < arena.addPair.size := by simp [pair]
  have hedge : (arena.readAny (symbol :: symbols)).2.Leads arena.size (arena.size + 1) :=
    .edge (hgrows _ _ symbol (mem_targets_link.2 (Or.inr ⟨rfl, hpair, rfl, rfl⟩)))
  refine (Between.ends hedge).mono fun id hid => ?_
  rw [show (arena.readAny (symbol :: symbols)).2.size = _ from hsize, size_link,
    size_addPair] at hid
  omega

/-! ### Two blocks -/

section

variable {base before after : Arena} {f g : Fragment}

theorem connected_join (hf : f.Connected base before) (hf' : f.Within base before)
    (hg : g.Connected before after) (hg' : g.Within before after) :
    Fragment.Connected ⟨f.entry, g.exit⟩ base (after.join f.exit g.entry) := by
  have hnew : Grows after (after.join f.exit g.entry) := grows_join after f.exit g.entry
  have hold : Grows before (after.join f.exit g.entry) := hg'.appends.grows.trans hnew
  have hbetween : (after.join f.exit g.entry).Leads f.exit g.entry :=
    leads_join (Nat.lt_of_lt_of_le hf'.exit_lt hg'.appends.size_le) g.entry
  have hfirst := (hf.through hf').grows hold
  have hsecond := (hg.through hg').grows hnew
  refine (((hf.grows hold).wrap (.refl _ _) (hbetween.trans hsecond)).or
    ((hg.grows hnew).wrap (hfirst.trans hbetween) (.refl _ _))).mono fun id hid => ?_
  rw [size_join] at hid
  omega

theorem grows_fork (arena : Arena) (f g : Fragment) : Grows arena (arena.fork f g).2 := by
  have hopen : Grows arena (openFork arena f g) :=
    ((grows_addPair arena).trans (grows_join _ _ _)).trans (grows_join _ _ _)
  rw [fork_eq]
  dsimp only
  exact (hopen.trans (grows_join _ _ _)).trans (grows_join _ _ _)

/-- The four edges between two blocks and the pair around them. -/
theorem leads_fork {arena : Arena} (hf : f.exit < arena.size) (hg : g.exit < arena.size) :
    (arena.fork f g).2.Leads arena.size f.entry ∧ (arena.fork f g).2.Leads arena.size g.entry ∧
      (arena.fork f g).2.Leads f.exit (arena.size + 1) ∧
      (arena.fork f g).2.Leads g.exit (arena.size + 1) := by
  have hsize : (openFork arena f g).size = arena.size + 2 := by simp [openFork]
  have hsize' : ((openFork arena f g).join f.exit (arena.size + 1)).size = arena.size + 2 := by
    rw [size_join, hsize]
  have hleft : (arena.addPair.join arena.size f.entry).Leads arena.size f.entry :=
    leads_join (by simp) f.entry
  have hright : (openFork arena f g).Leads arena.size g.entry := leads_join (by simp) g.entry
  have hleft' := leads_join (show f.exit < (openFork arena f g).size by omega) (arena.size + 1)
  have hright' := leads_join
    (show g.exit < ((openFork arena f g).join f.exit (arena.size + 1)).size by omega)
    (arena.size + 1)
  rw [fork_eq]
  dsimp only
  have hshut : Grows (openFork arena f g)
      (((openFork arena f g).join f.exit (arena.size + 1)).join g.exit (arena.size + 1)) :=
    (grows_join _ _ _).trans (grows_join _ _ _)
  exact ⟨(hleft.grows (grows_join _ _ _)).grows hshut, hright.grows hshut,
    hleft'.grows (grows_join _ _ _), hright'⟩

theorem connected_fork (hf : f.Connected base before) (hf' : f.Within base before)
    (hg : g.Connected before after) (hg' : g.Within before after) :
    (after.fork f g).1.Connected base (after.fork f g).2 := by
  have hnew : Grows after (after.fork f g).2 := grows_fork after f g
  have hold : Grows before (after.fork f g).2 := hg'.appends.grows.trans hnew
  obtain ⟨hl, hr, hl', hr'⟩ :=
    leads_fork (Nat.lt_of_lt_of_le hf'.exit_lt hg'.appends.size_le) hg'.exit_lt
  have hpair := Between.ends ((hl.trans ((hf.through hf').grows hold)).trans hl')
  -- a state is in one of the two blocks, or it is one of the pair around them
  refine ((((hf.grows hold).wrap hl hl').or ((hg.grows hnew).wrap hr hr')).or hpair).mono
    fun id hid => ?_
  rw [size_fork] at hid
  omega

end

/-! ### Copies -/

/-- Some copies hang one behind the other between the pair of states after `base`: all
states but the exit of the pair are reached from its entry and reach the exit of the
last copy. -/
structure Strung (base : Arena) (last : Fragment) (arena : Arena) : Prop where
  size_le : base.size + 2 ≤ arena.size
  exit_lt : last.exit < arena.size
  between : arena.Between ⟨base.size, last.exit⟩ fun id =>
    (base.size ≤ id ∧ id < arena.size) ∧ id ≠ base.size + 1

section

variable {base arena after : Arena} {last copy : Fragment} {make : Arena → Fragment × Arena}

theorem Strung.through (h : Strung base last arena) : arena.Leads base.size last.exit := by
  have hsize := h.size_le
  exact h.between.reaching ⟨⟨Nat.le_refl _, by omega⟩, by omega⟩

theorem Strung.grows (h : Strung base last arena) (hgrows : Grows arena after)
    (hsize : after.size = arena.size) : Strung base last after :=
  ⟨hsize ▸ h.size_le, hsize ▸ h.exit_lt,
    (h.between.grows hgrows).mono fun _ hid => ⟨⟨hid.1.1, hsize ▸ hid.1.2⟩, hid.2⟩⟩

/-- One more copy, linked to the last one. -/
theorem Strung.link (h : Strung base last arena) (hcopy : copy.Connected arena after)
    (hcopy' : copy.Within arena after) :
    Strung base copy (after.join last.exit copy.entry) := by
  have hle : arena.size ≤ after.size := hcopy'.appends.size_le
  have hstart := h.size_le
  have hnew : Grows after (after.join last.exit copy.entry) := grows_join _ _ _
  have hold : Grows arena (after.join last.exit copy.entry) := hcopy'.appends.grows.trans hnew
  have hbetween : (after.join last.exit copy.entry).Leads last.exit copy.entry :=
    leads_join (Nat.lt_of_lt_of_le h.exit_lt hle) copy.entry
  have hbefore := h.through.grows hold
  have hthrough := (hcopy.through hcopy').grows hnew
  refine ⟨by rw [size_join]; omega, by rw [size_join]; exact hcopy'.exit_lt, ?_⟩
  refine (((h.between.grows hold).wrap (.refl _ _) (hbetween.trans hthrough)).or
    ((hcopy.grows hnew).wrap (hbefore.trans hbetween) (.refl _ _))).mono fun id hid => ?_
  rw [size_join] at hid
  omega

theorem Strung.chain (hmake : MakesConnected make) (min : Nat) :
    ∀ (count index : Nat) {last : Fragment} {arena : Arena}, Strung base last arena →
      Strung base (chain make min base.pair.exit count index last arena).1
        (chain make min base.pair.exit count index last arena).2 := by
  intro count
  induction count with
  | zero => exact fun _ _ _ h => h
  | succ count ih =>
    intro index last arena h
    obtain ⟨hwithin, hconnected⟩ := hmake arena
    have hlinked := h.link hconnected hwithin
    rw [chain_succ]
    -- the edge that skips the rest of the copies is one more way, and no way is lost
    apply ih
    split
    · exact hlinked.grows (grows_join _ _ _) (size_join ..)
    · exact hlinked

/-- The first copy, entered from the pair of states. -/
theorem Strung.first (hmake : MakesConnected make) (min : Nat) (base : Arena) :
    Strung base (make (openPair min base)).1
      ((make (openPair min base)).2.join base.pair.entry (make (openPair min base)).1.entry) := by
  obtain ⟨hwithin, hconnected⟩ := hmake (openPair min base)
  have hsize := size_openPair base min
  have hle := hwithin.appends.size_le
  generalize make (openPair min base) = first at *
  have hpair : base.pair.entry < first.2.size := show base.size < first.2.size by omega
  have hnew : Grows first.2 (first.2.join base.pair.entry first.1.entry) := grows_join _ _ _
  have henter : (first.2.join base.pair.entry first.1.entry).Leads base.size first.1.entry :=
    leads_join hpair first.1.entry
  have hends := Between.ends (henter.trans ((hconnected.through hwithin).grows hnew))
  refine ⟨by rw [size_join]; omega, by rw [size_join]; exact hwithin.exit_lt, ?_⟩
  refine (hends.or ((hconnected.grows hnew).wrap henter (.refl _ _))).mono fun id hid => ?_
  rw [size_join] at hid
  omega

theorem strung_copies (hmake : MakesConnected make) (min count : Nat) (base : Arena) :
    Strung base (copies make min count base).1 (copies make min count base).2 :=
  (Strung.first hmake min base).chain hmake min (count - 1) 2

/-- The last copy, linked to the pair of states. -/
theorem Strung.close (h : Strung base last arena) :
    base.pair.Connected base (arena.join last.exit base.pair.exit) := by
  have hnew : Grows arena (arena.join last.exit base.pair.exit) := grows_join _ _ _
  have hleave : (arena.join last.exit base.pair.exit).Leads last.exit (base.size + 1) :=
    leads_join h.exit_lt base.pair.exit
  have hends := Between.ends ((h.through.grows hnew).trans hleave)
  refine (hends.or ((h.between.grows hnew).wrap (.refl _ _) hleave)).mono fun id hid => ?_
  rw [size_join] at hid
  omega

theorem connected_unroll (hmake : MakesConnected make) (min : Nat) (max : UpperBound)
    (base : Arena) : (unroll make min max base).1.Connected base (unroll make min max base).2 := by
  cases max with
  | bounded count =>
    rw [unroll_bounded]
    exact (strung_copies hmake min count base).close
  | unbounded =>
    have hclosed := (strung_copies hmake min (Nat.max min 1) base).close
    rw [unroll_unbounded]
    dsimp only
    refine (hclosed.grows (grows_join _ base.pair.exit _)).mono fun id hid => ?_
    rwa [size_join] at hid

end

end Arena

/-- The token is no bracket without bytes. -/
def Token.NotBlank (token : Token) : Prop := token ≠ .bracket .empty

theorem ByteSet.members_ne_nil {set : ByteSet} (h : Token.NotBlank (.bracket set)) :
    set.members ≠ [] := by
  intro hnil
  apply h
  congr 1
  ext b
  rw [← ByteSet.mem_members, hnil]
  exact Iff.rfl

mutual

/-- A token in which every bracket has a byte assembles to a connected block. -/
theorem Token.connected_assemble : ∀ token : Token, token.Throughout Token.NotBlank →
    ∀ arena : Arena, (token.assemble arena).1.Connected arena (token.assemble arena).2
  | .literal byte, _, arena =>
    Arena.connected_readAny (List.cons_ne_nil (Symbol.byte byte) []) arena
  | .bracket set, h, arena => by
    rw [Token.Throughout] at h
    have hne : set.members.map Symbol.byte ≠ [] := by
      simpa using ByteSet.members_ne_nil h
    rw [Token.assemble]
    exact Arena.connected_readAny hne arena
  | .either left right, h, arena => by
    rw [Token.Throughout] at h
    rw [Token.assemble]
    exact Arena.connected_fork (left.connected_assemble h.2.1 arena) (left.within_assemble arena)
      (right.connected_assemble h.2.2 _) (right.within_assemble _)
  | .repeated min max body, h, arena => by
    rw [Token.Throughout] at h
    rw [Token.assemble]
    exact Arena.connected_unroll
      (fun base => ⟨body.within_assemble base, body.connected_assemble h.2 base⟩) min max arena
  | .group tokens, h, arena => by
    rw [Token.Throughout] at h
    rw [Token.assemble]
    exact Token.connected_assembleAll tokens h.2 arena
  | .sequence tokens, h, arena => by
    rw [Token.Throughout] at h
    rw [Token.assemble]
    exact Token.connected_assembleAll tokens h.2 arena

theorem Token.connected_assembleAll : ∀ tokens : List Token,
    Token.AllThroughout Token.NotBlank tokens → ∀ arena : Arena,
      (Token.assembleAll tokens arena).1.Connected arena (Token.assembleAll tokens arena).2
  | [], _, arena => Arena.connected_readAny (List.cons_ne_nil Symbol.epsilon []) arena
  | token :: tokens, h, arena => by
    rw [Token.AllThroughout] at h
    rw [Token.assembleAll]
    exact Token.connected_assembleAfter tokens h.2 (token.connected_assemble h.1 arena)
      (token.within_assemble arena)

theorem Token.connected_assembleAfter : ∀ tokens : List Token,
    Token.AllThroughout Token.NotBlank tokens → ∀ {base arena : Arena} {f : Fragment},
      f.Connected base arena → f.Within base arena →
        (Token.assembleAfter tokens f arena).1.Connected base
          (Token.assembleAfter tokens f arena).2
  | [], _, base, arena, f => by
    intro hf _
    rw [Token.assembleAfter]
    exact hf
  | token :: tokens, h, base, arena, f => by
    intro hf hf'
    rw [Token.AllThroughout] at h
    have hnext := token.connected_assemble h.1 arena
    have hnext' := token.within_assemble arena
    rw [Token.assembleAfter]
    exact Token.connected_assembleAfter tokens h.2 (Arena.connected_join hf hf' hnext hnext')
      (Arena.within_join hf' hnext')

end

end BytePattern
