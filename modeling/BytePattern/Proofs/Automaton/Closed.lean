import BytePattern.Proofs.Automaton.Edges
import BytePattern.Proofs.Automaton.Fragment

set_option autoImplicit false

/-!
# Automata: the automaton of a token list

Closing an assembled fragment adds a start state and an end state.  The walks
between the two spell the language of the tokens, the end state is the only one
flagged as the end, and a byte still has one destination at most.
-/

namespace BytePattern

open Computability

namespace Arena

/-- The arena with a start state and an end state added. -/
def addEnds (arena : Arena) : Arena :=
  (arena.push { State.blank with isStart := true }).push { State.blank with isEnd := true }

@[simp] theorem size_addEnds (arena : Arena) : arena.addEnds.size = arena.size + 2 := by
  simp [addEnds]

theorem targets_addEnds (arena : Arena) (s : Nat) (symbol : Symbol) :
    arena.addEnds.targets s symbol = arena.targets s symbol := by
  unfold addEnds
  rw [targets_push _ _ rfl, targets_push _ _ rfl]

theorem appends_addEnds (arena : Arena) : Appends arena arena.addEnds :=
  ((Appends.refl arena).push _ rfl).push _ rfl

end Arena

namespace Automaton

theorem states_close (root : Fragment) (arena : Arena) :
    (close root arena).states =
      (arena.addEnds.join arena.size root.entry).join root.exit (arena.size + 1) := rfl

theorem ofTokens_eq (tokens : List Token) :
    ofTokens tokens = close (Token.assembleAll tokens #[]).1 (Token.assembleAll tokens #[]).2 := rfl

/-! ## The language -/

/-- From the start state to the end state a closed automaton spells what its
fragment spells. -/
theorem language_close {root : Fragment} {arena : Arena} {l : Language UInt8}
    (h : root.Spells #[] arena l) :
    (close root arena).states.language (close root arena).start (close root arena).accept = l := by
  obtain ⟨happ, _, hentry, _, hexit, _, _, hlanguage⟩ := h
  have hsize : arena.addEnds.size = arena.size + 2 := Arena.size_addEnds arena
  have hends : Arena.Appends arena arena.addEnds := Arena.appends_addEnds arena
  -- neither of the two states that were added has an edge yet
  have hsink : ∀ {s}, arena.size ≤ s → Arena.Sink arena.addEnds s := by
    intro s hs t symbol hedge
    rw [Arena.targets_addEnds] at hedge
    exact absurd (Arena.lt_size_of_mem_targets hedge) (Nat.not_lt.2 hs)
  have hsource : Arena.Source #[] arena.addEnds arena.size := by
    intro s symbol _ hedge
    rw [Arena.targets_addEnds] at hedge
    exact absurd (happ.inside (Nat.zero_le _) hedge).2 (Nat.lt_irrefl _)
  have hall : Arena.Appends #[] arena.addEnds := happ.trans hends
  have henter : ∀ t, (arena.addEnds.join arena.size root.entry).language arena.size t =
      arena.addEnds.language arena.size t + arena.addEnds.language root.entry t :=
    fun t => Arena.language_join_source hall hsource (Nat.zero_le _) (by omega) (Nat.zero_le _)
      (by omega)
  have hstuck : ∀ {t}, arena.size ≠ t → arena.addEnds.language arena.size t = 0 := by
    intro t ht
    rw [(hsink (Nat.le_refl _)).language, if_neg ht]
  have hroot : arena.addEnds.language root.entry root.exit = l := by
    rw [happ.language_eq hends (Nat.zero_le _) hentry, hlanguage]
  have hbeyond : arena.addEnds.language root.entry (arena.size + 1) = 0 :=
    happ.language_to_newer hends (Nat.zero_le _) hentry (Nat.le_succ _)
  have hsink' : Arena.Sink (arena.addEnds.join arena.size root.entry) (arena.size + 1) :=
    (hsink (Nat.le_succ _)).join (by omega)
  rw [states_close]
  show Arena.language _ arena.size (arena.size + 1) = l
  rw [Arena.language_join_sink hsink' (by rw [Arena.size_join]; omega) (by omega), henter, henter,
    hstuck (by omega), hstuck (by omega), hbeyond, hroot, zero_add, zero_add, zero_add]

/-- The walks from the start to the end spell what the tokens match. -/
theorem language_ofTokens {tokens : List Token} (h : Token.AllOrdered tokens) :
    (ofTokens tokens).states.language (ofTokens tokens).start (ofTokens tokens).accept =
      Token.languages tokens := by
  rw [ofTokens_eq]
  exact language_close (Token.makes_assembleAll tokens h #[])

/-! ## Edges and flags -/

/-- A property of states that assembling and closing establish. -/
theorem all_ofTokens {p : State → Prop} (h : Kept (Arena.All p)) (tokens : List Token)
    (hstart : p { State.blank with isStart := true })
    (hend : p { State.blank with isEnd := true }) : Arena.All p (ofTokens tokens).states := by
  rw [ofTokens_eq, states_close]
  apply h.join
  apply h.join
  exact ((Token.kept_assembleAll h tokens #[] (Arena.all_empty p)).push hstart).push hend

theorem uniform_ofTokens (tokens : List Token) :
    Arena.All State.Uniform (ofTokens tokens).states :=
  all_ofTokens Arena.kept_uniform tokens (State.uniform_of_no_edges rfl)
    (State.uniform_of_no_edges rfl)

/-- No edge is under a mark. -/
theorem targets_mark (tokens : List Token) (id : Nat) :
    (ofTokens tokens).targets id .startOfText = [] ∧
      (ofTokens tokens).targets id .endOfText = [] := by
  have hnone : ∀ {symbol : Symbol}, symbol = .startOfText ∨ symbol = .endOfText →
      (ofTokens tokens).targets id symbol = [] := by
    intro symbol hmark
    apply List.eq_nil_iff_forall_not_mem.2
    intro t ht
    obtain ⟨s, hs, hedge⟩ := Arena.mem_targets_iff.1 ht
    obtain ⟨hstart, hend⟩ := (uniform_ofTokens tokens id s hs).unmarked t
    rcases hmark with rfl | rfl
    · exact hstart hedge
    · exact hend hedge
  exact ⟨hnone (Or.inl rfl), hnone (Or.inr rfl)⟩

/-- The bytes that a state reads lead to one state. -/
theorem targets_byte_unique {tokens : List Token} {id t u : Nat} {b c : UInt8}
    (ht : t ∈ (ofTokens tokens).targets id (.byte b))
    (hu : u ∈ (ofTokens tokens).targets id (.byte c)) : t = u := by
  obtain ⟨s, hs, hedge⟩ := Arena.mem_targets_iff.1 ht
  obtain ⟨s', hs', hedge'⟩ := Arena.mem_targets_iff.1 hu
  obtain rfl : s = s' := Option.some.inj (hs.symm.trans hs')
  exact (uniform_ofTokens tokens id s hs).together b c t u hedge hedge'

/-- The first destination of a byte stands for all of them. -/
theorem head?_targets_byte {tokens : List Token} {id t : Nat} {b : UInt8} :
    ((ofTokens tokens).targets id (.byte b)).head? = some t ↔
      t ∈ (ofTokens tokens).targets id (.byte b) := by
  constructor
  · exact List.mem_of_head?
  · intro ht
    cases hlist : (ofTokens tokens).targets id (.byte b) with
    | nil =>
      rw [hlist] at ht
      cases ht
    | cons u rest =>
      have hu : u ∈ (ofTokens tokens).targets id (.byte b) := by
        rw [hlist]
        exact List.mem_cons_self
      rw [List.head?_cons, targets_byte_unique hu ht]

theorem isEnd_iff {a : Automaton} {id : Nat} :
    a.isEnd id = true ↔ ∃ s, a.states[id]? = some s ∧ s.isEnd = true := by
  unfold isEnd state?
  cases a.states[id]? with
  | none => simp
  | some s => simp

/-- An edge does not change a flag. -/
theorem flags_join {arena : Arena} {source target id : Nat} {s : State}
    (h : (arena.join source target)[id]? = some s) :
    ∃ s₀, arena[id]? = some s₀ ∧ s₀.isStart = s.isStart ∧ s₀.isEnd = s.isEnd := by
  unfold Arena.join Arena.link at h
  rw [Array.getElem?_modify] at h
  split at h
  · obtain ⟨s₀, hs₀, rfl⟩ := Option.map_eq_some_iff.1 h
    exact ⟨s₀, hs₀, rfl, rfl⟩
  · exact ⟨s, h, rfl, rfl⟩

theorem size_close (root : Fragment) (arena : Arena) :
    (close root arena).states.size = arena.size + 2 := by
  rw [states_close, Arena.size_join, Arena.size_join, Arena.size_addEnds]

/-- The start state and the end state are the last two. -/
theorem size_ofTokens (tokens : List Token) :
    (ofTokens tokens).start + 2 = (ofTokens tokens).size ∧
      (ofTokens tokens).accept + 1 = (ofTokens tokens).size := by
  have hsize := size_close (Token.assembleAll tokens #[]).1 (Token.assembleAll tokens #[]).2
  rw [ofTokens_eq]
  exact ⟨hsize.symm, hsize.symm⟩

/-- The start state is the only one that is flagged as the start, and the end
state the only one that is flagged as the end. -/
theorem flags_ofTokens {tokens : List Token} {id : Nat} {s : State}
    (h : (ofTokens tokens).state? id = some s) :
    (s.isStart = true ↔ id = (ofTokens tokens).start) ∧
      (s.isEnd = true ↔ id = (ofTokens tokens).accept) := by
  have hunflagged := Token.kept_assembleAll Arena.kept_unflagged tokens #[] (Arena.all_empty _)
  rw [ofTokens_eq] at h ⊢
  unfold state? at h
  rw [states_close] at h
  generalize (Token.assembleAll tokens #[]).2 = arena at *
  show (_ ↔ id = arena.size) ∧ (_ ↔ id = arena.size + 1)
  obtain ⟨s₁, h₁, hstart₁, hend₁⟩ := flags_join h
  obtain ⟨s₂, h₂, hstart₂, hend₂⟩ := flags_join h₁
  rw [← hstart₁, ← hend₁, ← hstart₂, ← hend₂]
  unfold Arena.addEnds at h₂
  rw [Array.getElem?_push, Array.getElem?_push, Array.size_push] at h₂
  split at h₂
  · rename_i hid
    obtain rfl := Option.some.inj h₂
    simp [State.blank, hid]
  · rename_i haccept
    split at h₂
    · rename_i hid
      obtain rfl := Option.some.inj h₂
      simp [State.blank, hid]
    · rename_i hstart
      obtain ⟨hflag, hflag'⟩ := hunflagged id s₂ h₂
      simp [hflag, hflag', hstart, haccept]

/-- The end state is the only one that is flagged as the end. -/
theorem isEnd_ofTokens (tokens : List Token) (id : Nat) :
    (ofTokens tokens).isEnd id = true ↔ id = (ofTokens tokens).accept := by
  rw [isEnd_iff]
  constructor
  · rintro ⟨s, hs, hend⟩
    exact (flags_ofTokens hs).2.1 hend
  · rintro rfl
    have hlt : (ofTokens tokens).accept < (ofTokens tokens).states.size :=
      Nat.lt_of_succ_le (Nat.le_of_eq (size_ofTokens tokens).2)
    have hs := Array.getElem?_eq_getElem hlt
    exact ⟨_, hs, (flags_ofTokens hs).2.2 rfl⟩

end Automaton

end BytePattern
