import BytePattern.Automaton.Assembly
import BytePattern.Proofs.Automaton.WalkLanguage

set_option autoImplicit false

/-!
# Automata: blocks of states

Assembling only appends: the states that were there stay as they are, and the
edges of the new states stay among the new states.  Walks that begin in a block
can therefore be studied in the block alone, and what is appended later can
change none of them until an edge is added to the block itself.  The entry and the
exit of a fragment are states of its block.
-/

namespace BytePattern

open Computability

namespace Arena

/-- The second arena is the first with a block of states appended whose edges do
not leave the block. -/
structure Appends (before after : Arena) : Prop where
  size_le : before.size ≤ after.size
  kept : ∀ {id : Nat}, id < before.size → after[id]? = before[id]?
  inside : ∀ {s t : Nat} {symbol : Symbol}, before.size ≤ s → t ∈ after.targets s symbol →
    before.size ≤ t ∧ t < after.size

theorem lt_size_of_mem_targets {arena : Arena} {s t : Nat} {symbol : Symbol}
    (h : t ∈ arena.targets s symbol) : s < arena.size := by
  obtain ⟨state, hstate, _⟩ := mem_targets_iff.1 h
  exact (Array.getElem?_eq_some_iff.1 hstate).1

/-- A state that is not there has no edges. -/
theorem targets_of_le {arena : Arena} {s : Nat} (hs : arena.size ≤ s) (symbol : Symbol) :
    arena.targets s symbol = [] := by
  unfold targets
  rw [Array.getElem?_eq_none_iff.2 hs]

theorem Appends.refl (arena : Arena) : Appends arena arena := by
  refine ⟨Nat.le_refl _, fun _ => rfl, fun hs ht => ?_⟩
  exact absurd (lt_size_of_mem_targets ht) (Nat.not_lt.2 hs)

section Appended

variable {first second third : Arena} {s t a b : Nat} {symbol : Symbol}

theorem Appends.targets_eq (h : Appends first second) (hs : s < first.size) :
    second.targets s symbol = first.targets s symbol := by
  unfold targets
  rw [h.kept hs]

theorem Appends.trans (h₁ : Appends first second) (h₂ : Appends second third) :
    Appends first third := by
  refine ⟨Nat.le_trans h₁.size_le h₂.size_le, fun hid => ?_, fun {s t symbol} hs ht => ?_⟩
  · rw [h₂.kept (Nat.lt_of_lt_of_le hid h₁.size_le), h₁.kept hid]
  · by_cases hlt : s < second.size
    · rw [h₂.targets_eq hlt] at ht
      obtain ⟨hlo, hhi⟩ := h₁.inside hs ht
      exact ⟨hlo, Nat.lt_of_lt_of_le hhi h₂.size_le⟩
    · obtain ⟨hlo, hhi⟩ := h₂.inside (Nat.not_lt.1 hlt) ht
      exact ⟨Nat.le_trans h₁.size_le hlo, hhi⟩

/-- No edge leads from a block into a newer one. -/
theorem Appends.not_mem_targets (h₁ : Appends first second) (h₂ : Appends second third)
    (hs : first.size ≤ s) (hs' : s < second.size) (ht : second.size ≤ t) :
    t ∉ third.targets s symbol := by
  intro hedge
  rw [h₂.targets_eq hs'] at hedge
  exact Nat.not_lt.2 ht (h₁.inside hs hedge).2

/-- An edge between two states of the block. -/
theorem Appends.link (h : Appends first second) (ha : first.size ≤ a) (hb : first.size ≤ b)
    (hb' : b < second.size) : Appends first (second.link a symbol b) := by
  refine ⟨by simpa using h.size_le, fun {id} hid => ?_, fun {s t label} hs ht => ?_⟩
  · have hne : a ≠ id := by omega
    rw [Arena.link, Array.getElem?_modify, if_neg hne, h.kept hid]
  · rw [size_link]
    rcases mem_targets_link.1 ht with hold | ⟨_, _, _, rfl⟩
    · exact h.inside hs hold
    · exact ⟨hb, hb'⟩

theorem targets_push (arena : Arena) (state : State) (hstate : state.edges = []) (s : Nat)
    (symbol : Symbol) : targets (arena.push state) s symbol = arena.targets s symbol := by
  have hnone : state.targets symbol = [] := by simp [State.targets, hstate]
  unfold targets
  rw [Array.getElem?_push]
  by_cases hs : s = arena.size
  · subst hs
    simp [hnone]
  · simp [hs]

/-- One more state without edges. -/
theorem Appends.push (h : Appends first second) (state : State) (hstate : state.edges = []) :
    Appends first (second.push state) := by
  have hsize : (second.push state).size = second.size + 1 := Array.size_push ..
  refine ⟨by have := h.size_le; omega, fun {id} hid => ?_, fun {s t label} hs ht => ?_⟩
  · have hlt : id < second.size := Nat.lt_of_lt_of_le hid h.size_le
    rw [Array.getElem?_push, if_neg (Nat.ne_of_lt hlt), h.kept hid]
  · rw [targets_push second state hstate] at ht
    obtain ⟨hlo, hhi⟩ := h.inside hs ht
    exact ⟨hlo, by omega⟩

@[simp] theorem size_addPair (arena : Arena) : arena.addPair.size = arena.size + 2 := by
  simp [addPair]

theorem Appends.addPair (h : Appends first second) : Appends first second.addPair :=
  (h.push .blank rfl).push .blank rfl

theorem targets_addPair (arena : Arena) (s : Nat) (symbol : Symbol) :
    arena.addPair.targets s symbol = arena.targets s symbol := by
  unfold Arena.addPair
  rw [targets_push _ .blank rfl, targets_push _ .blank rfl]

/-! ## Walks in blocks -/

/-- No walk leads from a block to the states before it. -/
theorem Appends.language_to_older (h : Appends first second) (hs : first.size ≤ s)
    (ht : t < first.size) : second.language s t = 0 :=
  language_eq_zero (fun u => first.size ≤ u) (fun hu hedge => (h.inside hu hedge).1) hs
    (Nat.not_le.2 ht)

/-- Walks in a block are unchanged by the blocks after it. -/
theorem Appends.language_eq (h₁ : Appends first second) (h₂ : Appends second third)
    (hs : first.size ≤ s) (hs' : s < second.size) (t : Nat) :
    third.language s t = second.language s t := by
  refine language_congr (fun u => first.size ≤ u ∧ u < second.size) ?_ ?_ ⟨hs, hs'⟩ t
  · intro u v label hu hedge
    exact h₁.inside hu.1 hedge
  · intro u label hu
    exact h₂.targets_eq hu.2

/-- No walk leads from a block to the states after it. -/
theorem Appends.language_to_newer (h₁ : Appends first second) (h₂ : Appends second third)
    (hs : first.size ≤ s) (hs' : s < second.size) (ht : second.size ≤ t) :
    third.language s t = 0 := by
  refine language_eq_zero (fun u => first.size ≤ u ∧ u < second.size) ?_ ⟨hs, hs'⟩
    (fun hin => Nat.not_lt.2 ht hin.2)
  intro u v label hu hedge
  rw [h₂.targets_eq hu.2] at hedge
  exact h₁.inside hu.1 hedge

/-- No edge of the block appended to `before` leads into the state. -/
def Source (before after : Arena) (id : Nat) : Prop :=
  ∀ (s : Nat) (symbol : Symbol), before.size ≤ s → id ∉ after.targets s symbol

/-- A source is reached by the walk that stays and by no other. -/
theorem Source.language (hsource : Source first second t) (h : Appends first second)
    (ht : first.size ≤ t) (hs : first.size ≤ s) :
    second.language s t = if s = t then 1 else 0 := by
  have hzero : ∀ {u : Nat}, first.size ≤ u → u ≠ t → second.language u t = 0 := by
    intro u hu hne
    refine language_eq_zero (fun v => first.size ≤ v ∧ v ≠ t) ?_ ⟨hu, hne⟩ (fun hin => hin.2 rfl)
    intro v v' label hv hedge
    exact ⟨(h.inside hv.1 hedge).1, fun heq => hsource v label hv.1 (heq ▸ hedge)⟩
  split
  · rename_i heq
    subst heq
    have hback : ∀ {u : Nat} {label : Symbol} {w : List UInt8}, u ∈ second.targets s label →
        ¬ Walk second u w s := by
      intro u label w hedge hwalk
      have hne : u ≠ s := fun heq => hsource s label hs (heq ▸ hedge)
      have hmem : w ∈ second.language u s := hwalk
      rw [hzero (h.inside hs hedge).1 hne] at hmem
      exact Language.notMem_zero w hmem
    refine Language.ext fun w => ⟨fun hw => ?_, fun hw => one_le_language second s hw⟩
    cases (show Walk second s w s from hw) with
    | refl => exact Language.nil_mem_one
    | epsilon hedge hwalk => exact absurd hwalk (hback hedge)
    | byte hedge hwalk => exact absurd hwalk (hback hedge)
  · rename_i hne
    exact hzero hs hne

theorem Source.appends (h : Source first second s) (hs : s < second.size)
    (h₂ : Appends second third) : Source first third s := by
  intro u symbol hu hedge
  by_cases hlt : u < second.size
  · rw [h₂.targets_eq hlt] at hedge
    exact h u symbol hu hedge
  · exact Nat.not_lt.2 (h₂.inside (Nat.not_lt.1 hlt) hedge).1 hs

theorem Sink.appends (h : Sink second s) (hs : s < second.size) (h₂ : Appends second third) :
    Sink third s := by
  intro u symbol hedge
  rw [h₂.targets_eq hs] at hedge
  exact h u symbol hedge

theorem sink_addPair {arena : Arena} (hs : arena.size ≤ s) : Sink arena.addPair s := by
  intro u symbol hedge
  rw [targets_addPair] at hedge
  exact absurd (lt_size_of_mem_targets hedge) (Nat.not_lt.2 hs)

theorem source_addPair {arena : Arena} (h : Appends first arena) (hs : arena.size ≤ s) :
    Source first arena.addPair s := by
  intro u symbol hu hedge
  rw [targets_addPair] at hedge
  exact Nat.not_lt.2 hs (h.inside hu hedge).2

end Appended


/-! ## One more epsilon edge -/

theorem mem_targets_join {arena : Arena} {a b s t : Nat} {symbol : Symbol} :
    t ∈ (arena.join a b).targets s symbol ↔
      t ∈ arena.targets s symbol ∨ (s = a ∧ a < arena.size ∧ symbol = .epsilon ∧ t = b) :=
  mem_targets_link

theorem targets_join_of_ne {arena : Arena} {a b s : Nat} (hs : s ≠ a) (symbol : Symbol) :
    (arena.join a b).targets s symbol = arena.targets s symbol := by
  unfold join
  rw [targets_link, if_neg (fun h => hs h.1), List.append_nil]

@[simp] theorem size_join (arena : Arena) (a b : Nat) : (arena.join a b).size = arena.size :=
  size_link ..

theorem size_fork (arena : Arena) (f g : Fragment) : (arena.fork f g).2.size = arena.size + 2 := by
  simp [fork_eq, openFork]

/-- What an epsilon edge adds when no walk leads from its target back to its
source. -/
theorem language_join {arena : Arena} {a b : Nat} (ha : a < arena.size)
    (hback : arena.language b a = 0) (s t : Nat) :
    (arena.join a b).language s t =
      arena.language s t + arena.language s a * arena.language b t := by
  unfold join
  rw [language_link_of_no_return ha _ hback, Symbol.language, one_mul]

/-- What an epsilon edge adds that closes a loop. -/
theorem language_join_loop {arena : Arena} {a b : Nat} (ha : a < arena.size) (s t : Nat) :
    (arena.join a b).language s t = arena.language s t +
      arena.language s a * ((arena.language b a)∗ * arena.language b t) := by
  unfold join
  rw [language_link ha, Symbol.language, one_mul, mul_one]

section

variable {first second : Arena} {id a b s t : Nat}

theorem Source.join (h : Source first second id) (hne : id ≠ b) :
    Source first (second.join a b) id := by
  intro u symbol hu hedge
  rcases mem_targets_join.1 hedge with hold | ⟨_, _, _, heq⟩
  · exact h u symbol hu hold
  · exact hne heq

theorem Sink.join (h : Sink second id) (hne : id ≠ a) : Sink (second.join a b) id := by
  intro u symbol hedge
  rcases mem_targets_join.1 hedge with hold | ⟨heq, _, _, _⟩
  · exact h u symbol hold
  · exact hne heq

/-- An epsilon edge out of a source reaches from there what is reached from its
target. -/
theorem language_join_source (h : Appends first second) (hsource : Source first second a)
    (ha : first.size ≤ a) (ha' : a < second.size) (hb : first.size ≤ b) (hne : b ≠ a) :
    (second.join a b).language a t = second.language a t + second.language b t := by
  have hback : second.language b a = 0 := by rw [hsource.language h ha hb, if_neg hne]
  rw [language_join ha' hback, hsource.language h ha ha, if_pos rfl, one_mul]

theorem language_join_source_of_ne (h : Appends first second) (hsource : Source first second a)
    (ha : first.size ≤ a) (ha' : a < second.size) (hb : first.size ≤ b) (hne : b ≠ a)
    (hs : first.size ≤ s) (hs' : s ≠ a) :
    (second.join a b).language s t = second.language s t := by
  have hback : second.language b a = 0 := by rw [hsource.language h ha hb, if_neg hne]
  rw [language_join ha' hback, hsource.language h ha hs, if_neg hs', zero_mul, add_zero]

/-- An epsilon edge into a sink leads there from where its source is reached. -/
theorem language_join_sink (hsink : Sink second b) (ha : a < second.size) (hne : b ≠ a) :
    (second.join a b).language s b = second.language s b + second.language s a := by
  have hback : second.language b a = 0 := by rw [hsink.language, if_neg hne]
  rw [language_join ha hback, hsink.language, if_pos rfl, mul_one]

theorem language_join_sink_of_ne (hsink : Sink second b) (ha : a < second.size) (hne : b ≠ a)
    (ht : b ≠ t) : (second.join a b).language s t = second.language s t := by
  have hback : second.language b a = 0 := by rw [hsink.language, if_neg hne]
  rw [language_join ha hback, hsink.language t, if_neg ht, mul_zero, add_zero]

end

end Arena

/-! ## Fragments in blocks -/

/-- A block was appended, and the fragment is two different states of it. -/
structure Fragment.Within (f : Fragment) (before after : Arena) : Prop where
  appends : Arena.Appends before after
  entry_ge : before.size ≤ f.entry
  entry_lt : f.entry < after.size
  exit_ge : before.size ≤ f.exit
  exit_lt : f.exit < after.size
  entry_ne_exit : f.entry ≠ f.exit

namespace Arena

section

variable {base before after : Arena} {f g : Fragment} {a b : Nat}

/-- An edge between two states of the block. -/
theorem within_link (h : f.Within before after) (ha : before.size ≤ a) (hb : before.size ≤ b)
    (hb' : b < after.size) (symbol : Symbol) : f.Within before (after.link a symbol b) := by
  refine ⟨h.appends.link ha hb hb', h.entry_ge, ?_, h.exit_ge, ?_, h.entry_ne_exit⟩
  · rw [size_link]
    exact h.entry_lt
  · rw [size_link]
    exact h.exit_lt

/-- A block after the block. -/
theorem within_appends {later : Arena} (h : f.Within before after) (hlater : Appends after later) :
    f.Within before later :=
  ⟨h.appends.trans hlater, h.entry_ge, Nat.lt_of_lt_of_le h.entry_lt hlater.size_le, h.exit_ge,
    Nat.lt_of_lt_of_le h.exit_lt hlater.size_le, h.entry_ne_exit⟩

/-- Two more states after a block. -/
theorem within_addPair (h : Appends before after) : after.pair.Within before after.addPair := by
  have hle : before.size ≤ after.size := h.size_le
  have hsize : after.addPair.size = after.size + 2 := size_addPair after
  have hentry : after.pair.entry = after.size := rfl
  have hexit : after.pair.exit = after.size + 1 := rfl
  exact ⟨h.addPair, by omega, by omega, by omega, by omega, by omega⟩

/-- Two blocks one after the other, linked. -/
theorem within_join (hf : f.Within base before) (hg : g.Within before after) :
    Fragment.Within ⟨f.entry, g.exit⟩ base (after.join f.exit g.entry) := by
  have hle : base.size ≤ before.size := hf.appends.size_le
  have hentry : f.entry < before.size := hf.entry_lt
  have hexit : before.size ≤ g.exit := hg.exit_ge
  have hlt : g.exit < after.size := hg.exit_lt
  have hboth : Fragment.Within ⟨f.entry, g.exit⟩ base after :=
    ⟨hf.appends.trans hg.appends, hf.entry_ge, Nat.lt_trans hentry (Nat.lt_of_le_of_lt hexit hlt),
      Nat.le_trans hle hexit, hlt, Nat.ne_of_lt (Nat.lt_of_lt_of_le hentry hexit)⟩
  exact within_link hboth hf.exit_ge (Nat.le_trans hle hg.entry_ge) hg.entry_lt .epsilon

end

end Arena

end BytePattern
