import BytePattern.Automaton.Walk
import Mathlib.Computability.Language
import Mathlib.Order.CompletePartialOrder

set_option autoImplicit false

/-!
# Automata: the languages between states

The walks between two states spell a language, and what one more edge does to
all these languages is an equation in union, product and star: a walk in the
larger arena either avoids the edge, or comes to its source, follows it, returns
to it any number of times, and goes on from its target.  Everything that is said
later about assembled automata is calculated with this equation and its two
special cases, in which nothing leads into the source of the edge, or nothing
leads out of its target.
-/

namespace BytePattern

open Computability

/-- The byte strings that an edge with this label spells. -/
def Symbol.language : Symbol → Language UInt8
  | .byte b => {[b]}
  | .epsilon => 1
  | .startOfText => 0
  | .endOfText => 0

namespace Arena

/-- The byte strings that the walks between two states spell. -/
def language (arena : Arena) (s t : Nat) : Language UInt8 := {w | Walk arena s w t}

theorem mem_language {arena : Arena} {s t : Nat} {w : List UInt8} :
    w ∈ arena.language s t ↔ Walk arena s w t := Iff.rfl

/-- An edge followed by a walk is a walk. -/
theorem Walk.edge {arena : Arena} {s t u : Nat} {symbol : Symbol} {v w : List UInt8}
    (hedge : t ∈ arena.targets s symbol) (hv : v ∈ symbol.language) (h : Walk arena t w u) :
    Walk arena s (v ++ w) u := by
  cases symbol with
  | byte b =>
    obtain rfl : v = [b] := hv
    exact .byte hedge h
  | epsilon =>
    obtain rfl : v = [] := hv
    exact .epsilon hedge h
  | startOfText => exact absurd hv (Language.notMem_zero v)
  | endOfText => exact absurd hv (Language.notMem_zero v)

/-- What holds at the end of walks to a state, and before an edge if after it,
holds of all walks to that state. -/
theorem language_le {arena : Arena} {t : Nat} (bound : Nat → Language UInt8)
    (hend : 1 ≤ bound t)
    (hedge : ∀ {s u : Nat} {symbol : Symbol}, u ∈ arena.targets s symbol →
      symbol.language * bound u ≤ bound s) (s : Nat) : arena.language s t ≤ bound s := by
  intro w hw
  have hwalk : Walk arena s w t := hw
  clear hw
  induction hwalk with
  | refl => exact hend Language.nil_mem_one
  | epsilon he _ ih =>
    exact hedge he (Language.append_mem_mul Language.nil_mem_one (ih hend))
  | @byte s u t b w he _ ih =>
    have hb : [b] ∈ (Symbol.byte b).language := rfl
    exact hedge he (Language.append_mem_mul hb (ih hend))

theorem one_le_language (arena : Arena) (s : Nat) : 1 ≤ arena.language s s := by
  intro w hw
  obtain rfl : w = [] := hw
  exact .refl s

theorem edge_mul_language_le {arena : Arena} {s t u : Nat} {symbol : Symbol}
    (hedge : t ∈ arena.targets s symbol) :
    symbol.language * arena.language t u ≤ arena.language s u := by
  intro x hx
  obtain ⟨v, hv, w, hw, rfl⟩ := Language.mem_mul.1 hx
  exact Walk.edge hedge hv hw

theorem language_mul_language_le (arena : Arena) (s t u : Nat) :
    arena.language s t * arena.language t u ≤ arena.language s u := by
  intro x hx
  obtain ⟨v, hv, w, hw, rfl⟩ := Language.mem_mul.1 hx
  exact Walk.trans hv hw

theorem edge_language_le {arena : Arena} {s t : Nat} {symbol : Symbol}
    (hedge : t ∈ arena.targets s symbol) : symbol.language ≤ arena.language s t :=
  calc symbol.language
      = symbol.language * 1 := (mul_one _).symm
    _ ≤ symbol.language * arena.language t t := mul_le_mul_right (one_le_language arena t) _
    _ ≤ arena.language s t := edge_mul_language_le hedge

/-! ## One more edge -/

theorem language_le_link (arena : Arena) (a b : Nat) (symbol : Symbol) (s t : Nat) :
    arena.language s t ≤ (arena.link a symbol b).language s t := by
  refine language_le (fun s => (arena.link a symbol b).language s t) (one_le_language _ t) ?_ s
  intro s u label hedge
  exact edge_mul_language_le (mem_targets_link.2 (Or.inl hedge))

/-- A walk with the new edge avoids it, or meets it, returns to it, and goes on. -/
theorem language_link_le (arena : Arena) (a b : Nat) (symbol : Symbol) (s t : Nat) :
    (arena.link a symbol b).language s t ≤
      arena.language s t + arena.language s a * (symbol.language *
        ((arena.language b a * symbol.language)∗ * arena.language b t)) := by
  refine language_le (fun s => arena.language s t + arena.language s a * (symbol.language *
    ((arena.language b a * symbol.language)∗ * arena.language b t))) ?_ ?_ s
  · exact le_add_of_le_left (one_le_language arena t)
  · intro s u label hedge
    rcases mem_targets_link.1 hedge with hold | ⟨rfl, _, rfl, rfl⟩
    · rw [mul_add, ← mul_assoc]
      exact add_le_add (edge_mul_language_le hold)
        (mul_le_mul_left (edge_mul_language_le hold) _)
    · -- from the target on, either the edge is not met again or it is
      have hreturn : label.language * (arena.language u t + arena.language u s *
            (label.language * ((arena.language u s * label.language)∗ * arena.language u t))) =
          label.language * ((arena.language u s * label.language)∗ * arena.language u t) := by
        rw [← mul_assoc (arena.language u s), ← mul_assoc (arena.language u s * label.language),
          ← one_add_mul, one_add_mul_kstar]
      rw [hreturn]
      exact le_add_of_le_right (le_mul_of_one_le_left' (one_le_language arena s))

/-- Any number of rounds over the new edge, from its target. -/
theorem kstar_round_le {arena : Arena} {a : Nat} (ha : a < arena.size) (symbol : Symbol)
    (b : Nat) :
    (arena.language b a * symbol.language)∗ ≤ (arena.link a symbol b).language b b := by
  have hedge : symbol.language ≤ (arena.link a symbol b).language a b :=
    edge_language_le (mem_targets_link.2 (Or.inr ⟨rfl, ha, rfl, rfl⟩))
  apply kstar_le_of_mul_le_left (one_le_language _ b)
  calc (arena.link a symbol b).language b b * (arena.language b a * symbol.language)
      ≤ (arena.link a symbol b).language b b *
          ((arena.link a symbol b).language b a * (arena.link a symbol b).language a b) := by
        gcongr
        exact language_le_link arena a b symbol b a
    _ ≤ (arena.link a symbol b).language b b * (arena.link a symbol b).language b b := by
        gcongr
        exact language_mul_language_le _ b a b
    _ ≤ (arena.link a symbol b).language b b := language_mul_language_le _ b b b

/-- What an edge adds to the languages between states. -/
theorem language_link {arena : Arena} {a : Nat} (ha : a < arena.size) (symbol : Symbol)
    (b s t : Nat) :
    (arena.link a symbol b).language s t =
      arena.language s t + arena.language s a * (symbol.language *
        ((arena.language b a * symbol.language)∗ * arena.language b t)) := by
  apply le_antisymm (language_link_le arena a b symbol s t)
  have hedge : symbol.language ≤ (arena.link a symbol b).language a b :=
    edge_language_le (mem_targets_link.2 (Or.inr ⟨rfl, ha, rfl, rfl⟩))
  have hround := kstar_round_le ha symbol b
  apply add_le (language_le_link arena a b symbol s t)
  calc arena.language s a * (symbol.language *
        ((arena.language b a * symbol.language)∗ * arena.language b t))
      ≤ (arena.link a symbol b).language s a * ((arena.link a symbol b).language a b *
          ((arena.link a symbol b).language b b * (arena.link a symbol b).language b t)) := by
        gcongr
        · exact language_le_link arena a b symbol s a
        · exact language_le_link arena a b symbol b t
    _ ≤ (arena.link a symbol b).language s a * ((arena.link a symbol b).language a b *
          (arena.link a symbol b).language b t) := by
        gcongr
        exact language_mul_language_le _ b b t
    _ ≤ (arena.link a symbol b).language s a * (arena.link a symbol b).language a t := by
        gcongr
        exact language_mul_language_le _ a b t
    _ ≤ (arena.link a symbol b).language s t := language_mul_language_le _ s a t

/-- What an edge adds when no walk leads from its target back to its source. -/
theorem language_link_of_no_return {arena : Arena} {a b : Nat} (ha : a < arena.size)
    (symbol : Symbol) (hback : arena.language b a = 0) (s t : Nat) :
    (arena.link a symbol b).language s t =
      arena.language s t + arena.language s a * (symbol.language * arena.language b t) := by
  rw [language_link ha, hback, zero_mul, kstar_zero, one_mul]

/-! ## States that walks cannot leave or enter -/

/-- No walk leads out of a set of states that no edge leads out of. -/
theorem language_eq_zero {arena : Arena} (inside : Nat → Prop)
    (hclosed : ∀ {s t : Nat} {symbol : Symbol}, inside s → t ∈ arena.targets s symbol → inside t)
    {s t : Nat} (hs : inside s) (ht : ¬ inside t) : arena.language s t = 0 := by
  refine Language.ext fun w => iff_of_false (fun hw => ?_) (Language.notMem_zero w)
  have hwalk : Walk arena s w t := hw
  clear hw
  induction hwalk with
  | refl => exact ht hs
  | epsilon hedge _ ih => exact ih (hclosed hs hedge) ht
  | byte hedge _ ih => exact ih (hclosed hs hedge) ht

/-- Walks from a set of states that no edge leads out of depend on the edges of
these states alone. -/
theorem language_congr {arena other : Arena} (inside : Nat → Prop)
    (hclosed : ∀ {s t : Nat} {symbol : Symbol}, inside s → t ∈ arena.targets s symbol → inside t)
    (heq : ∀ {s : Nat} {symbol : Symbol}, inside s →
      other.targets s symbol = arena.targets s symbol)
    {s : Nat} (hs : inside s) (t : Nat) : other.language s t = arena.language s t := by
  refine Language.ext fun w => ⟨fun hw => ?_, fun hw => ?_⟩
  · have hwalk : Walk other s w t := hw
    clear hw
    induction hwalk with
    | refl s => exact .refl s
    | epsilon hedge _ ih =>
      rw [heq hs] at hedge
      exact .epsilon hedge (ih (hclosed hs hedge))
    | byte hedge _ ih =>
      rw [heq hs] at hedge
      exact .byte hedge (ih (hclosed hs hedge))
  · have hwalk : Walk arena s w t := hw
    clear hw
    induction hwalk with
    | refl s => exact .refl s
    | epsilon hedge _ ih =>
      exact .epsilon (heq hs ▸ hedge) (ih (hclosed hs hedge))
    | byte hedge _ ih =>
      exact .byte (heq hs ▸ hedge) (ih (hclosed hs hedge))

/-- No edge leads out of the state. -/
def Sink (arena : Arena) (id : Nat) : Prop := ∀ (t : Nat) (symbol : Symbol),
  t ∉ arena.targets id symbol

/-- From a sink there is only the walk that stays. -/
theorem Sink.language {arena : Arena} {s : Nat} (hs : Sink arena s) (t : Nat) :
    arena.language s t = if s = t then 1 else 0 := by
  split
  · rename_i heq
    subst heq
    refine Language.ext fun w => ⟨fun hw => ?_, fun hw => one_le_language arena s hw⟩
    cases (show Walk arena s w s from hw) with
    | refl => exact Language.nil_mem_one
    | epsilon hedge _ => exact absurd hedge (hs _ _)
    | byte hedge _ => exact absurd hedge (hs _ _)
  · rename_i hne
    exact language_eq_zero (fun u => u = s) (fun hu hedge => absurd (hu ▸ hedge) (hs _ _)) rfl
      (fun heq => hne heq.symm)

end Arena

end BytePattern
