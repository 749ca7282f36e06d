import BytePattern.Automaton.Basic

set_option autoImplicit false

/-!
# Automata: walks

A walk follows edges from state to state, any edge and as often as it likes, and
spells the bytes on the edges that it follows.  Walks know nothing of offsets,
of the order of edges or of a search.  A trail is the same with every label of
its edges recorded, and it may follow edges under any symbol; it is a walk once
its epsilon labels are dropped and bytes are left.  Walks along epsilon edges
alone are counted by their length.  A walk stays inside some states when it begins
in one of them and every edge that it follows leads to one of them.
-/

namespace BytePattern.Arena

/-- There is a walk between two states that spells the bytes. -/
inductive Walk (arena : Arena) : Nat → List UInt8 → Nat → Prop where
  | refl (s : Nat) : Walk arena s [] s
  | epsilon {s t u : Nat} {w : List UInt8} :
      t ∈ arena.targets s .epsilon → Walk arena t w u → Walk arena s w u
  | byte {s t u : Nat} {b : UInt8} {w : List UInt8} :
      t ∈ arena.targets s (.byte b) → Walk arena t w u → Walk arena s (b :: w) u

/-- There is a sequence of edges between two states with these labels. -/
inductive Trail (arena : Arena) : Nat → List Symbol → Nat → Prop where
  | refl (s : Nat) : Trail arena s [] s
  | step {s t u : Nat} {symbol : Symbol} {labels : List Symbol} :
      t ∈ arena.targets s symbol → Trail arena t labels u → Trail arena s (symbol :: labels) u

/-- There is a walk of so many epsilon edges between two states. -/
inductive EpsilonWalk (arena : Arena) : Nat → Nat → Nat → Prop where
  | refl (s : Nat) : EpsilonWalk arena 0 s s
  | step {n s t u : Nat} :
      t ∈ arena.targets s .epsilon → EpsilonWalk arena n t u → EpsilonWalk arena (n + 1) s u

/-- There is a walk between two states that spells the bytes and stays inside. -/
inductive WalkInside (arena : Arena) (inside : Nat → Prop) : Nat → List UInt8 → Nat → Prop where
  | refl {s : Nat} : inside s → WalkInside arena inside s [] s
  | epsilon {s t u : Nat} {w : List UInt8} : inside s →
      t ∈ arena.targets s .epsilon → WalkInside arena inside t w u →
      WalkInside arena inside s w u
  | byte {s t u : Nat} {b : UInt8} {w : List UInt8} : inside s →
      t ∈ arena.targets s (.byte b) → WalkInside arena inside t w u →
      WalkInside arena inside s (b :: w) u

/-- Walks compose. -/
theorem Walk.trans {arena : Arena} {s t u : Nat} {v w : List UInt8}
    (h₁ : Walk arena s v t) (h₂ : Walk arena t w u) : Walk arena s (v ++ w) u := by
  induction h₁ with
  | refl => exact h₂
  | epsilon hedge _ ih => exact .epsilon hedge (ih h₂)
  | byte hedge _ ih => exact .byte hedge (ih h₂)

/-- Where no edge leads out, walks that begin inside stay inside. -/
theorem walkInside_iff {arena : Arena} {inside : Nat → Prop}
    (hkept : ∀ {s t : Nat} {symbol : Symbol}, inside s → t ∈ arena.targets s symbol → inside t)
    {s t : Nat} {w : List UInt8} (hs : inside s) :
    WalkInside arena inside s w t ↔ Walk arena s w t := by
  constructor
  · intro h
    induction h with
    | refl _ => exact .refl _
    | epsilon hs hedge _ ih => exact .epsilon hedge (ih (hkept hs hedge))
    | byte hs hedge _ ih => exact .byte hedge (ih (hkept hs hedge))
  · intro h
    induction h with
    | refl s => exact .refl hs
    | epsilon hedge _ ih => exact .epsilon hs hedge (ih (hkept hs hedge))
    | byte hedge _ ih => exact .byte hs hedge (ih (hkept hs hedge))

/-- A walk is a trail whose labels other than epsilon are the bytes it spells. -/
theorem walk_iff_trail {arena : Arena} {s t : Nat} {w : List UInt8} :
    Walk arena s w t ↔
      ∃ labels, Trail arena s labels t ∧ labels.filter (· ≠ .epsilon) = w.map .byte := by
  constructor
  · intro h
    induction h with
    | refl s => exact ⟨[], .refl s, rfl⟩
    | epsilon hedge _ ih =>
      obtain ⟨labels, htrail, hspell⟩ := ih
      exact ⟨.epsilon :: labels, .step hedge htrail, by simpa using hspell⟩
    | @byte s t u b w hedge _ ih =>
      obtain ⟨labels, htrail, hspell⟩ := ih
      exact ⟨.byte b :: labels, .step hedge htrail, by simpa using hspell⟩
  · rintro ⟨labels, htrail, hspell⟩
    induction htrail generalizing w with
    | refl s =>
      obtain rfl : w = [] := by simpa using hspell.symm
      exact .refl s
    | @step s t u symbol labels hedge _ ih =>
      by_cases hsymbol : symbol = .epsilon
      · subst hsymbol
        exact .epsilon hedge (ih (by simpa using hspell))
      · rw [List.filter_cons_of_pos (by simpa using hsymbol)] at hspell
        cases w with
        | nil => exact nomatch hspell
        | cons b w =>
          obtain ⟨rfl, htail⟩ := List.cons.inj hspell
          exact .byte hedge (ih htail)

end BytePattern.Arena
