import BytePattern.Automaton.Dot
import Mathlib.Data.List.Basic

set_option autoImplicit false

/-!
# Automata: reading the graph text back

The graph text of an automaton is a list of lines, and the text gives the list back: no
line has a line break inside, the digits of a number end where no digit stands, and the
printable form of a byte is that of no other.  The lines give the states back: each state
has a line of its own followed by the lines of its edges, and the edges under one symbol
stand in their order.
-/

namespace BytePattern

open Text (decimal)

/-! ## Where a text divides -/

/-- A list has one division only into elements that pass a test and a rest that begins
with one that fails it. -/
theorem Text.division_unique {α : Type} {p : α → Bool} {xs ys r s : List α}
    (hxs : ∀ x ∈ xs, p x = true) (hys : ∀ y ∈ ys, p y = true)
    (hr : ∀ x ∈ r.head?, p x = false) (hs : ∀ x ∈ s.head?, p x = false)
    (h : xs ++ r = ys ++ s) : xs = ys ∧ r = s := by
  have htake : ∀ {zs t : List α}, (∀ z ∈ zs, p z = true) → (∀ x ∈ t.head?, p x = false) →
      (zs ++ t).takeWhile p = zs := by
    intro zs t hzs ht
    rw [List.takeWhile_append_of_pos hzs]
    cases t with
    | nil => rw [List.takeWhile_nil, List.append_nil]
    | cons x t => rw [List.takeWhile_cons_of_neg (by simp [ht x rfl]), List.append_nil]
  have hsame : xs = ys := by rw [← htake hxs hr, h, htake hys hs]
  subst hsame
  exact ⟨rfl, List.append_cancel_left h⟩

/-- Texts that have no line break, each with one behind it, are given back by all of them
together. -/
theorem Text.lines_unique {xs ys : List (List Char)} (hxs : ∀ x ∈ xs, '\n' ∉ x)
    (hys : ∀ y ∈ ys, '\n' ∉ y)
    (h : (xs.flatMap fun x => x ++ ['\n']) = ys.flatMap fun y => y ++ ['\n']) : xs = ys := by
  induction xs generalizing ys with
  | nil =>
    cases ys with
    | nil => rfl
    | cons y ys => simp at h
  | cons x xs ih =>
    cases ys with
    | nil => simp at h
    | cons y ys =>
      obtain ⟨hx, hxs⟩ := List.forall_mem_cons.1 hxs
      obtain ⟨hy, hys⟩ := List.forall_mem_cons.1 hys
      simp only [List.flatMap_cons, List.append_assoc, List.singleton_append] at h
      have hsplit := Text.division_unique (p := fun c => c ≠ '\n')
        (fun c hc => decide_eq_true fun heq => hx (heq ▸ hc))
        (fun c hc => decide_eq_true fun heq => hy (heq ▸ hc)) (by simp) (by simp) h
      rw [hsplit.1, ih hxs hys (List.cons.inj hsplit.2).2]

theorem Text.isDigit_of_mem_decimal {n : Nat} {c : Char} (h : c ∈ decimal n) :
    c.isDigit = true :=
  Nat.isDigit_of_mem_toDigits (by decide) (by decide) h

/-- Digits with something else behind them give back their number and what is behind. -/
theorem Text.decimal_append_inj {m n : Nat} {r s : List Char}
    (hr : ∀ c ∈ r.head?, c.isDigit = false) (hs : ∀ c ∈ s.head?, c.isDigit = false)
    (h : decimal m ++ r = decimal n ++ s) : m = n ∧ r = s := by
  obtain ⟨hdigits, hrest⟩ := Text.division_unique (fun _ => Text.isDigit_of_mem_decimal)
    (fun _ => Text.isDigit_of_mem_decimal) hr hs h
  exact ⟨Text.decimal_injective hdigits, hrest⟩

/-! ## The printable form of a byte -/

namespace Byte

/-- The value of a hexadecimal digit. -/
def hexValue (c : Char) : Nat := if c.isDigit then c.toNat - 48 else c.toNat - 87

/-- The value of the byte that has this printable form. -/
def unescape : List Char → Nat
  | [c] => c.toNat
  | ['\\', 't'] => 0x09
  | ['\\', 'n'] => 0x0a
  | ['\\', 'r'] => 0x0d
  | ['\\', c] => c.toNat
  | ['\\', 'x', high, low] => 16 * hexValue high + hexValue low
  | _ => 0

theorem hexValue_digitChar : ∀ n < 16, hexValue (Nat.digitChar n) = n := by decide

theorem toNat_ofUInt8 (b : UInt8) : (Char.ofUInt8 b).toNat = b.toNat := UInt8.toNat_toUInt32 b

/-- The printable form of a byte gives the byte back. -/
theorem unescape_escape (b : UInt8) : unescape (escape b) = b.toNat := by
  unfold escape
  split
  · rename_i htab
    rw [htab]
    rfl
  split
  · rename_i hbreak
    rw [hbreak]
    rfl
  split
  · rename_i hreturn
    rw [hreturn]
    rfl
  split
  · rename_i hslash
    rcases hslash with rfl | rfl | rfl <;> rfl
  split
  · exact toNat_ofUInt8 b
  · have hlt : b.toNat < 256 := b.toNat_lt
    show 16 * hexValue _ + hexValue _ = b.toNat
    rw [hexValue_digitChar _ (by omega), hexValue_digitChar _ (by omega)]
    omega

theorem escape_injective {b c : UInt8} (h : escape b = escape c) : b = c := by
  rw [← UInt8.toNat_inj, ← unescape_escape b, ← unescape_escape c, h]

/-- A printable form has no line break. -/
theorem newline_not_mem_escape (b : UInt8) : '\n' ∉ escape b := by
  have hdigit : ∀ n < 16, Nat.digitChar n ≠ '\n' := by decide
  unfold escape
  split
  · decide
  split
  · decide
  split
  · decide
  split
  · rename_i hslash
    rcases hslash with rfl | rfl | rfl <;> decide
  split
  · rename_i hprintable
    intro hmem
    have hcode : b.toNat = 10 := by
      rw [← toNat_ofUInt8 b, ← List.mem_singleton.1 hmem]
      rfl
    have hlow : 32 ≤ b.toNat := UInt8.le_iff_toNat_le.1 hprintable.1
    omega
  · have hlt : b.toNat < 256 := b.toNat_lt
    have hhigh := (hdigit (b.toNat / 16) (by omega)).symm
    have hlow := (hdigit (b.toNat % 16) (by omega)).symm
    simp [hhigh, hlow]

/-- A printable form is no name of a mark: it has one, two or four characters. -/
theorem length_escape (b : UInt8) : (escape b).length ≠ 3 := by
  unfold escape
  repeat' split
  all_goals simp

end Byte

/-- A symbol is the only one that is shown as it is. -/
theorem Symbol.spelling_injective {s t : Symbol} (h : s.spelling = t.spelling) : s = t := by
  have hbyte : ∀ {b : UInt8} {t : Symbol}, Byte.escape b = t.spelling → .byte b = t := by
    intro b t h
    cases t with
    | byte c => rw [Byte.escape_injective h]
    | startOfText => exact absurd (congrArg List.length h) (Byte.length_escape b)
    | endOfText => exact absurd (congrArg List.length h) (Byte.length_escape b)
    | epsilon =>
      have hcode : 'ε'.toNat = b.toNat := by
        rw [← Byte.unescape_escape b, h]
        rfl
      exact absurd b.toNat_lt (hcode ▸ by decide)
  cases t with
  | byte c => exact (hbyte h.symm).symm
  | startOfText =>
    cases s with
    | byte b => exact hbyte h
    | startOfText => rfl
    | endOfText => exact absurd h (by decide)
    | epsilon => exact absurd h (by decide)
  | endOfText =>
    cases s with
    | byte b => exact hbyte h
    | startOfText => exact absurd h (by decide)
    | endOfText => rfl
    | epsilon => exact absurd h (by decide)
  | epsilon =>
    cases s with
    | byte b => exact hbyte h
    | startOfText => exact absurd h (by decide)
    | endOfText => exact absurd h (by decide)
    | epsilon => rfl

theorem Symbol.newline_not_mem_spelling (s : Symbol) : '\n' ∉ s.spelling := by
  cases s with
  | byte b => exact Byte.newline_not_mem_escape b
  | startOfText => decide
  | endOfText => decide
  | epsilon => decide

/-! ## Lines -/

namespace Automaton

/-- What the line of a state says of it besides its number. -/
inductive Role where
  | start
  | accept
  | inner
  deriving DecidableEq, Repr

/-- The attributes of a node, after its label. -/
def Role.look : Role → List Char
  | .start => "][fillcolor=green]".toList
  | .accept => " shape=doublecircle]".toList
  | .inner => "][fillcolor=\"#EEEEEE\" fontcolor=\"#888888\"]".toList

theorem Role.look_injective {r s : Role} (h : r.look = s.look) : r = s := by
  cases r <;> cases s <;> first | rfl | exact absurd h (by decide)

end Automaton

/-- How a state is shown.  A state that is flagged as the start is shown as the start,
whatever its other flag says. -/
def State.role (s : State) : Automaton.Role :=
  if s.isStart then .start else if s.isEnd then .accept else .inner

namespace Automaton

/-- A line of the graph text: that of a state, or that of an edge. -/
inductive Line where
  | node (id : Nat) (role : Role)
  | edge (source : Nat) (symbol : Symbol) (target : Nat)
  deriving DecidableEq, Repr

/-- The text of a line, without the line break behind it. -/
def Line.text : Line → List Char
  | .node id role => nodeName id ++ ("[label=\"".toList ++ (decimal id ++ '\x22' :: role.look))
  | .edge source symbol target =>
    nodeName source ++ (" -> ".toList ++ (nodeName target ++ edgeLook symbol))

/-- The lines of the edges of a state. -/
def edgeLines (id : Nat) (s : State) : List Line :=
  s.transitions.flatMap fun t => t.2.map fun target => .edge id t.1 target

/-- The lines of states that are numbered from a number on. -/
def linesFrom : Nat → List State → List Line
  | _, [] => []
  | id, s :: states => .node id s.role :: (edgeLines id s ++ linesFrom (id + 1) states)

theorem nodeLook_eq (s : State) : nodeLook s = s.role.look := by
  unfold nodeLook State.role
  split
  · rfl
  · split <;> rfl

theorem stateLines_eq (id : Nat) (s : State) :
    stateLines id s =
      (Line.node id s.role :: edgeLines id s).flatMap fun l => l.text ++ ['\n'] := by
  unfold stateLines edgeLines nodeLine
  rw [nodeLook_eq]
  simp [Line.text, edgeLine, List.flatMap_assoc, List.flatMap_map]

/-- The text of the states is that of their lines. -/
theorem body_eq (a : Automaton) :
    a.body = (linesFrom 0 a.states.toList).flatMap fun l => l.text ++ ['\n'] := by
  have hfrom : ∀ (states : List State) (id : Nat),
      (states.zipIdx id).flatMap (fun s => stateLines s.2 s.1) =
        (linesFrom id states).flatMap fun l => l.text ++ ['\n'] := by
    intro states
    induction states with
    | nil => exact fun _ => rfl
    | cons s states ih =>
      intro id
      rw [List.zipIdx_cons, List.flatMap_cons, ih, stateLines_eq, linesFrom, ← List.cons_append,
        List.flatMap_append]
  exact hfrom a.states.toList 0

theorem nodeName_append (id : Nat) (rest : List Char) :
    nodeName id ++ rest = "node_".toList ++ (decimal id ++ rest) := List.append_assoc _ _ _

theorem newline_not_mem_nodeName (id : Nat) : '\n' ∉ nodeName id := by
  unfold nodeName
  rw [List.mem_append]
  rintro (h | h)
  · exact absurd h (by decide)
  · exact absurd (Text.isDigit_of_mem_decimal h) (by decide)

theorem newline_not_mem_edgeLook (symbol : Symbol) : '\n' ∉ edgeLook symbol := by
  unfold edgeLook
  split
  · decide
  · simp [symbol.newline_not_mem_spelling]

/-- No line breaks inside. -/
theorem Line.newline_not_mem_text (l : Line) : '\n' ∉ l.text := by
  cases l with
  | node id role =>
    have hlook : '\n' ∉ role.look := by cases role <;> decide
    have hid : '\n' ∉ decimal id := fun h =>
      absurd (Text.isDigit_of_mem_decimal h) (by decide)
    simp [Line.text, newline_not_mem_nodeName, hlook, hid]
  | edge source symbol target =>
    simp [Line.text, newline_not_mem_nodeName, newline_not_mem_edgeLook]

theorem edgeLook_injective {s t : Symbol} (h : edgeLook s = edgeLook t) : s = t := by
  have hdashed : ∀ symbol : Symbol, "[style=dashed]".toList ≠
      "[label=\"".toList ++ symbol.spelling ++ "\"]".toList := by
    intro symbol heq
    have hsecond : some 's' = some 'l' := congrArg (fun look => look[1]?) heq
    exact absurd hsecond (by decide)
  unfold edgeLook at h
  split at h <;> split at h
  · rename_i hs ht
    rw [hs, ht]
  · exact absurd h (hdashed t)
  · exact absurd h.symm (hdashed s)
  · rw [List.append_left_inj, List.append_right_inj] at h
    exact Symbol.spelling_injective h

/-- Behind the name of its node the line of a state goes on otherwise than that of an edge. -/
theorem Line.node_text_ne (id : Nat) (role : Role) (source : Nat) (symbol : Symbol)
    (target : Nat) : (Line.node id role).text ≠ (Line.edge source symbol target).text := by
  intro h
  rw [Line.text, Line.text, nodeName_append, nodeName_append] at h
  have hrest := (Text.decimal_append_inj (by simp) (by simp) (List.append_cancel_left h)).2
  have hhead : some '[' = some ' ' := congrArg List.head? hrest
  exact absurd hhead (by decide)

/-- A line is the only one with its text. -/
theorem Line.text_injective {l k : Line} (h : l.text = k.text) : l = k := by
  cases l with
  | node id role =>
    cases k with
    | node id' role' =>
      rw [Line.text, Line.text, nodeName_append, nodeName_append] at h
      obtain ⟨rfl, hrest⟩ :=
        Text.decimal_append_inj (by simp) (by simp) (List.append_cancel_left h)
      have hlook := List.append_cancel_left (List.append_cancel_left hrest)
      rw [Role.look_injective (List.cons.inj hlook).2]
    | edge source symbol target => exact absurd h (Line.node_text_ne id role source symbol target)
  | edge source symbol target =>
    cases k with
    | node id' role' => exact absurd h.symm (Line.node_text_ne id' role' source symbol target)
    | edge source' symbol' target' =>
      simp only [Line.text, nodeName_append] at h
      obtain ⟨rfl, hrest⟩ :=
        Text.decimal_append_inj (by simp) (by simp) (List.append_cancel_left h)
      have htarget := List.append_cancel_left (List.append_cancel_left hrest)
      have hlook : ∀ symbol, ∀ c ∈ (edgeLook symbol).head?, c.isDigit = false := by
        intro symbol
        unfold edgeLook
        split <;> simp
      obtain ⟨rfl, hlabel⟩ := Text.decimal_append_inj (hlook _) (hlook _) htarget
      rw [edgeLook_injective hlabel]

/-! ## States -/

/-- The destination of an edge under the symbol. -/
def Line.target? (symbol : Symbol) : Line → Option Nat
  | .edge _ label target => if label = symbol then some target else none
  | .node _ _ => none

theorem filterMap_edges (symbol label : Symbol) (id : Nat) (targets : List Nat) :
    (targets.map fun target => Line.edge id label target).filterMap (Line.target? symbol) =
      if label = symbol then targets else [] := by
  rw [List.filterMap_map]
  split
  · rename_i hlabel
    have hkeep : Line.target? symbol ∘ Line.edge id label = some := by
      funext target
      simp [Line.target?, hlabel]
    rw [hkeep, List.filterMap_some]
  · rename_i hlabel
    have hdrop : Line.target? symbol ∘ Line.edge id label = fun _ => none := by
      funext target
      simp [Line.target?, hlabel]
    rw [hdrop, List.filterMap_none]

/-- Of lists under different symbols one is chosen by its symbol. -/
theorem flatMap_ite {symbols : List Symbol} (hnodup : symbols.Nodup) (f : Symbol → List Nat)
    (symbol : Symbol) :
    (symbols.flatMap fun label => if label = symbol then f label else []) =
      if symbol ∈ symbols then f symbol else [] := by
  induction symbols with
  | nil => rfl
  | cons label symbols ih =>
    obtain ⟨hlabel, hnodup⟩ := List.nodup_cons.1 hnodup
    rw [List.flatMap_cons, ih hnodup]
    by_cases hsame : label = symbol
    · subst hsame
      simp [hlabel]
    · simp [hsame, Ne.symm hsame]

theorem nodup_all : Symbol.all.Nodup := by
  have hbytes : (ByteSet.alphabet.map Symbol.byte).Nodup := by
    refine List.Pairwise.map _ (fun a b hlt heq => ?_) ByteSet.alphabet_ascending
    exact UInt8.lt_irrefl b (Symbol.byte.inj heq ▸ hlt)
  unfold Symbol.all
  rw [List.nodup_append]
  refine ⟨hbytes, by decide, fun a ha b hb heq => ?_⟩
  obtain ⟨c, _, rfl⟩ := List.mem_map.1 ha
  subst heq
  simp at hb

/-- The destinations under a symbol stand in their order among the edges of the state. -/
theorem filterMap_edgeLines (id : Nat) (s : State) (symbol : Symbol) :
    (edgeLines id s).filterMap (Line.target? symbol) = s.targets symbol := by
  have hlisted : symbol ∉ (Symbol.all.filter fun label => s.edges.any fun e => e.symbol = label) →
      s.targets symbol = [] := by
    intro hnot
    simpa [State.targets, symbol.mem_all] using hnot
  unfold edgeLines
  rw [List.filterMap_flatMap]
  simp only [filterMap_edges]
  unfold State.transitions
  rw [List.flatMap_map, flatMap_ite (nodup_all.filter _) s.targets symbol]
  split
  · rfl
  · rename_i hnot
    exact (hlisted hnot).symm

/-- The table of the edges of a state is made of its destinations alone. -/
theorem transitions_congr {s t : State} (h : ∀ symbol, s.targets symbol = t.targets symbol) :
    s.transitions = t.transitions := by
  have hany : ∀ (u : State) (symbol : Symbol),
      (u.edges.any fun e => e.symbol = symbol) = !(u.targets symbol).isEmpty := by
    intro u symbol
    rw [Bool.eq_iff_iff]
    simp [State.targets]
  unfold State.transitions
  simp only [hany, h]

/-- A line of an edge. -/
def Line.isEdge : Line → Bool
  | .edge _ _ _ => true
  | .node _ _ => false

/-- The lines of states are those of no other states: the lines of the edges of a state end
where that of the next state stands. -/
theorem linesFrom_unique {xs ys : List State} {id : Nat} (h : linesFrom id xs = linesFrom id ys) :
    xs.map State.role = ys.map State.role ∧
      xs.map State.transitions = ys.map State.transitions := by
  have hedges : ∀ (id : Nat) (s : State), ∀ l ∈ edgeLines id s, l.isEdge = true := by
    intro id s l hl
    obtain ⟨t, _, ht⟩ := List.mem_flatMap.1 hl
    obtain ⟨target, _, rfl⟩ := List.mem_map.1 ht
    rfl
  have hnext : ∀ (id : Nat) (states : List State), ∀ l ∈ (linesFrom id states).head?,
      l.isEdge = false := by
    intro id states l hl
    cases states with
    | nil => exact nomatch hl
    | cons s states =>
      obtain rfl := Option.some.inj hl
      rfl
  induction xs generalizing ys id with
  | nil =>
    cases ys with
    | nil => exact ⟨rfl, rfl⟩
    | cons t ys => exact nomatch h
  | cons s xs ih =>
    cases ys with
    | nil => exact nomatch h
    | cons t ys =>
      obtain ⟨hnode, hrest⟩ := List.cons.inj h
      obtain ⟨hsame, hlater⟩ := Text.division_unique (hedges id s) (hedges id t) (hnext _ xs)
        (hnext _ ys) hrest
      have htransitions : s.transitions = t.transitions := by
        refine transitions_congr fun symbol => ?_
        rw [← filterMap_edgeLines id s, hsame, filterMap_edgeLines]
      obtain ⟨hroles, htables⟩ := ih hlater
      simp only [List.map_cons]
      rw [(Line.node.inj hnode).2, htransitions, hroles, htables]
      exact ⟨rfl, rfl⟩

/-- The graph text gives back how each state is flagged and the table of its edges. -/
theorem states_of_dot {a b : Automaton} (h : a.dot = b.dot) :
    a.states.toList.map State.role = b.states.toList.map State.role ∧
      a.states.toList.map State.transitions = b.states.toList.map State.transitions := by
  have hbody : a.body = b.body := by
    have htext := congrArg String.toList h
    simpa [dot] using htext
  have hlines : (linesFrom 0 a.states.toList).map Line.text =
      (linesFrom 0 b.states.toList).map Line.text := by
    rw [body_eq, body_eq] at hbody
    refine Text.lines_unique ?_ ?_ (by simpa only [List.flatMap_map] using hbody)
    · exact List.forall_mem_map.2 fun l _ => l.newline_not_mem_text
    · exact List.forall_mem_map.2 fun l _ => l.newline_not_mem_text
  exact linesFrom_unique (List.map_injective_iff.2 (fun _ _ => Line.text_injective) hlines)

/-- So there are as many states, and each has the same table. -/
theorem transitions_of_dot {a b : Automaton} (h : a.dot = b.dot) :
    a.size = b.size ∧
      ∀ id : Nat, (a.state? id).map State.transitions = (b.state? id).map State.transitions := by
  obtain ⟨_, htables⟩ := states_of_dot h
  refine ⟨?_, fun id => ?_⟩
  · have hlength := congrArg List.length htables
    simpa [size] using hlength
  · have hentry := congrArg (·[id]?) htables
    simpa [state?] using hentry

end Automaton

end BytePattern
