import BytePattern.Automaton.Basic
import BytePattern.Text

set_option autoImplicit false

/-!
# Automata: the graph text

An automaton is shown as a graph in the DOT language: one line for each state,
followed by one line for each of its edges, ordered by symbol and, under one
symbol, oldest first.  The start is green, the end a double circle, an epsilon
edge dashed, and every other edge carries its symbol.
-/

namespace BytePattern

open Text (decimal)

namespace Automaton

/-- The name of the node of a state. -/
def nodeName (id : Nat) : List Char := "node_".toList ++ decimal id

/-- The attributes of the node of a state, after its label. -/
def nodeLook (s : State) : List Char :=
  if s.isStart then "][fillcolor=green]".toList
  else if s.isEnd then " shape=doublecircle]".toList
  else "][fillcolor=\"#EEEEEE\" fontcolor=\"#888888\"]".toList

/-- The line of a state. -/
def nodeLine (id : Nat) (s : State) : List Char :=
  nodeName id ++ "[label=\"".toList ++ decimal id ++ '\x22' :: nodeLook s ++ ['\n']

/-- The attributes of an edge. -/
def edgeLook (symbol : Symbol) : List Char :=
  if symbol = .epsilon then "[style=dashed]".toList
  else "[label=\"".toList ++ symbol.spelling ++ "\"]".toList

/-- The line of an edge. -/
def edgeLine (id : Nat) (symbol : Symbol) (target : Nat) : List Char :=
  nodeName id ++ " -> ".toList ++ nodeName target ++ edgeLook symbol ++ ['\n']

/-- The lines of a state and of its edges. -/
def stateLines (id : Nat) (s : State) : List Char :=
  nodeLine id s ++ s.transitions.flatMap fun t => t.2.flatMap fun target => edgeLine id t.1 target

/-- The lines of all states. -/
def body (a : Automaton) : List Char :=
  a.states.toList.zipIdx.flatMap fun s => stateLines s.2 s.1

/-- What stands before the lines of the states. -/
def preamble : String :=
  "digraph G \x7b  rankdir=\"LR\" graph [fontname = \"Courier New\"];\n" ++
  "                node [fontname = \"verdana\", style = rounded];\n" ++
  "                edge [fontname = \"verdana\"];\n" ++
  "                \x7b\n" ++
  "node [shape=circle style=filled fillcolor=\"#4385f5\" fontcolor=\"#FFFFFF\" " ++
  "color=white penwidth=5.0 margin=0.1 width=0.5 height=0.5 fixedsize=true]\n"

/-- What stands after the lines of the states. -/
def postamble : String := "\n\x7d\x7d"

/-- The graph of an automaton in the DOT language. -/
def dot (a : Automaton) : String := preamble ++ String.ofList a.body ++ postamble

end Automaton

end BytePattern
