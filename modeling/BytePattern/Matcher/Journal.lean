import BytePattern.Automaton.Dot
import BytePattern.Matcher
import BytePattern.Text
import BytePattern.Token

set_option autoImplicit false

/-!
# Matchers: the journal

What is reported when a pattern is compiled and when it is matched.  A
compilation is always reported; the token tree and the graph follow only when
the options ask for them.  A match is reported with where it began, how it ended
and how many positions it entered.
-/

namespace BytePattern

/-- How detailed a report is. -/
inductive Severity where
  | debug
  | trace
  deriving DecidableEq, Repr

/-- The name of the severity. -/
def Severity.name : Severity → String
  | .debug => "DEBUG"
  | .trace => "TRACE"

/-- A report. -/
structure JournalEntry where
  severity : Severity
  text : String
  deriving DecidableEq, Repr

namespace Matcher

/-- The reports of the compilation. -/
def compilation (m : Matcher) : List JournalEntry :=
  ⟨.debug, "compiled " ++ Text.quoted m.pattern ++ " into " ++ toString m.automaton.size ++
    " states"⟩ ::
  if m.options.debug then
    [⟨.debug, "token tree: " ++ String.ofList (Token.spellings m.tokens)⟩,
      ⟨.debug, m.automaton.dot⟩]
  else []

/-- The report of a search from a position that ended with an outcome. -/
def matchEntry (m : Matcher) (origin : Position) (outcome : DepthFirst.Outcome) : JournalEntry :=
  ⟨.trace, Text.quoted m.pattern ++ " from state " ++ toString origin.state ++ " at " ++
    toString origin.offset ++ ": " ++ toString outcome.found ++ " after " ++
    toString outcome.entered ++ " frames"⟩

/-- The reports of the compilation and of searches from positions through inputs. -/
def journal (m : Matcher) (queries : List (Array UInt8 × Position)) : List JournalEntry :=
  m.compilation ++ queries.map fun q => m.matchEntry q.2 (m.search q.1 q.2)

end Matcher

end BytePattern
