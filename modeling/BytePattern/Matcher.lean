import BytePattern.Automaton.Assembly
import BytePattern.Options
import BytePattern.Pattern.Reader
import BytePattern.Search.Position
import BytePattern.Text

set_option autoImplicit false

/-!
# Matchers

A matcher is a pattern made ready for use: its text, its tokens, the options it
was compiled with and its automaton.  It is made once and never changes, and
each match is a search of its own.
-/

namespace BytePattern

/-- A compiled pattern. -/
structure Matcher where
  /-- the pattern as text, wherever it is UTF-8 -/
  pattern : String
  tokens : List Token
  options : Options
  automaton : Automaton
  deriving Repr

namespace Matcher

/-- The matcher of a pattern, or what is wrong with the pattern. -/
def compile (pattern : List UInt8) (options : Options) : Except PatternError Matcher :=
  match parse pattern with
  | .ok tokens => .ok ⟨Text.lossy pattern, tokens, options, .ofTokens tokens⟩
  | .error e => .error e

/-- The search for the end of the input from a position.  A position is explored
at most once if the matcher was compiled so. -/
def search (m : Matcher) (input : Array UInt8) (origin : Position) : DepthFirst.Outcome :=
  m.automaton.search input m.options.optimize origin

/-- Where a match of the whole input starts. -/
def origin (m : Matcher) : Position := ⟨m.automaton.start, 0⟩

/-- The whole input matches the pattern. -/
def isMatch (m : Matcher) (input : Array UInt8) : Bool := (m.search input m.origin).found

end Matcher

end BytePattern
