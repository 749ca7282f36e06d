import BytePattern.Automaton.Assembly
import BytePattern.Automaton.Basic
import BytePattern.Automaton.Dot
import BytePattern.Automaton.Symbol
import BytePattern.Automaton.Walk
import BytePattern.Byte
import BytePattern.Count
import BytePattern.Matcher
import BytePattern.Matcher.Journal
import BytePattern.Options
import BytePattern.Pattern.Basic
import BytePattern.Pattern.Cause
import BytePattern.Pattern.Counted
import BytePattern.Pattern.Descent
import BytePattern.Pattern.Grammar
import BytePattern.Pattern.Quantifier
import BytePattern.Pattern.Readable
import BytePattern.Pattern.Reader
import BytePattern.Search.Course
import BytePattern.Search.DepthFirst
import BytePattern.Search.Position
import BytePattern.Text
import BytePattern.Token
import BytePattern.Token.Language
import BytePattern.Proofs.Automaton.Block
import BytePattern.Proofs.Automaton.Closed
import BytePattern.Proofs.Automaton.Connected
import BytePattern.Proofs.Automaton.Dot
import BytePattern.Proofs.Automaton.Edges
import BytePattern.Proofs.Automaton.Extent
import BytePattern.Proofs.Automaton.Fragment
import BytePattern.Proofs.Automaton.Grouping
import BytePattern.Proofs.Automaton.Matching
import BytePattern.Proofs.Automaton.Positions
import BytePattern.Proofs.Automaton.Sparse
import BytePattern.Proofs.Automaton.Suffix
import BytePattern.Proofs.Automaton.Tidy
import BytePattern.Proofs.Automaton.Useful
import BytePattern.Proofs.Matcher
import BytePattern.Proofs.Matcher.Cost
import BytePattern.Proofs.Matcher.Course
import BytePattern.Proofs.Matcher.States
import BytePattern.Proofs.Pattern.Acceptance
import BytePattern.Proofs.Pattern.Braces
import BytePattern.Proofs.Pattern.Caret
import BytePattern.Proofs.Pattern.Cause
import BytePattern.Proofs.Pattern.Completion
import BytePattern.Proofs.Pattern.Composition
import BytePattern.Proofs.Pattern.Counted
import BytePattern.Proofs.Pattern.Descent
import BytePattern.Proofs.Pattern.Failing
import BytePattern.Proofs.Pattern.Image
import BytePattern.Proofs.Pattern.Nesting
import BytePattern.Proofs.Pattern.Parsing
import BytePattern.Proofs.Pattern.Shorthand
import BytePattern.Proofs.Pattern.Spelling
import BytePattern.Proofs.Pattern.Step
import BytePattern.Proofs.Pattern.Writing
import BytePattern.Proofs.Search.Agreement
import BytePattern.Proofs.Search.Cost
import BytePattern.Proofs.Search.Iteration
import BytePattern.Proofs.Search.Memo
import BytePattern.Proofs.Search.Trace
import BytePattern.Proofs.Search.Unguarded
