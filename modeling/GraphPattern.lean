import GraphPattern.Parse
import GraphPattern.Formatter.Report
import GraphPattern.Main
import GraphPattern.Proofs.Automaton.Reach
import GraphPattern.Proofs.Automaton.Recognition
import GraphPattern.Proofs.Surface.Grammar
import GraphPattern.Proofs.Surface.ReadBack
import GraphPattern.Proofs.Surface.Recognition
import GraphPattern.Proofs.Statement.Extension
import GraphPattern.Proofs.Statement.Validity
import GraphPattern.Proofs.Surface.Meaning
import GraphPattern.Proofs.Parse.Acceptance
import GraphPattern.Proofs.Parse.SyntaxError
import GraphPattern.Proofs.Parse.Precedence
import GraphPattern.Proofs.Statement.Nesting
import GraphPattern.Proofs.Statement.Calls
import GraphPattern.Proofs.Statement.Runs
import GraphPattern.Proofs.Statement.Verdict
import GraphPattern.Proofs.Statement.Tokens
import GraphPattern.Proofs.Statement.Spread
import GraphPattern.Proofs.Statement.Names
import GraphPattern.Proofs.Statement.Repetition
import GraphPattern.Proofs.Statement.Preorder
import GraphPattern.Proofs.Statement.FirstSeen
import GraphPattern.Proofs.Surface.Form
import GraphPattern.Proofs.Statement.UniqueReading
import GraphPattern.Proofs.Surface.Exact
import GraphPattern.Proofs.Parse.RoundTrip
import GraphPattern.Proofs.Token.Layout
import GraphPattern.Proofs.Token.Opening
import GraphPattern.Proofs.Token.Tiling
import GraphPattern.Proofs.Token.Position
import GraphPattern.Proofs.Token.Lines
import GraphPattern.Proofs.Parse.Layout
import GraphPattern.Proofs.Parse.Closure
import GraphPattern.Proofs.Parse.Assembly
import GraphPattern.Proofs.Parse.Spread
import GraphPattern.Proofs.Parse.Lines
import GraphPattern.Proofs.Parse.Formatting
import GraphPattern.Proofs.Parse.Names
import GraphPattern.Proofs.Parse.Places
import GraphPattern.Proofs.Formatter.Output
import GraphPattern.Proofs.Formatter.Places
import GraphPattern.Proofs.Parse.Relations
import GraphPattern.Proofs.Statement.Nodes
import GraphPattern.Proofs.Token.Stray
