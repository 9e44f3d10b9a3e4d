import EarleyForest.Forest.Enumeration
import EarleyForest.Forest.Memo
import EarleyForest.Forest.Reachability
import EarleyForest.Forest.Selection
import EarleyForest.Forest.Unfolding
import EarleyForest.Lexing.Expression
import EarleyForest.Parser.Basic
import EarleyForest.Proofs.Forest.Cheapest
import EarleyForest.Proofs.Forest.Lockstep
import EarleyForest.Proofs.Forest.Resumption
import EarleyForest.Proofs.Forest.Selections
import EarleyForest.Proofs.Forest.WellFormed
import EarleyForest.Proofs.Grammar.SelfDerivation
import EarleyForest.Proofs.Parser.ContextFree
import EarleyForest.Proofs.Parser.Diagnostics
import EarleyForest.Proofs.Parser.Enumeration
import EarleyForest.Proofs.Parser.Faultless
import EarleyForest.Proofs.Parser.KindsAhead
import EarleyForest.Proofs.Parser.Recognition
import EarleyForest.Stored.Formats
import EarleyForest.Tree.Derivation
import EarleyForest.Proofs.Forest.Ties
import EarleyForest.Forest.Visits
import EarleyForest.Proofs.Forest.Visits
import EarleyForest.Chart.Tally
import EarleyForest.Proofs.Chart.Tally
import EarleyForest.Parser.Stepwise
import EarleyForest.Proofs.Parser.Stepwise
import EarleyForest.Proofs.Parser.StreamState
import EarleyForest.Proofs.Parser.ChartLimit
import EarleyForest.Grammar.Sweeps
import EarleyForest.Proofs.Grammar.Sweeps
import EarleyForest.Grammar.CycleLoop
import EarleyForest.Proofs.Grammar.CycleLoop
import EarleyForest.Forest.SplitSearch
import EarleyForest.Forest.Walks
import EarleyForest.Proofs.Forest.SplitSearch
import EarleyForest.Proofs.Forest.Iteration
import EarleyForest.Proofs.Parser.Ambiguity
import EarleyForest.Forest.Calls
import EarleyForest.Proofs.Forest.Calls
import EarleyForest.Parser.Worklists
import EarleyForest.Proofs.Chart.Worklists
import EarleyForest.Proofs.Forest.Worklists
import EarleyForest.Proofs.Parser.Termination
import EarleyForest.Text.LineScan
import EarleyForest.Proofs.Text.Lines
import EarleyForest.Proofs.Lexing.Expression
import EarleyForest.Proofs.Lexing.StreamEnd
import EarleyForest.Proofs.Forest.Blame
import EarleyForest.Forest.Words
import EarleyForest.Proofs.Forest.Words
import EarleyForest.Proofs.Stored.Json
import EarleyForest.Proofs.Stored.Codec
import EarleyForest.Tree.Recursion
import EarleyForest.Proofs.Tree.Recursion
import EarleyForest.Proofs.Text.OneBased
import EarleyForest.Chart.Filling
import EarleyForest.Proofs.Chart.Filling
import EarleyForest.Proofs.Chart.Invariant
import EarleyForest.Forest.Descent
import EarleyForest.Proofs.Forest.Descent
