import LazyGrammar.Fault
import LazyGrammar.LazyList.Heap
import LazyGrammar.LazyList.Machine
import LazyGrammar.LazyList.Operations
import LazyGrammar.LazyList.Program
import LazyGrammar.LazyList.Script
import LazyGrammar.Position
import LazyGrammar.Proofs.Rule.Reach
import LazyGrammar.Proofs.Search.Scope
import LazyGrammar.Proofs.Search.Way
import LazyGrammar.Record
import LazyGrammar.Regex.Atom
import LazyGrammar.Regex.CharSet
import LazyGrammar.Regex.ClassReader
import LazyGrammar.Regex.Matcher
import LazyGrammar.Regex.Pattern
import LazyGrammar.Regex.PatternReader
import LazyGrammar.Regex.Program
import LazyGrammar.Regex.Term
import LazyGrammar.Rule.Analysis
import LazyGrammar.Rule.Combinators
import LazyGrammar.Rule.Error
import LazyGrammar.Rule.Graph
import LazyGrammar.Rule.Info
import LazyGrammar.Rule.Recursive
import LazyGrammar.Search.Crumbs
import LazyGrammar.Search.Explore
import LazyGrammar.Search.Machine
import LazyGrammar.Search.Source
import LazyGrammar.Search.Stream
import LazyGrammar.Search.Trace
import LazyGrammar.Text.CategoryTable
import LazyGrammar.Text.ClusterTable
import LazyGrammar.Text.FoldTable
import LazyGrammar.Text.Grapheme
import LazyGrammar.Text.Property
import LazyGrammar.Text.Ranges
import LazyGrammar.Text.ScriptTable
import LazyGrammar.Tokenizer.Basic
import LazyGrammar.Tokenizer.Lexeme
import LazyGrammar.Value
import LazyGrammar.Word
import LazyGrammar.Workbench.Build
import LazyGrammar.Workbench.Description
import LazyGrammar.Workbench.Function
import LazyGrammar.Workbench.Session
import LazyGrammar.Proofs.Search.OnDemand
import LazyGrammar.Proofs.Search.Fidelity
import LazyGrammar.Proofs.Search.Delivery
import LazyGrammar.Proofs.Search.Refinement
import LazyGrammar.Proofs.Search.Termination
import LazyGrammar.Proofs.Derivation.Enumeration
import LazyGrammar.Proofs.Rule.Built
import LazyGrammar.Proofs.Analysis.Shapes
import LazyGrammar.Proofs.Analysis.Solution
import LazyGrammar.Proofs.Analysis.Survey
import LazyGrammar.Proofs.Search.Readers
import LazyGrammar.Proofs.Search.Account
import LazyGrammar.Proofs.Recursion.Blame
import LazyGrammar.Proofs.Recursion.Alarm
import LazyGrammar.Proofs.Search.Unfolding
import LazyGrammar.Proofs.Search.Bounds
import LazyGrammar.Proofs.Search.Tokens
import LazyGrammar.Proofs.Search.Verdict
import LazyGrammar.Proofs.Search.Recording
import LazyGrammar.Proofs.Search.Demand
import LazyGrammar.Proofs.Recursion.FailFast
import LazyGrammar.Proofs.Search.Offset
import LazyGrammar.Proofs.Search.Likeness
import LazyGrammar.Proofs.Recursion.CallPath
import LazyGrammar.Proofs.Search.Evaluation
import LazyGrammar.Proofs.Search.Unentered
import LazyGrammar.Proofs.Rule.Kept
import LazyGrammar.Proofs.Rule.Twins
import LazyGrammar.Proofs.Analysis.Labels
import LazyGrammar.Proofs.Search.Labels
import LazyGrammar.Proofs.Tokenizer.Tiling
import LazyGrammar.Proofs.Search.Wrappers
import LazyGrammar.Proofs.Rule.Meanwhile
import LazyGrammar.Proofs.Analysis.Again
import LazyGrammar.Proofs.Analysis.Declarative
import LazyGrammar.Proofs.Search.Frozen
import LazyGrammar.Proofs.Search.Alternatives
import LazyGrammar.Proofs.Search.Reentry
import LazyGrammar.Proofs.Search.Safety
import LazyGrammar.Proofs.Tokenizer.LongestMatch
import LazyGrammar.Proofs.Text.Clusters
import LazyGrammar.Proofs.Text.Segmentation
import LazyGrammar.Proofs.Text.Lines
import LazyGrammar.Proofs.Derivation.Locality
import LazyGrammar.Proofs.Search.Trails
import LazyGrammar.Proofs.Search.Repetition
import LazyGrammar.Proofs.LazyList.Memoization
import LazyGrammar.Proofs.LazyList.Spoiled
import LazyGrammar.Proofs.LazyList.Operations
import LazyGrammar.Proofs.LazyList.Iteration
import LazyGrammar.Proofs.Rule.Definition
import LazyGrammar.Proofs.Search.Definition
import LazyGrammar.Proofs.Search.Nesting
import LazyGrammar.Proofs.Search.Regrouping
import LazyGrammar.Proofs.Search.Distribution
import LazyGrammar.Proofs.Tokenizer.LineNumbers
import LazyGrammar.Proofs.Search.TrailOrder
import LazyGrammar.Proofs.Rule.Identity
import LazyGrammar.Proofs.Search.Walking
import LazyGrammar.Proofs.Search.Lists
import LazyGrammar.Proofs.Search.Listing
