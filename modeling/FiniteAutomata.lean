import FiniteAutomata.Alphabet
import FiniteAutomata.Automaton.Basic
import FiniteAutomata.Automaton.Edit
import FiniteAutomata.Automaton.InPlace
import FiniteAutomata.Automaton.Lemmas
import FiniteAutomata.Automaton.Operation
import FiniteAutomata.Closure
import FiniteAutomata.Diagram
import FiniteAutomata.Expression
import FiniteAutomata.Fault
import FiniteAutomata.Label
import FiniteAutomata.Proofs.Assembly
import FiniteAutomata.Proofs.BulkInsertion
import FiniteAutomata.Proofs.Chain
import FiniteAutomata.Proofs.Closure
import FiniteAutomata.Proofs.ClosureRounds
import FiniteAutomata.Proofs.Combination
import FiniteAutomata.Proofs.CompleteRun
import FiniteAutomata.Proofs.Concat
import FiniteAutomata.Proofs.Congruence
import FiniteAutomata.Proofs.Content
import FiniteAutomata.Proofs.Copy
import FiniteAutomata.Proofs.Correspondence
import FiniteAutomata.Proofs.Determinism
import FiniteAutomata.Proofs.Determinize
import FiniteAutomata.Proofs.Diagram
import FiniteAutomata.Proofs.DigitChain
import FiniteAutomata.Proofs.Discovery
import FiniteAutomata.Proofs.DiagramGrowth
import FiniteAutomata.Proofs.EarlyEnd
import FiniteAutomata.Proofs.EdgeQueries
import FiniteAutomata.Proofs.Expression
import FiniteAutomata.Proofs.ForeignSymbol
import FiniteAutomata.Proofs.Funnel
import FiniteAutomata.Proofs.General
import FiniteAutomata.Proofs.History
import FiniteAutomata.Proofs.KeywordLoop
import FiniteAutomata.Proofs.Mismatch
import FiniteAutomata.Proofs.NthFromEnd
import FiniteAutomata.Proofs.Numbering
import FiniteAutomata.Proofs.OneStep
import FiniteAutomata.Proofs.Path
import FiniteAutomata.Proofs.Queries
import FiniteAutomata.Proofs.Queue
import FiniteAutomata.Proofs.RandomAutomaton
import FiniteAutomata.Proofs.RandomDrawing
import FiniteAutomata.Proofs.Reachable
import FiniteAutomata.Proofs.Redeterminize
import FiniteAutomata.Proofs.Removal
import FiniteAutomata.Proofs.Renaming.Basic
import FiniteAutomata.Proofs.Renaming.Construction
import FiniteAutomata.Proofs.Renaming.Edit
import FiniteAutomata.Proofs.Renaming.Session
import FiniteAutomata.Proofs.Separation
import FiniteAutomata.Proofs.Simulation
import FiniteAutomata.Proofs.Star
import FiniteAutomata.Proofs.StateLimit
import FiniteAutomata.Proofs.StateNumbers
import FiniteAutomata.Proofs.SubsetNames
import FiniteAutomata.Proofs.SubsetShape
import FiniteAutomata.Proofs.Union
import FiniteAutomata.Proofs.WellFormed
import FiniteAutomata.Proofs.Word
import FiniteAutomata.Proofs.WordOrder
import FiniteAutomata.Regular
import FiniteAutomata.Regular.Assembly
import FiniteAutomata.Session.Answer
import FiniteAutomata.Session.Change
import FiniteAutomata.Session.Query
import FiniteAutomata.Session.Recipe
import FiniteAutomata.Session.Run
import FiniteAutomata.Simulation
import FiniteAutomata.StateSet
import FiniteAutomata.Subset.Determinize
import FiniteAutomata.Subset.Discovery
import FiniteAutomata.Subset.Queue
import FiniteAutomata.Symbol
import FiniteAutomata.Text.Field
import FiniteAutomata.Text.Quoted
import FiniteAutomata.Transitions
import FiniteAutomata.View
import FiniteAutomata.Workload.Assembly
import FiniteAutomata.Workload.Random
import FiniteAutomata.Workload.RandomAssembly
import FiniteAutomata.Workload.Structured
