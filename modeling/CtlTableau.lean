import CtlTableau.OrderedSet
import CtlTableau.Formula
import CtlTableau.Formula.Order
import CtlTableau.Formula.Names
import CtlTableau.Formula.Printer
import CtlTableau.Text.Property
import CtlTableau.Text.Quoted
import CtlTableau.Fault
import CtlTableau.Parser
import CtlTableau.Formula.Parser
import CtlTableau.Formula.Outline
import CtlTableau.NormalForm.Derived
import CtlTableau.NormalForm.Negation
import CtlTableau.NormalForm.Prenex
import CtlTableau.Tickets
import CtlTableau.Closure
import CtlTableau.SymbolicState
import CtlTableau.Clausal
import CtlTableau.Clausal.Circuit
import CtlTableau.Clausal.Encoder
import CtlTableau.Clausal.Qdimacs
import CtlTableau.Clausal.Expansion
import CtlTableau.Diagram
import CtlTableau.Number.Rounding
import CtlTableau.Number.Binary64
import CtlTableau.Number.Duration
import CtlTableau.Report
import CtlTableau.Record
import CtlTableau.Parser.Trace
import CtlTableau.Diagram.Formula
import CtlTableau.Solver.Exit
import CtlTableau.Engine
import CtlTableau.Engine.Expansion
import CtlTableau.Engine.Diagram
import CtlTableau.Tableau
import CtlTableau.Tableau.Refinement
import CtlTableau.Engine.Scripted
import CtlTableau.Cancel
import CtlTableau.Solver.Config
import CtlTableau.Text.Regex
import CtlTableau.Shell.Pattern
import CtlTableau.Shell.Script
import CtlTableau.Shell.Tool
import CtlTableau.Shell.Run
import CtlTableau.Solver.Course
import CtlTableau.Solver.External
import CtlTableau.Solver.Host
import CtlTableau.CommandLine
import CtlTableau.CommandLine.Arguments
import CtlTableau.Main
import CtlTableau.Proofs.Boolean
import CtlTableau.Proofs.Closure
import CtlTableau.Proofs.Variables
import CtlTableau.Proofs.Branching
import CtlTableau.Proofs.Pruning
import CtlTableau.Proofs.Successor
import CtlTableau.Proofs.Model
import CtlTableau.Proofs.Survival
import CtlTableau.Proofs.Prefixes
import CtlTableau.Proofs.Clauses
import CtlTableau.Proofs.Encoding
import CtlTableau.Proofs.Deciding
import CtlTableau.Proofs.Faultless
import CtlTableau.Proofs.Agreement
import CtlTableau.Proofs.Reading
import CtlTableau.Proofs.Grammar
import CtlTableau.Proofs.Lexing
import CtlTableau.Proofs.RoundTrip
import CtlTableau.Proofs.Meaning
import CtlTableau.Proofs.Renaming
import CtlTableau.Proofs.Invariance
import CtlTableau.Proofs.Canonicity
import CtlTableau.Proofs.Searches
import CtlTableau.Proofs.Matrices
import CtlTableau.Proofs.Interruption
import CtlTableau.Proofs.Courses
import CtlTableau.Proofs.Cancellation
import CtlTableau.Proofs.Exactness
import CtlTableau.Proofs.StateSets
import CtlTableau.Proofs.Values
import CtlTableau.Proofs.Fragments
import CtlTableau.Proofs.Eventualities
import CtlTableau.Proofs.Polarity
import CtlTableau.Proofs.Adequacy
import CtlTableau.Proofs.Transfer
import CtlTableau.Proofs.Normalizing
import CtlTableau.Proofs.Acceptance
import CtlTableau.Proofs.Reencoding
import CtlTableau.Proofs.Brevity
import CtlTableau.Proofs.Exchanges
import CtlTableau.Proofs.Readback
import CtlTableau.Proofs.Sharing
import CtlTableau.Proofs.Census
import CtlTableau.Proofs.Replacement
import CtlTableau.Proofs.Layouts
import CtlTableau.Proofs.Calls
import CtlTableau.Proofs.Sending
import CtlTableau.Proofs.Answers
import CtlTableau.Proofs.Keeping
import CtlTableau.Proofs.Joining
import CtlTableau.Proofs.Clashes
import CtlTableau.Proofs.Lines
