import TreeTiling.Main
import TreeTiling.Selection.Script
import TreeTiling.Proofs.Pattern.Inversion
import TreeTiling.Proofs.Selection.Outcome
import TreeTiling.Proofs.X64.Tiles
import TreeTiling.Proofs.X64.Tiling
import TreeTiling.Proofs.Tree.Evaluation
import TreeTiling.Proofs.X64.Machine
import TreeTiling.Proofs.X64.Arithmetic
import TreeTiling.Proofs.X64.Soundness
import TreeTiling.Proofs.Tree.Nesting
import TreeTiling.Proofs.X64.Acceptance
import TreeTiling.Proofs.X64.Layout
import TreeTiling.Proofs.X64.Simulation
import TreeTiling.Proofs.Flow.Closure
import TreeTiling.Proofs.Flow.Equations
import TreeTiling.Proofs.Flow.RoundRobin
import TreeTiling.Proofs.Flow.Agreement
import TreeTiling.Proofs.X64.Writes
import TreeTiling.Proofs.X64.CallSites
import TreeTiling.Proofs.X64.Arguments
import TreeTiling.Proofs.Flow.Order
import TreeTiling.Proofs.X64.EntryLiveness
import TreeTiling.Proofs.X64.ExactAcceptance
import TreeTiling.Proofs.Selection.Scope
import TreeTiling.Proofs.X64.Scope
import TreeTiling.Proofs.Source.Naming
import TreeTiling.Proofs.Compile.Ownership
import TreeTiling.Proofs.X64.Values
import TreeTiling.Proofs.Selection.Trace
import TreeTiling.Proofs.Tree.Renumbering
import TreeTiling.Proofs.X64.Accounts
import TreeTiling.Proofs.Pattern.Renumbering
import TreeTiling.Proofs.Selection.Renumbering
import TreeTiling.Proofs.X64.Renumbering
import TreeTiling.Proofs.Source.Layout
import TreeTiling.Proofs.Source.Numerals
import TreeTiling.Proofs.Source.Grammar
import TreeTiling.Proofs.Source.RoundTrip
import TreeTiling.Proofs.X64.Conditionals
import TreeTiling.Proofs.X64.Delivery
import TreeTiling.Proofs.Flow.Counters
import TreeTiling.Proofs.Flow.Adjacency
import TreeTiling.Proofs.Instr.Rendering
import TreeTiling.Proofs.X64.Operands
import TreeTiling.Proofs.X64.WrittenCode
import TreeTiling.Proofs.X64.Symbols
import TreeTiling.Proofs.X64.Faithfulness
import TreeTiling.Proofs.X64.Encoding
import TreeTiling.Proofs.X64.Timing
import TreeTiling.Proofs.X64.Clobbering
import TreeTiling.Proofs.X64.MachineOperands
import TreeTiling.Proofs.Pattern.Matching
import TreeTiling.Proofs.Source.Cutting
import TreeTiling.Proofs.Instr.Splicing
import TreeTiling.Proofs.Instr.WordIndices
import TreeTiling.Proofs.X64.LabelTexts
import TreeTiling.Proofs.X64.Priorities
import TreeTiling.Proofs.X64.IndexRegisters
import TreeTiling.Proofs.Instr.Substitution
import TreeTiling.Proofs.Selection.Steps
import TreeTiling.Proofs.Selection.Extension
import TreeTiling.Proofs.Text.ByteOrder
import TreeTiling.Proofs.Session.RecordOrder
import TreeTiling.Proofs.Tree.Readability
import TreeTiling.Proofs.Selection.Diagnostics
import TreeTiling.Proofs.Selection.Recursion
import TreeTiling.Proofs.X64.Termination
import TreeTiling.Proofs.Flow.Draining
import TreeTiling.Proofs.Source.NumeralSyntax
import TreeTiling.Proofs.Source.ReaderLogic
import TreeTiling.Proofs.Flow.Quoting
import TreeTiling.Proofs.Compile.Drawing
