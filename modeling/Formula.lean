import Formula.Assoc
import Formula.Builtin
import Formula.Compilation
import Formula.Decimal.Reader
import Formula.Decimal.Shortest
import Formula.Decimal.Text
import Formula.Dialect
import Formula.Dialect.Standard
import Formula.Dict
import Formula.Double
import Formula.Engine
import Formula.Error
import Formula.Evaluation
import Formula.Folding
import Formula.Line
import Formula.Machine
import Formula.Method
import Formula.Native.Error
import Formula.Native.Expr
import Formula.Native.Functions
import Formula.Native.Lower
import Formula.Native.Number
import Formula.Native.Slot
import Formula.Native.Toolchain
import Formula.Native.Worker
import Formula.Probe
import Formula.Scope
import Formula.Scope.Handle
import Formula.Sequence
import Formula.Sequence.Ops
import Formula.Sequence.Sort
import Formula.Store
import Formula.Text.Hidden
import Formula.Text.Quoted
import Formula.Tree
import Formula.Tree.Text
import Formula.Value
import Formula.Value.Compare
import Formula.Value.Text
import Formula.View
import Formula.Proofs.Folding.Rules
import Formula.Proofs.Folding.Bindings
import Formula.Proofs.Native.Histories
import Formula.Proofs.Native.Lowering
import Formula.Proofs.Native.Transparency
import Formula.Proofs.Native.Parameters
import Formula.Proofs.Native.Acceptance
import Formula.Proofs.Double.Parts
import Formula.Proofs.Decimal.Shortest
import Formula.Proofs.Decimal.Texts
import Formula.Proofs.Native.Readability
import Formula.Proofs.Native.Operations
import Formula.Proofs.Native.Requests
import Formula.Proofs.Native.Interleaving
import Formula.Proofs.Native.Sequential
import Formula.Proofs.Sequence.Meaning
import Formula.Proofs.Sequence.Memo
import Formula.Proofs.Sequence.Programs
import Formula.Proofs.Sequence.Caches
import Formula.Proofs.Sequence.Courses
import Formula.Proofs.Sequence.Readings
import Formula.Proofs.Sequence.Derived
import Formula.Proofs.Sequence.Stages
import Formula.Proofs.Sequence.Demand
import Formula.Proofs.Sequence.Order
import Formula.Proofs.Sequence.Groups
import Formula.Proofs.Sequence.Grouping
import Formula.Proofs.Agreement.Values
import Formula.Proofs.Agreement.Stores
import Formula.Proofs.Agreement.Runs
import Formula.Proofs.Agreement.Traversal
import Formula.Proofs.Agreement.Execution
import Formula.Proofs.Compilation.Rules
import Formula.Proofs.Compilation.Refusals
import Formula.Proofs.Folding.Refusals
import Formula.Proofs.Folding.Constants
import Formula.Proofs.Folding.NormalForm
import Formula.Proofs.Agreement.Folding
import Formula.Proofs.Agreement.Optimizer
import Formula.Proofs.Faults.Values
import Formula.Proofs.Faults.Runs
import Formula.Proofs.Faults.Sequences
import Formula.Proofs.Faults.Methods
import Formula.Proofs.Faults.Operators
import Formula.Proofs.Faults.Origins
import Formula.Proofs.Faults.Execution
import Formula.Proofs.Faults.Trees
import Formula.Proofs.Faults.Expressions
import Formula.Proofs.Faults.Names
import Formula.Proofs.Faults.Lines
import Formula.Proofs.Dict.Versions
import Formula.Proofs.Builtin.Regrouping
import Formula.Proofs.Native.Events
import Formula.Proofs.Native.Watching
import Formula.Proofs.Native.Steps
import Formula.Proofs.Native.Threshold
import Formula.Proofs.Double.Equality
import Formula.Proofs.Value.Comparison
import Formula.Proofs.Double.Widening
import Formula.Proofs.Value.Sharing
import Formula.Proofs.Value.Data
import Formula.Proofs.Value.Transitivity
import Formula.Proofs.Decimal.Integers
import Formula.Proofs.Scope.Lexical
import Formula.Proofs.Scope.Handles
import Formula.Proofs.Double.Ordering
import Formula.Proofs.Builtin.Extremes
import Formula.Proofs.Folding.Shrinking
