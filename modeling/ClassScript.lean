import ClassScript.CommandLine.Execution
import ClassScript.CommandLine.Options
import ClassScript.Decimal.Basic
import ClassScript.Decimal.Shortest
import ClassScript.Decimal.Text
import ClassScript.Diagnostic
import ClassScript.Evaluation
import ClassScript.Event
import ClassScript.Failure
import ClassScript.Heap
import ClassScript.Main
import ClassScript.Proofs.Evaluation.Plan
import ClassScript.Proofs.Evaluation.Steps
import ClassScript.Proofs.Heap.Growth
import ClassScript.Proofs.Syntax.Legal
import ClassScript.Proofs.Syntax.Parts
import ClassScript.Scope.Binding
import ClassScript.Scope.Resolution
import ClassScript.Session
import ClassScript.Slots
import ClassScript.Syntax.Dump
import ClassScript.Syntax.Grammar
import ClassScript.Syntax.Reading
import ClassScript.Syntax.Tree
import ClassScript.Text.DecimalDigit
import ClassScript.Text.Json
import ClassScript.Text.Lines
import ClassScript.Text.Path
import ClassScript.Text.Printable
import ClassScript.Text.Quoted
import ClassScript.Token.Basic
import ClassScript.Token.Scan
import ClassScript.Token.Segment
import ClassScript.Value.Basic
import ClassScript.Value.Operators
import ClassScript.Proofs.Scope.Walk
import ClassScript.Proofs.Scope.Site
import ClassScript.Proofs.Scope.Nesting
import ClassScript.Proofs.Evaluation.Visit
import ClassScript.Proofs.Scope.Lockstep
import ClassScript.Proofs.Scope.Ends
import ClassScript.Proofs.Scope.Provenance
import ClassScript.Proofs.Syntax.Reading
import ClassScript.Proofs.Session.History
import ClassScript.Proofs.Session.InStep
import ClassScript.Proofs.Session.Outcome
import ClassScript.Proofs.Syntax.Order
import ClassScript.Proofs.Scope.Order
import ClassScript.Proofs.Scope.Agreement
import ClassScript.Proofs.Session.Agreement
import ClassScript.Proofs.Syntax.Spelling
import ClassScript.Proofs.Session.Joined
import ClassScript.Proofs.CommandLine.Status
import ClassScript.Proofs.CommandLine.Prompt
import ClassScript.Proofs.Session.Verbosity
import ClassScript.Proofs.Evaluation.Confinement
import ClassScript.Proofs.Session.Violations
import ClassScript.Proofs.Session.Renaming
import ClassScript.Proofs.Token.Places
import ClassScript.Proofs.Token.Writing
import ClassScript.Proofs.Session.Transfer
import ClassScript.Proofs.Session.Construction
import ClassScript.Proofs.Syntax.Progress
import ClassScript.Proofs.Syntax.Isolation
import ClassScript.Proofs.Session.Loops
import ClassScript.Proofs.Session.Chains
import ClassScript.Proofs.Syntax.Unended
import ClassScript.Proofs.Session.CallLimit
import ClassScript.Proofs.Heap.Access
import ClassScript.Proofs.CommandLine.Dump
import ClassScript.Proofs.Token.Printing
import ClassScript.Proofs.Session.Distances
