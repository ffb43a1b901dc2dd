import LinkPriority.Bench
import LinkPriority.Bench.Report
import LinkPriority.Candidates
import LinkPriority.CommandLine
import LinkPriority.CommandLine.Options
import LinkPriority.Decimal.Dyadic
import LinkPriority.Decimal.Fixed
import LinkPriority.Decimal.Places
import LinkPriority.Decimal.Shortest
import LinkPriority.Decimal.Text
import LinkPriority.Demand
import LinkPriority.Grid
import LinkPriority.IdMap
import LinkPriority.Json.Number
import LinkPriority.Json.Reader
import LinkPriority.Json.Scan
import LinkPriority.Json.Value
import LinkPriority.Json.Writer
import LinkPriority.Load
import LinkPriority.Main
import LinkPriority.ModelError
import LinkPriority.Priority
import LinkPriority.Random.Indices
import LinkPriority.Random.Source
import LinkPriority.Random.Uniform
import LinkPriority.Random.WordStream
import LinkPriority.Request
import LinkPriority.Request.Reader
import LinkPriority.Response
import LinkPriority.Scalar
import LinkPriority.Scalar.Binary64
import LinkPriority.Search.Error
import LinkPriority.Search.Event
import LinkPriority.Search.Node
import LinkPriority.Search.Observer
import LinkPriority.Search.Solution
import LinkPriority.Search.Solve
import LinkPriority.Search.Tree
import LinkPriority.Service
import LinkPriority.Service.Address
import LinkPriority.Service.Config
import LinkPriority.Settings
import LinkPriority.Sharing
import LinkPriority.Swap
import LinkPriority.WarmStart
import LinkPriority.Proofs.Scalar.Exact
import LinkPriority.Proofs.Scalar.Digits
import LinkPriority.Proofs.Scalar.Machine
import LinkPriority.Proofs.Scalar.Rounding
import LinkPriority.Proofs.Scalar.Signs
import LinkPriority.Proofs.Scalar.SameNumber
import LinkPriority.Proofs.Except
import LinkPriority.Proofs.Grid
import LinkPriority.Proofs.Queue
import LinkPriority.Proofs.Pairing
import LinkPriority.Proofs.Selection
import LinkPriority.Proofs.Candidates
import LinkPriority.Proofs.Evaluation
import LinkPriority.Proofs.WarmStart
import LinkPriority.Proofs.Demand
import LinkPriority.Proofs.Shares
import LinkPriority.Proofs.SignedZero
import LinkPriority.Proofs.Sharing.Recurrence
import LinkPriority.Proofs.Sharing.Epochs
import LinkPriority.Proofs.Sharing.Bounds
import LinkPriority.Proofs.Sharing.Prediction
import LinkPriority.Proofs.Proposal
import LinkPriority.Proofs.Sharing.Overtaking
import LinkPriority.Proofs.Sharing.Separation
import LinkPriority.Proofs.Sharing.Units
import LinkPriority.Proofs.Sharing.Stopping
import LinkPriority.Proofs.Connectivity
import LinkPriority.Proofs.Transposition
import LinkPriority.Proofs.Search.Appraisal
import LinkPriority.Proofs.Search.Tree
import LinkPriority.Proofs.Search.Change
import LinkPriority.Proofs.Search.Invariant
import LinkPriority.Proofs.Search.Move
import LinkPriority.Proofs.Search.Iteration
import LinkPriority.Proofs.Search.Calls
import LinkPriority.FirstBest
import LinkPriority.Proofs.FirstBest
import LinkPriority.Proofs.Search.Subtree
import LinkPriority.Proofs.Search.Readout
import LinkPriority.Proofs.Search.Solving
import LinkPriority.Proofs.Search.Safety
import LinkPriority.Proofs.Search.Contract
import LinkPriority.Proofs.Search.Visits
import LinkPriority.Proofs.Search.Tracing
import LinkPriority.Proofs.Search.Completion
import LinkPriority.Proofs.Search.Parallel
import LinkPriority.Proofs.Search.Resumption
import LinkPriority.Proofs.Search.History
import LinkPriority.Proofs.Agreement
import LinkPriority.Proofs.Search.Coupling
import LinkPriority.Proofs.Search.CoupledMoves
import LinkPriority.Proofs.Search.Lockstep
import LinkPriority.Proofs.Search.Bookkeeping
import LinkPriority.Proofs.Search.Restating
import LinkPriority.Proofs.IdMap
import LinkPriority.Proofs.Request
import LinkPriority.Proofs.Response
import LinkPriority.Proofs.Reading
import LinkPriority.Proofs.Service
import LinkPriority.Proofs.Search.Walk
import LinkPriority.Proofs.Search.Failing
import LinkPriority.Proofs.Random
import LinkPriority.Proofs.Bench
import LinkPriority.Proofs.Json.Grammar
import LinkPriority.Proofs.Json.Strings
import LinkPriority.Proofs.Json.Numbers
import LinkPriority.Proofs.Json.Completeness
import LinkPriority.Proofs.Rendering
import LinkPriority.Proofs.Search.Turns
import LinkPriority.Proofs.Search.Scores
import LinkPriority.Proofs.Search.Unvisited
import LinkPriority.Proofs.Sharing.Renumbering
import LinkPriority.Proofs.Indices
import LinkPriority.Proofs.Search.Growth
import LinkPriority.Proofs.Flattening
import LinkPriority.Proofs.Json.Writing
import LinkPriority.Proofs.RoundTrip
import LinkPriority.Proofs.IdOrder
import LinkPriority.Proofs.Renaming
