import StreamPeg.Cursor.Front
import StreamPeg.Cursor.Streams
import StreamPeg.Parse.Positional
import StreamPeg.Parse.Rule
import StreamPeg.Rule.Build
import StreamPeg.Rule.Equivalent
import StreamPeg.Rule.Preorder
import StreamPeg.Rule.Resolve
import StreamPeg.Source.Input
import StreamPeg.Proofs.Bounds
import StreamPeg.Proofs.Positional
import StreamPeg.Proofs.Linear
import StreamPeg.Proofs.Retry
import StreamPeg.Proofs.Failures
import StreamPeg.Proofs.Frame
import StreamPeg.Proofs.Transparent
import StreamPeg.Proofs.Arrival
import StreamPeg.Proofs.Preorder
import StreamPeg.Rule.Workbench
import StreamPeg.Proofs.Closure
import StreamPeg.Parse.Trail
import StreamPeg.Proofs.Diagnosis
import StreamPeg.Proofs.Termination
import StreamPeg.Proofs.Demand
import StreamPeg.Proofs.Furthest
import StreamPeg.Parse.Plan
import StreamPeg.Proofs.Stack
import StreamPeg.Proofs.Locality
import StreamPeg.Proofs.Ids
import StreamPeg.Proofs.Missing
import StreamPeg.Proofs.Release
import StreamPeg.Cursor.Feed
import StreamPeg.Proofs.Exact
import StreamPeg.Proofs.Choice
import StreamPeg.Proofs.Repetition
import StreamPeg.Proofs.Buffering
import StreamPeg.Proofs.Commit
import StreamPeg.Proofs.Handover
import StreamPeg.Proofs.Returns
import StreamPeg.Proofs.Sequence
import StreamPeg.Proofs.Refusals
import StreamPeg.Proofs.Flatten
import StreamPeg.Proofs.Again
import StreamPeg.Proofs.Factoring
import StreamPeg.Proofs.Addition
import StreamPeg.Proofs.Roots
import StreamPeg.Proofs.Naming
import StreamPeg.Proofs.ByteSet
import StreamPeg.Cursor.Trace
import StreamPeg.Parse.Action
import StreamPeg.Proofs.Journal
