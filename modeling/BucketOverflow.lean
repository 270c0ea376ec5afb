import BucketOverflow.Command.Run
import BucketOverflow.Main
import BucketOverflow.Binary64.Platform
import BucketOverflow.Proofs.Binary64.Units
import BucketOverflow.Proofs.Binary64.Nearest
import BucketOverflow.Proofs.Binary64.Arithmetic
import BucketOverflow.Proofs.Binary64.Exponential
import BucketOverflow.Proofs.Sweep.Estimate
import BucketOverflow.Proofs.Sweep.Run
import BucketOverflow.Proofs.Sweep.Monotone
import BucketOverflow.Proofs.Decimal.Leading
import BucketOverflow.Proofs.Decimal.Read
import BucketOverflow.Proofs.Drift.Close
import BucketOverflow.Proofs.Drift.Flatten
import BucketOverflow.Proofs.Drift.Gate
import BucketOverflow.Proofs.Drift.Swapped
import BucketOverflow.Proofs.Drift.Order
import BucketOverflow.Proofs.Json.Layout
import BucketOverflow.Proofs.Json.Numbers
import BucketOverflow.Proofs.Json.Reads
import BucketOverflow.Proofs.Json.Records
import BucketOverflow.Proofs.Snapshot.RoundTrip
import BucketOverflow.Proofs.Binary64.Relative
import BucketOverflow.Proofs.Binary64.Library
import BucketOverflow.Proofs.Binary64.Platform
import BucketOverflow.Proofs.Json.Rereading
import BucketOverflow.Proofs.Snapshot.Decimals
import BucketOverflow.Proofs.Text.Lines
import BucketOverflow.Proofs.Json.OneLine
import BucketOverflow.Proofs.Json.Values
import BucketOverflow.Proofs.Files
import BucketOverflow.Proofs.Log.Emitter
import BucketOverflow.Proofs.Log.Line
import BucketOverflow.Proofs.Log.Trail
import BucketOverflow.Proofs.LoggedRun.Entries
import BucketOverflow.Proofs.LoggedRun.Steps
import BucketOverflow.Proofs.LoggedRun.Logs
import BucketOverflow.Proofs.LoggedRun.Trail
import BucketOverflow.Proofs.Paths
import BucketOverflow.Proofs.LoggedRun.Artifacts
import BucketOverflow.Proofs.LoggedRun.Outcome
import BucketOverflow.Proofs.Results
import BucketOverflow.Proofs.Json.Members
import BucketOverflow.Proofs.Json.Decode
import BucketOverflow.Proofs.Json.Exact
import BucketOverflow.Proofs.Log.Schema
import BucketOverflow.Proofs.Log.RoundTrip
import BucketOverflow.Proofs.Sweep.Argmax
import BucketOverflow.Proofs.Sweep.Saturated
import BucketOverflow.Proofs.Overrides
import BucketOverflow.Proofs.Sweep.Policy
import BucketOverflow.Proofs.Blocks
import BucketOverflow.Proofs.Sweep.Fingerprint
import BucketOverflow.Proofs.Sweep.Parallel
import BucketOverflow.Proofs.Drift.Record
import BucketOverflow.Proofs.LoggedRun.Comparison
import BucketOverflow.Proofs.Params
import BucketOverflow.Proofs.Sweep.Capacity
import BucketOverflow.Proofs.Sweep.Arrival
import BucketOverflow.Proofs.Calendar
import BucketOverflow.Proofs.Binary64.Logarithm
import BucketOverflow.Proofs.Binary64.Whole
import BucketOverflow.Proofs.Binary64.Extremes
import BucketOverflow.Proofs.Binary64.Doubling
import BucketOverflow.Proofs.Chart.Axis
import BucketOverflow.Proofs.Chart.Grid
import BucketOverflow.Proofs.Chart.Labels
import BucketOverflow.Proofs.Chart.Plot
import BucketOverflow.Proofs.Calendar.Order
import BucketOverflow.Proofs.Log.Calls
import BucketOverflow.Proofs.Report
import BucketOverflow.Proofs.Text.Unsigned
import BucketOverflow.Proofs.Text.Pieces
import BucketOverflow.Proofs.HopBudgets
import BucketOverflow.Proofs.Decimal.Width
import BucketOverflow.Proofs.Drift.Table
import BucketOverflow.Proofs.Decimal.Fixed
import BucketOverflow.Proofs.Chart.Ends
