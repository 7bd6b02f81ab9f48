import Prefetch.Association.Basic
import Prefetch.Association.Decode
import Prefetch.Decimal.Layout
import Prefetch.Decimal.Shortest
import Prefetch.Error
import Prefetch.Identifier
import Prefetch.JoinKey
import Prefetch.Load.Attach
import Prefetch.Load.Batch
import Prefetch.Load.Exchange
import Prefetch.Load.Run
import Prefetch.Load.Wave
import Prefetch.Loader
import Prefetch.Plan.Basic
import Prefetch.Plan.Resolve
import Prefetch.Proofs.Load.Accounting
import Prefetch.Proofs.Load.Allowed
import Prefetch.Proofs.Load.Attaching
import Prefetch.Proofs.Load.Batching
import Prefetch.Proofs.Load.BreakingOff
import Prefetch.Proofs.Load.Dispatch
import Prefetch.Proofs.Load.Dressing
import Prefetch.Proofs.Load.Ending
import Prefetch.Proofs.Load.Fetching
import Prefetch.Proofs.Load.Filtering
import Prefetch.Proofs.Load.Gathering
import Prefetch.Proofs.Load.Growth
import Prefetch.Proofs.Load.Guarding
import Prefetch.Proofs.Load.Joining
import Prefetch.Proofs.Load.Levels
import Prefetch.Proofs.Load.Populating
import Prefetch.Proofs.Load.Queries
import Prefetch.Proofs.Load.Refinement
import Prefetch.Proofs.Load.Refusals
import Prefetch.Proofs.Load.Repetition
import Prefetch.Proofs.Load.Requests
import Prefetch.Proofs.Load.RowByRow
import Prefetch.Proofs.Load.Shifting
import Prefetch.Proofs.Load.SpellingOut
import Prefetch.Proofs.Load.StepTable
import Prefetch.Proofs.Load.Stitching
import Prefetch.Proofs.Load.Timing
import Prefetch.Proofs.Load.Unfolding
import Prefetch.Proofs.Load.Unrolling
import Prefetch.Proofs.Load.Waves
import Prefetch.Proofs.Plan.Branching
import Prefetch.Proofs.Plan.BreadthFirst
import Prefetch.Proofs.Plan.Chains
import Prefetch.Proofs.Plan.Order
import Prefetch.Proofs.Plan.Resolution
import Prefetch.Proofs.Plan.Tasks
import Prefetch.Proofs.Query.Scanning
import Prefetch.Proofs.Schema.History
import Prefetch.Proofs.Schema.Ledger
import Prefetch.Proofs.Schema.Registered
import Prefetch.Proofs.Selection.Bounds
import Prefetch.Proofs.Selection.Building
import Prefetch.Proofs.Selection.Coverage
import Prefetch.Proofs.Selection.Cutting
import Prefetch.Proofs.Selection.Demand
import Prefetch.Proofs.Selection.Faults
import Prefetch.Proofs.Selection.Generations
import Prefetch.Proofs.Selection.Grammar
import Prefetch.Proofs.Selection.Grouping
import Prefetch.Proofs.Selection.Lexing
import Prefetch.Proofs.Selection.Merging
import Prefetch.Proofs.Selection.Narrowing
import Prefetch.Proofs.Selection.Offences
import Prefetch.Proofs.Selection.Positions
import Prefetch.Proofs.Selection.Preorder
import Prefetch.Proofs.Selection.Reading
import Prefetch.Proofs.Selection.Rearranging
import Prefetch.Proofs.Selection.RoundTrip
import Prefetch.Proofs.Selection.Shape
import Prefetch.Proofs.Selection.Spacing
import Prefetch.Proofs.Selection.Splitting
import Prefetch.Proofs.Selection.Stepping
import Prefetch.Proofs.Selection.Uniting
import Prefetch.Proofs.Selection.Viable
import Prefetch.Proofs.Selection.Walking
import Prefetch.Query.Basic
import Prefetch.Query.Sql
import Prefetch.Row
import Prefetch.Schema.Basic
import Prefetch.Selection.Allowance
import Prefetch.Selection.Basic
import Prefetch.Selection.Canonical
import Prefetch.Selection.Merge
import Prefetch.Selection.Parse
import Prefetch.Selection.Same
import Prefetch.Selection.Token
import Prefetch.Session
import Prefetch.Settings.Basic
import Prefetch.Settings.Decode
import Prefetch.Settings.Environment
import Prefetch.Source.Basic
import Prefetch.Source.Memory
import Prefetch.Source.Scripted
import Prefetch.Stitch
import Prefetch.Text.Blank
import Prefetch.Text.Duration
import Prefetch.Text.Numeral
import Prefetch.Value
