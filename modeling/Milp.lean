import Milp.Affine
import Milp.Answer
import Milp.Audit
import Milp.Backend
import Milp.BackendChoice
import Milp.Capabilities
import Milp.CommandLine.Arguments
import Milp.CommandLine.Transcript
import Milp.Configuration
import Milp.Decimal.Numeral
import Milp.Decimal.Positional
import Milp.Decimal.Shortest
import Milp.Duration
import Milp.Fault
import Milp.Files
import Milp.Formula
import Milp.Handle
import Milp.Interval
import Milp.Limits
import Milp.Main
import Milp.Model
import Milp.Model.Building
import Milp.Model.Rendering
import Milp.Mps.Draft
import Milp.Mps.Reader
import Milp.Net.SocketAddress
import Milp.Number
import Milp.Number.Binary64
import Milp.Number.ExtRat
import Milp.Options
import Milp.Outcome
import Milp.Program
import Milp.Proofs.Affine.Coefficients
import Milp.Proofs.Affine.Normalized
import Milp.Proofs.Affine.Table
import Milp.Proofs.Attempt
import Milp.Proofs.Audit.Accepted
import Milp.Proofs.Audit.Cleaning
import Milp.Proofs.Audit.Endless
import Milp.Proofs.Audit.Inside
import Milp.Proofs.Audit.Nearness
import Milp.Proofs.Audit.Outcomes
import Milp.Proofs.Audit.Reported
import Milp.Proofs.CommandLine.Words
import Milp.Proofs.Formula.Meaning
import Milp.Proofs.Interval.Closed
import Milp.Proofs.Interval.Nearest
import Milp.Proofs.Interval.Readings
import Milp.Proofs.Model.Accepted
import Milp.Proofs.Model.Building
import Milp.Proofs.Model.Declaring
import Milp.Proofs.Model.History
import Milp.Proofs.Model.Identity
import Milp.Proofs.Model.Provenance
import Milp.Proofs.Model.References
import Milp.Proofs.Model.StoredNumbers
import Milp.Proofs.Model.WellFormed
import Milp.Proofs.Mps.Accesses
import Milp.Proofs.Mps.Assembly
import Milp.Proofs.Mps.Changes
import Milp.Proofs.Mps.Coherence
import Milp.Proofs.Mps.Content
import Milp.Proofs.Mps.Document
import Milp.Proofs.Mps.Drafting
import Milp.Proofs.Mps.InRange
import Milp.Proofs.Mps.Indexed
import Milp.Proofs.Mps.Layout
import Milp.Proofs.Mps.Lines
import Milp.Proofs.Mps.Order
import Milp.Proofs.Mps.Passages
import Milp.Proofs.Mps.Positions
import Milp.Proofs.Mps.Reading
import Milp.Proofs.Mps.SetNames
import Milp.Proofs.Mps.Spacing
import Milp.Proofs.Mps.Steps
import Milp.Proofs.Mps.Tables
import Milp.Proofs.Number.Absorbing
import Milp.Proofs.Number.Exact
import Milp.Proofs.Number.Finite
import Milp.Proofs.Number.Lawful
import Milp.Proofs.Number.Rounding
import Milp.Proofs.Number.Scaling
import Milp.Proofs.Number.Special
import Milp.Proofs.Number.Sums
import Milp.Proofs.Options.Merging
import Milp.Proofs.Options.Seconds
import Milp.Proofs.Options.Tolerance
import Milp.Proofs.Polyhedron.Projection
import Milp.Proofs.Program.Lowering
import Milp.Proofs.Program.OfModel
import Milp.Proofs.Program.Points
import Milp.Proofs.Program.Rays
import Milp.Proofs.Relaxation.Exact
import Milp.Proofs.Relaxation.Width
import Milp.Proofs.Search.Acceptance
import Milp.Proofs.Search.Accounts
import Milp.Proofs.Search.Box
import Milp.Proofs.Search.Choice
import Milp.Proofs.Search.DepthFirst
import Milp.Proofs.Search.Improvement
import Milp.Proofs.Search.Incumbents
import Milp.Proofs.Search.Optimality
import Milp.Proofs.Search.Order
import Milp.Proofs.Search.Partition
import Milp.Proofs.Search.Points
import Milp.Proofs.Search.Prefix
import Milp.Proofs.Search.Steps
import Milp.Proofs.Search.Subproblems
import Milp.Proofs.Search.Succession
import Milp.Proofs.Search.Termination
import Milp.Proofs.Search.Turns
import Milp.Proofs.Search.Unbounded
import Milp.Proofs.SearchTree.Bookkeeping
import Milp.Proofs.SearchTree.Growth
import Milp.Proofs.SearchTree.Links
import Milp.Proofs.SearchTree.Report
import Milp.Proofs.Service.Agreement
import Milp.Proofs.Service.Description
import Milp.Proofs.Service.Entries
import Milp.Proofs.Service.Mapping
import Milp.Proofs.Supervisor.Assignments
import Milp.Proofs.Supervisor.Calls
import Milp.Proofs.Supervisor.Courses
import Milp.Proofs.Supervisor.Lifecycle
import Milp.Proofs.Supervisor.Reports
import Milp.Proofs.Supervisor.Traces
import Milp.Relation
import Milp.Relaxation
import Milp.Search
import Milp.SearchTree
import Milp.SearchTree.Rendering
import Milp.Sense
import Milp.Service
import Milp.Service.Request
import Milp.Service.Response
import Milp.Session
import Milp.Simplex
import Milp.Supervisor
import Milp.Text.Blank
import Milp.Text.CaseTable
import Milp.Text.LowerCase
import Milp.Timeline
