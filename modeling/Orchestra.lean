import Orchestra.Chain
import Orchestra.Main
import Orchestra.Expr.Tower
import Orchestra.HeapClock
import Orchestra.Interchange.Config
import Orchestra.Interchange.Print
import Orchestra.Pool
import Orchestra.Proofs.Records
import Orchestra.Proofs.Serializable
import Orchestra.Proofs.Census
import Orchestra.Proofs.Kinship
import Orchestra.Proofs.Charter
import Orchestra.Proofs.Coherent
import Orchestra.Proofs.Cascade
import Orchestra.Proofs.Steps
import Orchestra.Proofs.Lowering
import Orchestra.Proofs.Typing
import Orchestra.Proofs.Typed
import Orchestra.Proofs.Safety
import Orchestra.Proofs.Footprint
import Orchestra.Proofs.Sections
import Orchestra.Proofs.Stages
import Orchestra.Proofs.Ledger
import Orchestra.Proofs.Ballots
import Orchestra.Proofs.Moves
import Orchestra.Proofs.Run
import Orchestra.Proofs.Batches
import Orchestra.Proofs.Accounts
import Orchestra.Proofs.Alignment
import Orchestra.Proofs.Doom
import Orchestra.Proofs.Actions
import Orchestra.Proofs.Tally
import Orchestra.Proofs.Stations
import Orchestra.Proofs.Situations
import Orchestra.Proofs.Spared
import Orchestra.Proofs.Attendance
import Orchestra.Proofs.Reactions
import Orchestra.Proofs.Pruning
import Orchestra.Proofs.Remains
import Orchestra.Proofs.Silence
import Orchestra.Proofs.Layers
import Orchestra.Proofs.Containers
import Orchestra.Proofs.Time
import Orchestra.Proofs.Twins
import Orchestra.Proofs.Reports
import Orchestra.Proofs.Capacity
import Orchestra.Proofs.Nesting
import Orchestra.Proofs.Updates
import Orchestra.Proofs.Rollback
import Orchestra.Proofs.RoundTrip
import Orchestra.Proofs.Scoping
import Orchestra.Proofs.Layout
import Orchestra.Proofs.Timers
import Orchestra.Proofs.Slots
import Orchestra.Proofs.Shifting
import Orchestra.Proofs.Parking
import Orchestra.Proofs.Equality
import Orchestra.Proofs.Arithmetic
import Orchestra.Proofs.Descent
import Orchestra.Proofs.Lines
import Orchestra.Proofs.Headroom
import Orchestra.Proofs.Inlining
import Orchestra.Proofs.Paths
import Orchestra.Proofs.TailCalls
