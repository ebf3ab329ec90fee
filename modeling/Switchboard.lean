import Switchboard.Datum.Text
import Switchboard.Expr.Interchange
import Switchboard.Store.Session
import Switchboard.Scheduler.Session
import Switchboard.Manager.Create
import Switchboard.Proofs.Conduct
import Switchboard.Proofs.Activity
import Switchboard.Proofs.Reachable
import Switchboard.Proofs.Cascade
import Switchboard.Proofs.NetEffect
import Switchboard.Proofs.Inputs
import Switchboard.Proofs.Spelled
import Switchboard.Proofs.Likeness
import Switchboard.Proofs.Dependencies
import Switchboard.Proofs.FirstUses
import Switchboard.Proofs.Renaming
import Switchboard.Proofs.Twins
import Switchboard.Proofs.Refresh
import Switchboard.Proofs.Consistency
import Switchboard.Proofs.Aborted
import Switchboard.Proofs.Registry
import Switchboard.Proofs.Targets
import Switchboard.Proofs.Law
import Switchboard.Proofs.Batching
import Switchboard.Proofs.Termination
import Switchboard.Proofs.Reactions
import Switchboard.Proofs.Onlookers
import Switchboard.Proofs.Guard
import Switchboard.Proofs.Rendering
import Switchboard.Proofs.Deferrals
import Switchboard.Proofs.Bookkeeping
import Switchboard.Proofs.VirtualTime
import Switchboard.Proofs.Draining
import Switchboard.Proofs.Watchers
import Switchboard.Proofs.Bridges
import Switchboard.Proofs.Cancellation
import Switchboard.Proofs.Deliveries
import Switchboard.Proofs.Exchange
import Switchboard.Proofs.Eagerness
import Switchboard.Proofs.Enrolment
import Switchboard.Proofs.Idempotence
import Switchboard.Proofs.Acyclic
import Switchboard.Proofs.Disposal
import Switchboard.Proofs.Refusals
import Switchboard.Proofs.Neutrality
import Switchboard.Proofs.SignRuns
import Switchboard.Proofs.Quoting
import Switchboard.Proofs.Misplaced
import Switchboard.Proofs.Chains
import Switchboard.Proofs.Integers
import Switchboard.Proofs.Words
import Switchboard.Proofs.Comparisons
import Switchboard.Proofs.Numerals
import Switchboard.Proofs.Slots
import Switchboard.Proofs.Windows
import Switchboard.Proofs.Additivity
import Switchboard.Proofs.Offspring
import Switchboard.Proofs.Clearance
import Switchboard.Proofs.Requests
import Switchboard.Proofs.Handles
import Switchboard.Proofs.Readings
import Switchboard.Proofs.Recovery
