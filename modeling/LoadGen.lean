import LoadGen.Measure.Report
import LoadGen.Pacing.Governor
import LoadGen.Phase.Rehearsal
import LoadGen.Proofs.Attribution
import LoadGen.Proofs.Clamping
import LoadGen.Proofs.Completion
import LoadGen.Proofs.Depletions
import LoadGen.Proofs.Entries
import LoadGen.Proofs.FirstFailure
import LoadGen.Proofs.Initialization
import LoadGen.Proofs.Intervals
import LoadGen.Proofs.Joining
import LoadGen.Proofs.Leftovers
import LoadGen.Proofs.Lending
import LoadGen.Proofs.Notifications
import LoadGen.Proofs.Openings
import LoadGen.Proofs.Outcomes
import LoadGen.Proofs.Overruns
import LoadGen.Proofs.Pauses
import LoadGen.Proofs.Placeholders
import LoadGen.Proofs.Rates
import LoadGen.Proofs.Recoveries
import LoadGen.Proofs.Reporting
import LoadGen.Proofs.Saturation
import LoadGen.Proofs.Ticking
import LoadGen.Proofs.Timers
import LoadGen.Proofs.Tracking
import LoadGen.Proofs.Usage
import LoadGen.Proofs.Variables
import LoadGen.Proofs.Windows
import LoadGen.Runner.Attempts
import LoadGen.Runner.Shutdown
import LoadGen.Runner.Views
