import Bitemporal.Config.File
import Bitemporal.Proofs.Acceptance
import Bitemporal.Proofs.Agreement
import Bitemporal.Proofs.Contiguity
import Bitemporal.Proofs.Coordinator
import Bitemporal.Proofs.Interval
import Bitemporal.Proofs.Json.Forms
import Bitemporal.Proofs.Master.Amend
import Bitemporal.Proofs.Master.Commute
import Bitemporal.Proofs.Master.Coverage
import Bitemporal.Proofs.Master.Faults
import Bitemporal.Proofs.Master.History
import Bitemporal.Proofs.Master.Identity
import Bitemporal.Proofs.Master.Journal
import Bitemporal.Proofs.Master.Lookup
import Bitemporal.Proofs.Master.Replace
import Bitemporal.Proofs.Master.Stamps
import Bitemporal.Proofs.Projection
import Bitemporal.Proofs.Race.Safety
import Bitemporal.Proofs.Representation
import Bitemporal.ScriptedStore
import Bitemporal.Proofs.Duration
import Bitemporal.Proofs.Partition
import Bitemporal.Proofs.Calendar
import Bitemporal.Proofs.TimeText
import Bitemporal.Proofs.Toml.Strings
import Bitemporal.Proofs.FileTree
import Bitemporal.Proofs.Master.Settings
import Bitemporal.Proofs.Toml.Documents
import Bitemporal.Proofs.Config
import Bitemporal.Proofs.Exclusion
