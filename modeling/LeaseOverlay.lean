import LeaseOverlay.Config.Source
import LeaseOverlay.Proofs.Acceptance
import LeaseOverlay.Proofs.Commuting
import LeaseOverlay.Proofs.Datagram
import LeaseOverlay.Proofs.Discipline
import LeaseOverlay.Proofs.Draining
import LeaseOverlay.Proofs.Duplicate
import LeaseOverlay.Proofs.Flooding
import LeaseOverlay.Proofs.Growth
import LeaseOverlay.Proofs.Handles
import LeaseOverlay.Proofs.Identity
import LeaseOverlay.Proofs.IdentityOrder
import LeaseOverlay.Proofs.Numeral
import LeaseOverlay.Proofs.Reaching
import LeaseOverlay.Proofs.Refusal
import LeaseOverlay.Proofs.Remembrance
import LeaseOverlay.Proofs.Routes
import LeaseOverlay.Proofs.Shutdown
import LeaseOverlay.Proofs.Spelling
import LeaseOverlay.Proofs.Upkeep
import LeaseOverlay.Proofs.Window
import LeaseOverlay.Proofs.Withdrawal
import LeaseOverlay.Scenario.EdgeRun
import LeaseOverlay.Scenario.NodeRun
import LeaseOverlay.Scenario.UdpRun
import LeaseOverlay.Proofs.Address
import LeaseOverlay.Proofs.Sender
import LeaseOverlay.Proofs.Documents
import LeaseOverlay.Proofs.Resolution
import LeaseOverlay.Proofs.Timetable
