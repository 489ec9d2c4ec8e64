import IntentPlane.Decomposition.Basic
import IntentPlane.Drill
import IntentPlane.Json.Reader
import IntentPlane.Json.Writer
import IntentPlane.Proofs.Concurrent.Contention
import IntentPlane.Proofs.Concurrent.InTurn
import IntentPlane.Proofs.Concurrent.Installation
import IntentPlane.Proofs.Concurrent.LateEvents
import IntentPlane.Proofs.Concurrent.Linearization
import IntentPlane.Proofs.Concurrent.Preference
import IntentPlane.Proofs.Concurrent.Resubmission
import IntentPlane.Proofs.Decomposition.Models
import IntentPlane.Proofs.Lifecycle.Commuting
import IntentPlane.Proofs.Lifecycle.Retrying
import IntentPlane.Proofs.Prediction
import IntentPlane.Proofs.Recovery.EventLoop
import IntentPlane.Proofs.Selection
import IntentPlane.Proofs.Services.Alternatives
import IntentPlane.Proofs.Settings
import IntentPlane.Proofs.Wire.RoundTrip
import IntentPlane.Recovery
import IntentPlane.Settings.Layers
import IntentPlane.Status.Events
import IntentPlane.Proofs.Address.Grammar
import IntentPlane.Proofs.Concurrent.Records
import IntentPlane.Proofs.Wire.Checked
import IntentPlane.Proofs.Books
import IntentPlane.Proofs.Versions
