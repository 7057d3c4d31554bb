import Behavioral.Definition.Library
import Behavioral.Expr.Compile
import Behavioral.Expr.Value
import Behavioral.Machine.Activation
import Behavioral.Proofs.Compiling
import Behavioral.Proofs.Literals
import Behavioral.Proofs.Regions
import Behavioral.Proofs.Stateless
import Behavioral.Settings.Reader
import Behavioral.Stream.Sink
import Behavioral.Stream.Text
import Behavioral.Proofs.Checked
import Behavioral.Proofs.Formation
import Behavioral.Proofs.Mirroring
import Behavioral.Proofs.Pruning
import Behavioral.Proofs.Transparency
import Behavioral.Proofs.Jumps
import Behavioral.Proofs.Naming
import Behavioral.Proofs.Typing
import Behavioral.Proofs.Sharing
import Behavioral.Proofs.Spacing
import Behavioral.Proofs.Constants
import Behavioral.Proofs.Repetition
import Behavioral.Proofs.Emission
import Behavioral.Proofs.Lookup
import Behavioral.Proofs.Cancelling
import Behavioral.Proofs.Placing
import Behavioral.Proofs.Calling
import Behavioral.Proofs.Progress
import Behavioral.Proofs.ListCalls
import Behavioral.Proofs.Shorthands
import Behavioral.Proofs.Respelling
import Behavioral.Proofs.Restyling
import Behavioral.Proofs.Framing
import Behavioral.Proofs.Cursors
import Behavioral.Proofs.Uniqueness
import Behavioral.Proofs.Arithmetic
import Behavioral.Proofs.Scaling
import Behavioral.Proofs.Units
