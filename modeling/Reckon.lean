import Reckon.Main
import Reckon.Proofs.Bytes
import Reckon.Proofs.Modes
import Reckon.Proofs.Rendering
import Reckon.Proofs.Pieces
import Reckon.Proofs.Partition
import Reckon.Proofs.OnDemand
import Reckon.Proofs.Determinacy
import Reckon.Proofs.Prefixes
import Reckon.Proofs.Substitution
import Reckon.Proofs.Texts
import Reckon.Proofs.Dumps
import Reckon.Proofs.Relocation
import Reckon.Proofs.Respelling
import Reckon.Proofs.NumberTexts
import Reckon.Proofs.Literals
import Reckon.Proofs.Readability
import Reckon.Proofs.Operands
import Reckon.Proofs.RoundTrip
import Reckon.Proofs.Mismatches
import Reckon.Proofs.Handover
import Reckon.Proofs.Integers
import Reckon.Proofs.Files
import Reckon.Proofs.Progress
