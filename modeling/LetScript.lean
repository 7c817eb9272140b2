import LetScript.Diagnostic.Explain
import LetScript.Diagnostic.Report
import LetScript.Diagnostic.Suggestion
import LetScript.Diagnostic.Terminal
import LetScript.Format
import LetScript.Json.Exchange
import LetScript.Proofs.Block
import LetScript.Proofs.Recovery
import LetScript.Proofs.Sign
import LetScript.Proofs.Calls
import LetScript.Proofs.Meaning
import LetScript.Proofs.Style
import LetScript.Proofs.Frame
import LetScript.Proofs.Agreement
import LetScript.Proofs.RoundTrip
import LetScript.Proofs.Indices
import LetScript.Proofs.Slice
import LetScript.Proofs.Extension
import LetScript.Proofs.Locality
import LetScript.Proofs.Sequence
import LetScript.Proofs.Remark
import LetScript.Proofs.Row
import LetScript.Proofs.Pointing
import LetScript.Proofs.Naming
import LetScript.Proofs.Suggestion
import LetScript.Proofs.Table
import LetScript.Proofs.Access
import LetScript.Proofs.Progress
import LetScript.Proofs.Totality
import LetScript.Proofs.Fallback
import LetScript.Proofs.Partition
import LetScript.Proofs.Placement
import LetScript.Proofs.Simultaneous
import LetScript.Proofs.Order
import LetScript.Proofs.Pairing
import LetScript.Proofs.Quotation
