import Wasm.Host.Library
import Wasm.Linker
import Wasm.Module.Decode
import Wasm.Proofs.Leb128
import Wasm.Proofs.Spelling
import Wasm.Proofs.Body
import Wasm.Proofs.Scan
import Wasm.Proofs.Boundary
import Wasm.Proofs.Control
import Wasm.Proofs.Blame
import Wasm.Proofs.Lockstep
import Wasm.Proofs.Refinement
import Wasm.Proofs.Codec
import Wasm.Proofs.Encode
import Wasm.Proofs.RoundTrip
import Wasm.Proofs.Metering
import Wasm.Proofs.Stack
import Wasm.Proofs.Transition
import Wasm.Proofs.Evolution
import Wasm.Proofs.Linked
import Wasm.Proofs.History
import Wasm.Proofs.Typing
import Wasm.Proofs.Effect
import Wasm.Proofs.Progress
import Wasm.Proofs.Soundness
import Wasm.Proofs.Operands
import Wasm.Proofs.Comparison
import Wasm.Proofs.Limits
import Wasm.Proofs.Imported
import Wasm.Proofs.Floats
import Wasm.Proofs.Relocation
import Wasm.Proofs.CustomSections
import Wasm.Proofs.Numbering
import Wasm.Proofs.Termination
import Wasm.Proofs.Acceptance
import Wasm.Proofs.Varint
import Wasm.Proofs.Constants
import Wasm.Proofs.Segments
import Wasm.Proofs.Growth
import Wasm.Proofs.Arithmetic
import Wasm.Proofs.FloatValue
import Wasm.Proofs.Truncation
import Wasm.Proofs.Access
import Wasm.Proofs.MinMax
import Wasm.Proofs.CutShort
import Wasm.Proofs.Registration
import Wasm.Proofs.Passing
import Wasm.Proofs.Amplification
