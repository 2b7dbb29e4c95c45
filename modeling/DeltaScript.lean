import DeltaScript.Main
import DeltaScript.Notice
import DeltaScript.Proofs.Verdict
import DeltaScript.Proofs.References
import DeltaScript.Proofs.Merging
import DeltaScript.Proofs.Rendering
import DeltaScript.Proofs.Interleaving
import DeltaScript.Proofs.ReadingBack
import DeltaScript.Proofs.Sleeps
import DeltaScript.Proofs.FirstFit
import DeltaScript.Proofs.Spare
import DeltaScript.Proofs.Allocation
import DeltaScript.Proofs.Program
import DeltaScript.Proofs.Bytecode
import DeltaScript.Proofs.Emission
import DeltaScript.Proofs.Dictionary
import DeltaScript.Proofs.OneRange
import DeltaScript.Proofs.Joining
import DeltaScript.Proofs.Carets
import DeltaScript.Proofs.LoneNumber
import DeltaScript.Proofs.Symbols
import DeltaScript.Proofs.Displacement
