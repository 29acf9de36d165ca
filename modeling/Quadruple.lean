import Quadruple.Main
import Quadruple.Proofs.AddressSpace
import Quadruple.Proofs.Backpatching
import Quadruple.Proofs.CallProtocol
import Quadruple.Proofs.CallResult
import Quadruple.Proofs.HighWaterMark
import Quadruple.Proofs.IndependentSlots
import Quadruple.Proofs.LimitedRuns
import Quadruple.Proofs.Literals
import Quadruple.Proofs.Normalisation
import Quadruple.Proofs.ParameterSlots
import Quadruple.Proofs.Precedence
import Quadruple.Proofs.Preservation
import Quadruple.Proofs.PrintedLines
import Quadruple.Proofs.ProgramJson
import Quadruple.Proofs.Reductions
import Quadruple.Proofs.ReleaseOrder
import Quadruple.Proofs.Reuse
import Quadruple.Proofs.SignatureAgreement
import Quadruple.Proofs.Temporaries
