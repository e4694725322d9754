import ThreeAddress.Compile
import ThreeAddress.Proofs.Amd64.CheckedGeneration
import ThreeAddress.Proofs.Amd64.EncodableCode
import ThreeAddress.Proofs.Amd64.EncodableForms
import ThreeAddress.Proofs.Amd64.IntegerCode
import ThreeAddress.Proofs.Amd64.ReceivedParameters
import ThreeAddress.Proofs.Amd64.RoundedConversion
import ThreeAddress.Proofs.Amd64.StackSlots
import ThreeAddress.Proofs.Amd64.StaticAccess
import ThreeAddress.Proofs.Optimise.CompleteElimination
import ThreeAddress.Proofs.Optimise.Convergence
import ThreeAddress.Proofs.Optimise.CopyForest
import ThreeAddress.Proofs.Optimise.ExactElimination
import ThreeAddress.Proofs.Registers.CoalescingRounds
import ThreeAddress.Proofs.Registers.ConservativeCoalescing
import ThreeAddress.Proofs.Registers.ExactLiveness
import ThreeAddress.Proofs.Registers.GraphRepresentation
import ThreeAddress.Proofs.Verification.Decision
import ThreeAddress.Toolchain
