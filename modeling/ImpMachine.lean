import ImpMachine.Command.Directory
import ImpMachine.Main
import ImpMachine.Proofs.Capture
import ImpMachine.Proofs.Comparison
import ImpMachine.Proofs.Constants
import ImpMachine.Proofs.Containers
import ImpMachine.Proofs.Correctness
import ImpMachine.Proofs.Declarations
import ImpMachine.Proofs.FloorDivision
import ImpMachine.Proofs.Halting
import ImpMachine.Proofs.Legibility
import ImpMachine.Proofs.LoopTemporaries
import ImpMachine.Proofs.Observation
import ImpMachine.Proofs.OperandOrder
import ImpMachine.Proofs.ProgramParsing
import ImpMachine.Proofs.RegisterHistory
import ImpMachine.Proofs.RenamedAssembly
import ImpMachine.Proofs.Respacing
import ImpMachine.Proofs.UndeclaredReads
import ImpMachine.Proofs.Unrolling
