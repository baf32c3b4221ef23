import Core6502.Word
import Core6502.Registers
import Core6502.Bus
import Core6502.Bus.Recorded
import Core6502.Operand
import Core6502.Instruction
import Core6502.Arithmetic
import Core6502.Machine
import Core6502.Execution
import Core6502.Host
import Core6502.Proofs.Decoding
import Core6502.Proofs.StackAccess
import Core6502.Proofs.StackTop
import Core6502.Proofs.StepCost
import Core6502.Proofs.WriteTrace
import Core6502.Proofs.Locality
import Core6502.Proofs.InterruptTransparency
import Core6502.Proofs.BalancedRuns
import Core6502.Proofs.Runs
import Core6502.Proofs.CycleBudget
import Core6502.Proofs.FaultAtomicity
import Core6502.Proofs.Slicing
import Core6502.Proofs.BusSimulation
import Core6502.Proofs.Lockstep
import Core6502.Proofs.Histories
import Core6502.Proofs.CycleAccounting
import Core6502.Proofs.InterruptMasking
import Core6502.Proofs.StoredFlags
import Core6502.Proofs.PositionIndependence
import Core6502.Proofs.Slices
import Core6502.Proofs.StraightLine
import Core6502.Proofs.RotateChains
import Core6502.Proofs.CarryChains
import Core6502.Proofs.CopyLoop
import Core6502.Proofs.EventLog
import Core6502.Proofs.ProgramCounter
import Core6502.Proofs.RegisterFrames
import Core6502.Proofs.ResultFlags
import Core6502.Proofs.BinaryArithmetic
import Core6502.Proofs.Resolution
import Core6502.Proofs.Comparison
import Core6502.Proofs.RepeatedTransforms
import Core6502.Proofs.ShortForms
import Core6502.Proofs.ForcedInterrupts
import Core6502.Proofs.WordReads
import Core6502.Proofs.Images
import Core6502.Proofs.StackRefinement
