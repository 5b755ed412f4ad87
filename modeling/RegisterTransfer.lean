import RegisterTransfer.PowerPC.Lifter
import RegisterTransfer.Machine.Run
import RegisterTransfer.SettingsFile
import RegisterTransfer.Proofs.Names
import RegisterTransfer.Proofs.Registers
import RegisterTransfer.Proofs.Journey
import RegisterTransfer.Proofs.Placement
import RegisterTransfer.Proofs.Limits
import RegisterTransfer.Proofs.Lockstep
import RegisterTransfer.Proofs.Twins
import RegisterTransfer.Proofs.Computations
import RegisterTransfer.Proofs.PowerPC.Lockstep
import RegisterTransfer.Proofs.Blocks
import RegisterTransfer.Proofs.PowerPC.Translation
import RegisterTransfer.Proofs.Evaluation
import RegisterTransfer.Proofs.PowerPC.NativeStep
import RegisterTransfer.Proofs.PowerPC.Flags
import RegisterTransfer.Proofs.PowerPC.Alone
import RegisterTransfer.Proofs.PowerPC.BitRuns
import RegisterTransfer.Proofs.PowerPC.Bits
import RegisterTransfer.Proofs.PowerPC.Pairs
import RegisterTransfer.Proofs.PowerPC.Sums
import RegisterTransfer.Proofs.PowerPC.Divisions
import RegisterTransfer.Proofs.Waivers
import RegisterTransfer.Proofs.PowerPC.Faults
import RegisterTransfer.Proofs.TwinJourneys
import RegisterTransfer.Proofs.Execution
import RegisterTransfer.Proofs.ControlPaths
import RegisterTransfer.Proofs.SingleAssignment
import RegisterTransfer.Proofs.Independence
import RegisterTransfer.Proofs.PowerPC.Temporaries
import RegisterTransfer.Proofs.Itinerary
import RegisterTransfer.Proofs.StepLimit
import RegisterTransfer.Proofs.StaleValues
import RegisterTransfer.Proofs.FlatMemory
import RegisterTransfer.Proofs.PowerPC.Lifting
import RegisterTransfer.Proofs.Appending
import RegisterTransfer.Proofs.PowerPC.Grammar
import RegisterTransfer.Proofs.PowerPC.Deliveries
import RegisterTransfer.Proofs.PowerPC.Products
import RegisterTransfer.Proofs.PowerPC.Shifts
import RegisterTransfer.Proofs.PowerPC.Comparisons
import RegisterTransfer.Proofs.PowerPC.Accesses
import RegisterTransfer.Proofs.Footprints
import RegisterTransfer.Proofs.PowerPC.Footprints
import RegisterTransfer.Proofs.PowerPC.Logic
import RegisterTransfer.Proofs.PowerPC.Frames
import RegisterTransfer.Proofs.PowerPC.CountedLoops
import RegisterTransfer.Proofs.PowerPC.Calls
import RegisterTransfer.Proofs.Lacking
import RegisterTransfer.Proofs.PowerPC.Meanings
import RegisterTransfer.Proofs.PowerPC.Spellings
import RegisterTransfer.Proofs.ExactResults
import RegisterTransfer.Proofs.StepFrames
import RegisterTransfer.Proofs.ForwardPrograms
import RegisterTransfer.Proofs.ForwardCode
import RegisterTransfer.Proofs.PowerPC.ForwardCode
import RegisterTransfer.Proofs.Resolution
import RegisterTransfer.Proofs.Aliases
import RegisterTransfer.Proofs.Declarations
import RegisterTransfer.Proofs.Programs
import RegisterTransfer.Proofs.Assembling
import RegisterTransfer.Proofs.EmittedCode
import RegisterTransfer.Proofs.EmittedValues
import RegisterTransfer.Proofs.PowerPC.Additions
import RegisterTransfer.Proofs.PowerPC.Orders
import RegisterTransfer.Proofs.PowerPC.Signs
import RegisterTransfer.Proofs.WidthRule
import RegisterTransfer.Proofs.PowerPC.CarryWidths
import RegisterTransfer.Proofs.PowerPC.RegisterNames
import RegisterTransfer.Proofs.PowerPC.Interchange
import RegisterTransfer.Proofs.PowerPC.Numbering
import RegisterTransfer.Proofs.Labels
