import Lowering.Compiler
import Lowering.Proofs.Flow
import Lowering.Proofs.LiveAhead
import Lowering.Proofs.PathLiveness
import Lowering.Proofs.Machine
import Lowering.Proofs.Interference
import Lowering.Proofs.ExactInteraction
import Lowering.Proofs.LiveTogether
import Lowering.Proofs.Maps
import Lowering.Proofs.InsertionOrder
import Lowering.Proofs.RelationAlgebra
import Lowering.Proofs.ValidAllocation
import Lowering.Proofs.SuccessfulAllocation
import Lowering.Proofs.Lockstep
import Lowering.Proofs.LaidOut
import Lowering.Proofs.LabelledBlocks
import Lowering.Proofs.LayoutWalk
import Lowering.Proofs.LayoutRun
import Lowering.Proofs.LayoutStructure
import Lowering.Proofs.RecursiveLayout
import Lowering.Proofs.Grouping
import Lowering.Proofs.ProperColoring
import Lowering.Proofs.PinnedColoring
import Lowering.Proofs.RemovalOrder
import Lowering.Proofs.GroupGraph
import Lowering.Proofs.SureColors
import Lowering.Proofs.EnoughColors
import Lowering.Proofs.ConservativeMerging
import Lowering.Proofs.CopyClasses
import Lowering.Proofs.BlockedVertices
import Lowering.Proofs.CompleteMerging
import Lowering.Proofs.GroupInvariant
import Lowering.Proofs.GroupTables
import Lowering.Proofs.TableInvariant
import Lowering.Proofs.SharedPins
import Lowering.Proofs.Replacement
import Lowering.Proofs.Rewriting
import Lowering.Proofs.FrameLayout
import Lowering.Proofs.SlotSharing
import Lowering.Proofs.Stack
import Lowering.Proofs.SpillCode
import Lowering.Proofs.SpillRun
import Lowering.Proofs.SlotPacking
import Lowering.Proofs.SpillRewriting
import Lowering.Proofs.Placement
import Lowering.Proofs.LinkedBlocks
import Lowering.Proofs.ReferencePlaces
import Lowering.Proofs.Entry
import Lowering.Proofs.CompiledRun
import Lowering.Proofs.AlwaysLive
import Lowering.Proofs.FinalAllocation
import Lowering.Proofs.RetriedAllocation
import Lowering.Proofs.AcceptedAllocations
import Lowering.Proofs.WithheldBackups
import Lowering.Proofs.SpillShape
import Lowering.Proofs.EmptiedBlocks
import Lowering.Proofs.SpillFaults
import Lowering.Proofs.SharedSlots
import Lowering.Proofs.ScratchRegisters
import Lowering.Proofs.RenamedColoring
import Lowering.Proofs.RenamedCode
import Lowering.Proofs.RenamedAllocation
import Lowering.Proofs.RenamedSpills
import Lowering.Proofs.RenamedCompilation
