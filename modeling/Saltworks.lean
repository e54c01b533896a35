import Saltworks.Machine.Synchronous
import Saltworks.Machine.OnePlace
import Saltworks.Word.Extend
import Saltworks.Word.Serial
import Saltworks.RTL.Core32
import Saltworks.RTL.Core32Edge
import Saltworks.RTL.BusAdapt8
import Saltworks.RTL.Plane32Bus
import Saltworks.RTL.TtUmSaltworksNdfC32
import Saltworks.RTL.MemPlane8
import Saltworks.RTL.NdfCells
import Saltworks.RTL.SliceA16Bma
import Saltworks.Bus.Arbitration
import Saltworks.Bus.ExactlyOnce
import Saltworks.Bus.Loop
import Saltworks.Bus.LoadData
import Saltworks.Firmware.NdfMemserver
import Saltworks.Firmware.ClosedLoop
import Saltworks.Refine.Statement
import Saltworks.Refine.CoreStep
import Saltworks.Refine.Conformance
import Saltworks.Refine.BusLoops
import Saltworks.Refine.BusRefinement
import Saltworks.Refine.Workarounds
import Saltworks.HDL.ISA
import Saltworks.HDL.BusFSM
import Saltworks.HDL.BatcherNetC
import Saltworks.Bus.KernelModel
import Saltworks.Kernel.MemPlane
import Saltworks.Kernel.SliceA16
import Saltworks.Data.Dict
import Saltworks.Data.Fallible
import Saltworks.Ndf.Timetable
import Saltworks.Ndf.Cells
import Saltworks.Ndf.ResultPath
import Saltworks.Ndf.Accumulate
import Saltworks.Ndf.WeightLoad
import Saltworks.Ndf.EdgePackets
import Saltworks.Network.Banyan
import Saltworks.Network.Sorting
import Saltworks.Network.BitStream
import Saltworks.RTL.Cmpex
import Saltworks.RTL.BatcherNet
import Saltworks.RTL.BanyanFabric
import Saltworks.Switch.BatcherBanyan
import Saltworks.Switch.Delivery
import Saltworks.Switch.SortedPrefixes
import Saltworks.Netlist.Datum
import Saltworks.Netlist.Settle
import Saltworks.Importer.Cells
import Saltworks.Importer.Program
import Saltworks.Importer.Elaborate
import Saltworks.Importer.Flops
import Saltworks.Importer.Drivers
import Saltworks.Importer.ElaborateSound
import Saltworks.Importer.Valuation
import Saltworks.Importer.ClockDomain
import Saltworks.Importer.SettledNetlist
import Saltworks.Importer.Accepted
import Saltworks.Importer.ClockedNetlist
import Saltworks.Importer.LibertyFunction
import Saltworks.Importer.Readback
import Saltworks.Importer.ReadbackSound
import Saltworks.Importer.ReadbackRoots
import Saltworks.Importer.ReadbackVerdict
import Saltworks.Data.Decimal
import Saltworks.Sim.Tokenize
import Saltworks.Sim.RefParse
import Saltworks.Sim.RefTokens
import Saltworks.Importer.Scan
import Saltworks.Importer.ScanReads
import Saltworks.Importer.SourceOrder
import Saltworks.Importer.Isolation
import Saltworks.Importer.PortLists
import Saltworks.Importer.TopModule
import Saltworks.Importer.ScanAgrees
import Saltworks.Importer.PinnedReset
import Saltworks.Importer.LibertyGrammar
import Saltworks.Importer.FreeInputs
import Saltworks.Data.Text
import Saltworks.Importer.ToLean
import Saltworks.Importer.DatumReader
import Saltworks.Importer.DatumLines
import Saltworks.Importer.DatumReadback
import Saltworks.Importer.Run
import Saltworks.Importer.Termination
import Saltworks.Importer.NetIdentity
import Saltworks.Data.Lexical
import Saltworks.Sim.LexicalRules
import Saltworks.Sim.TokenizeExact
import Saltworks.Machine.Blocks
import Saltworks.RTL.FabricatedBus
import Saltworks.Bus.FabricatedSimulation
import Saltworks.Bus.ExecutedWords
import Saltworks.Refine.FabricatedRefinement
import Saltworks.Firmware.Computer
import Saltworks.Firmware.Replay
import Saltworks.Machine.Segments
import Saltworks.Compiler.TinyRust
import Saltworks.HDL.Encoding
import Saltworks.Compiler.CodeGenerator
import Saltworks.Compiler.Correctness
import Saltworks.Compiler.OnSilicon
import Saltworks.Compiler.Acceptance
import Saltworks.Network.Traces
import Saltworks.Switch.Conflicts
import Saltworks.Ndf.TwoTwoOne
import Saltworks.Netlist.BitSliced
import Saltworks.HDL.Optimizer
import Saltworks.HDL.Renumber
import Saltworks.HDL.EmitN
import Saltworks.Importer.Certificate
import Saltworks.Stack.Program
import Saltworks.Stack.OnSilicon
