import TomasuloCpu.Tomasulo.OrderIndependence
import TomasuloCpu.Tomasulo.ReorderBufferProofs
import TomasuloCpu.Tomasulo.ReservationStationProofs
import TomasuloCpu.Tomasulo.LoadStoreQueueProofs
import TomasuloCpu.Isa.DecoderProofs
import TomasuloCpu.Tomasulo.Edge
import TomasuloCpu.Lib.Keyed
import TomasuloCpu.Tomasulo.Invariant
import TomasuloCpu.Tomasulo.Conservation
import TomasuloCpu.Tomasulo.ProgramOrder
import TomasuloCpu.Tomasulo.MemoryPort
import TomasuloCpu.Tomasulo.Renaming
import TomasuloCpu.Tomasulo.Reachable
import TomasuloCpu.Tomasulo.Places
import TomasuloCpu.Tomasulo.Coherence
import TomasuloCpu.Tomasulo.Trace
import TomasuloCpu.Tomasulo.MemoryTrace
import TomasuloCpu.Tomasulo.MemoryOrder
import TomasuloCpu.Lib.Fifo
import TomasuloCpu.Common.CircularQueue
import TomasuloCpu.Lib.LittleEndian
import TomasuloCpu.Memory.ImageAccess
import TomasuloCpu.Memory.MemoryProofs
import TomasuloCpu.Tomasulo.Stopping
import TomasuloCpu.Tomasulo.StoreCommit
import TomasuloCpu.Lib.Steps
import TomasuloCpu.Spec.Rv32i
import TomasuloCpu.Spec.Rv32iProofs
import TomasuloCpu.Tomasulo.Datapath
import TomasuloCpu.Tomasulo.InOrder
import TomasuloCpu.Tomasulo.Simulation
import TomasuloCpu.Tomasulo.Lockstep
import TomasuloCpu.Tomasulo.Retirement
import TomasuloCpu.Tomasulo.Refinement
import TomasuloCpu.Tomasulo.Progress
import TomasuloCpu.Tomasulo.CommitLog
import TomasuloCpu.Tomasulo.WrongPath
import TomasuloCpu.Tomasulo.FlushExact
import TomasuloCpu.Tomasulo.Statistics
import TomasuloCpu.Tomasulo.Assertions
import TomasuloCpu.Tomasulo.Reload
import TomasuloCpu.Reference.Interpreter
import TomasuloCpu.Reference.InterpreterProofs
import TomasuloCpu.Tomasulo.FetchedWord
import TomasuloCpu.Tomasulo.Timing
import TomasuloCpu.Reference.InterpreterRuns
import TomasuloCpu.Lib.Tenants
import TomasuloCpu.Tomasulo.StationRuns
import TomasuloCpu.Tomasulo.BufferRuns
import TomasuloCpu.Memory.PortProtocol
import TomasuloCpu.Tomasulo.MemoryPath
import TomasuloCpu.Spec.Rv32iInteger
import TomasuloCpu.Isa.DecoderExact
import TomasuloCpu.Memory.ImageLoader
import TomasuloCpu.Tomasulo.IntegerDatapath
import TomasuloCpu.Reference.SequentialRuns
import TomasuloCpu.Tomasulo.Differential
import TomasuloCpu.Tomasulo.CycleBound
import TomasuloCpu.Lib.Line
import TomasuloCpu.Tomasulo.Accounting
import TomasuloCpu.Tomasulo.ModifiedCode
import TomasuloCpu.Main
import TomasuloCpu.Lib.Once
import TomasuloCpu.Tomasulo.ExactlyOnce
import TomasuloCpu.Tomasulo.Dataflow
import TomasuloCpu.Tomasulo.AccessTrace
import TomasuloCpu.Tomasulo.Latency
import TomasuloCpu.Tomasulo.Prediction
import TomasuloCpu.Tomasulo.QueueRuns
import TomasuloCpu.Lib.Streaks
import TomasuloCpu.Tomasulo.BranchStreaks
import TomasuloCpu.Spec.Footprint
import TomasuloCpu.Tomasulo.UnreadBytes
import TomasuloCpu.Tomasulo.IntegerBackend
import TomasuloCpu.Tomasulo.Shape
import TomasuloCpu.Tomasulo.ShapeCycle
import TomasuloCpu.Tomasulo.DataIndependence
import TomasuloCpu.Lib.Deadlines
import TomasuloCpu.Tomasulo.PreciseFaults
