/-
  TomasuloCpu.Tomasulo.Cpu — the top level (`tomasulo/cpu.cpp`): load, one cycle, run.

  A cycle observes the current registers, calls the four `plan`s in one order, freezes
  every wire, calls the nine `apply`s in a second order and latches the nine modules in
  a third. `Cpu` is the whole object with both halves of every register; `Core` is its
  current half, all that a `plan` reads. `cycleWith` takes the three orders; `cycle`
  takes them from the tables the constructor drew. `tick` is the edge on `Core` alone.
-/
import TomasuloCpu.Isa.Decoder
import TomasuloCpu.Tomasulo.BranchPredictor
import TomasuloCpu.Tomasulo.CommonDataBus
import TomasuloCpu.Tomasulo.FunctionalUnit
import TomasuloCpu.Tomasulo.IssueUnit
import TomasuloCpu.Tomasulo.RegisterFile
import Mathlib.Logic.Function.Iterate

namespace TomasuloCpu

inductive PlanModule where
  | issue
  | reorderBuffer
  | reservationStation
  | loadStoreQueue
  deriving DecidableEq, Repr

inductive ApplyModule where
  | commonDataBus
  | reorderBuffer
  | reservationStation
  | loadStoreQueue
  | functionalUnit
  | registerFile
  | renameTable
  | branchPredictor
  | memoryUnit
  deriving DecidableEq, Repr

inductive LatchModule where
  | registerFile
  | renameTable
  | reorderBuffer
  | reservationStation
  | loadStoreQueue
  | functionalUnit
  | commonDataBus
  | memoryUnit
  | branchPredictor
  deriving DecidableEq, Repr

def basePlan : List PlanModule := [.issue, .reorderBuffer, .reservationStation, .loadStoreQueue]

def baseApply : List ApplyModule :=
  [.commonDataBus, .reorderBuffer, .reservationStation, .loadStoreQueue, .functionalUnit, .registerFile,
    .renameTable, .branchPredictor, .memoryUnit]

def baseLatch : List LatchModule :=
  [.registerFile, .renameTable, .reorderBuffer, .reservationStation, .loadStoreQueue, .functionalUnit,
    .commonDataBus, .memoryUnit, .branchPredictor]

def kOrderVariantCount : Nat := 64

/-- One row of the three order tables. `std::shuffle` leaves a permutation of the base
    order in each. -/
structure ModuleOrders where
  plan : List PlanModule
  apply : List ApplyModule
  latch : List LatchModule
  plan_perm : plan.Perm basePlan
  apply_perm : apply.Perm baseApply
  latch_perm : latch.Perm baseLatch

/-- The tables `initialize_execution_orders` draws from the seed, by row. -/
abbrev ExecutionOrders := Nat → ModuleOrders

inductive Status where
  | notLoaded
  | running
  | halted
  | loadError
  | fetchOutOfBound
  | invalidInstruction
  | memoryOutOfBound
  | internalError
  deriving DecidableEq, Repr

structure RunResult where
  status : Status := .notLoaded
  value : Word := 0
  deriving DecidableEq, Repr

structure RobPreview where
  storeRequest : StoreCommitRequest := {}
  flush : Bool := false
  redirectPc : Address := 0

/-- The current half of the machine. -/
structure Core where
  memory : MemoryImage
  port : DataPort
  registers : RegisterIndex → Word
  rat : RegisterIndex → RobTag
  rob : RobState
  rs : RsState
  lsq : LsqState
  fu : FuResult
  preferLoad : Bool
  predictor : PredictorState
  pc : Address
  fetchStopped : Bool
  status : Status
  cycleCount : CycleCount
  committedCount : CycleCount
  exitCode : Word

structure Cpu where
  memoryUnit : MemoryUnit
  registerFile : RegisterFile
  renameTable : RenameTable
  rob : ReorderBuffer
  reservationStation : ReservationStation
  loadStoreQueue : LoadStoreQueue
  functionalUnit : FunctionalUnit
  commonDataBus : CommonDataBus
  branchPredictor : BranchPredictor
  currentPc : Address
  nextPc : Address
  fetchStopped : Bool
  nextFetchStopped : Bool
  status : Status
  cycleCount : CycleCount
  committedCount : CycleCount
  exitCode : Word
  orders : ExecutionOrders

def Cpu.core (cpu : Cpu) : Core :=
  { memory := cpu.memoryUnit.memory, port := cpu.memoryUnit.port.cur, registers := cpu.registerFile.registers
    rat := cpu.renameTable.cur, rob := cpu.rob.cur, rs := cpu.reservationStation.cur
    lsq := cpu.loadStoreQueue.cur, fu := cpu.functionalUnit.cur, preferLoad := cpu.commonDataBus.cur
    predictor := cpu.branchPredictor.cur, pc := cpu.currentPc, fetchStopped := cpu.fetchStopped
    status := cpu.status, cycleCount := cpu.cycleCount, committedCount := cpu.committedCount
    exitCode := cpu.exitCode }

namespace Core

/-! ## Observe -/

def previewRob (s : Core) : RobPreview :=
  match ReorderBuffer.front s.rob with
  | none => {}
  | some head =>
    let storeRequest : StoreCommitRequest :=
      if head.isStore && !head.ready then { tag := head.tag, valid := true } else {}
    let isControl := head.isBranch || head.isJump
    let flush := isControl && head.ready && head.predictedNextPc != head.actualNextPc
    { storeRequest := storeRequest, flush := flush, redirectPc := if flush then head.actualNextPc else 0 }

/-- The prediction and whether it is a taken one. -/
def predictedNextPc (s : Core) (instruction : DecodedInstruction) (pc : Address) : Address × Bool :=
  let sequential := pc + kInstructionWidth
  if instruction.isBranch then
    let predictedTaken := BranchPredictor.predictTaken s.predictor pc
    (if predictedTaken then pc + instruction.immediate else sequential, predictedTaken)
  else if instruction.op = .jal then (pc + instruction.immediate, true)
  else (sequential, false)

/-- `none` is a fetch error. -/
def fetchAndDecoded (s : Core) : Option DecodePacket :=
  let response := MemoryUnit.fetch s.memory s.pc
  if !response.valid || !response.success then none
  else
    let decoded := Decoder.decode response.instruction
    let (predictedPc, predictedTaken) := s.predictedNextPc decoded response.pc
    some
      { pc := response.pc, instruction := response.instruction, decoded := decoded
        predictedPc := predictedPc, predictedTaken := predictedTaken, valid := true }

def sourceState (s : Core) (reg : RegisterIndex) : SourceState :=
  if reg = 0 then {}
  else
    let architecturalValue := RegisterFile.read s.registers reg
    let producer := RenameTable.lookup s.rat reg
    if producer.valid = false then { architecturalValue := architecturalValue, producer := producer }
    else
      match ReorderBuffer.lookup s.rob producer with
      | some entry =>
        if entry.ready then
          { architecturalValue := architecturalValue, producer := producer
            producerReady := true, producerValue := entry.value }
        else { architecturalValue := architecturalValue, producer := producer }
      | none => { architecturalValue := architecturalValue, producer := producer }

/-- The combinational wires of phase A. -/
structure Observed where
  preview : RobPreview
  cdb : CdbDecision
  lsq : LsqObserveInputs

def cdbInputs (s : Core) : CdbInputs :=
  if s.previewRob.flush then {} else { integerResult := s.fu, loadResult := s.lsq.loadResult }

def observe (s : Core) : Observed :=
  let preview := s.previewRob
  let cdb := CommonDataBus.plan s.preferLoad s.cdbInputs
  { preview := preview
    cdb := cdb
    lsq :=
      { storeRequest := preview.storeRequest
        memoryResponse := MemoryUnit.dataResponse s.port
        memoryAvailable := MemoryUnit.dataPortAvailable s.port
        loadResultGranted := cdb.outputs.loadGranted
        flush := preview.flush } }

/-! ## Plan -/

/-- Everything the four `plan`s put out. -/
structure Plans where
  issue : IssueOutputs := {}
  fetchError : Bool := false
  rob : RobDecision := {}
  rs : ReservationStation.RsDecision := {}
  lsq : LsqDecision := {}

def issueInputs (s : Core) (o : Observed) (packet : DecodePacket) : IssueInputs :=
  { packet := packet
    allocatedTag := ReorderBuffer.nextTag s.rob
    cdb := o.cdb.outputs.broadcast
    lsqAvailable := !LoadStoreQueue.full s.lsq
    robAvailable := !ReorderBuffer.full s.rob
    rs1 := s.sourceState packet.decoded.rs1
    rs2 := s.sourceState packet.decoded.rs2
    rsAvailable := ReservationStation.available s.rs }

/-- The fetch error flag and the issue outputs. -/
def planIssue (s : Core) (o : Observed) : Bool × IssueOutputs :=
  if !o.preview.flush && !s.fetchStopped && !ReorderBuffer.full s.rob then
    match s.fetchAndDecoded with
    | none => (true, {})
    | some packet => (false, IssueUnit.plan (s.issueInputs o packet))
  else (false, {})

def planStep (s : Core) (o : Observed) (p : Plans) : PlanModule → Plans
  | .issue => { p with fetchError := (s.planIssue o).1, issue := (s.planIssue o).2 }
  | .reorderBuffer => { p with rob := ReorderBuffer.plan s.rob }
  | .reservationStation => { p with rs := ReservationStation.plan s.rs o.preview.flush }
  | .loadStoreQueue => { p with lsq := LoadStoreQueue.plan s.lsq o.lsq }

/-! ## Frozen inputs -/

def issueEffective (p : Plans) : Bool := p.issue.issued && !p.rob.outputs.flush

def lsqInputs (o : Observed) (p : Plans) : LsqInputs :=
  { issueValid := p.issue.writeLsq && !o.preview.flush
    issueEntry := p.issue.lsqEntry
    cdb := o.cdb.outputs.broadcast
    flush := o.preview.flush }

def robInputs (o : Observed) (p : Plans) : RobInputs :=
  { issueValid := p.issue.writeRob && !o.preview.flush
    issueEntry := p.issue.robEntry
    completion := o.cdb.outputs.completion
    storeCompletion := p.lsq.outputs.storeCompletion }

def nextPc (s : Core) (p : Plans) : Address :=
  if p.rob.outputs.flush then p.rob.outputs.redirectPc
  else if issueEffective p then p.issue.robEntry.predictedNextPc
  else s.pc

def nextFetchStopped (s : Core) (p : Plans) : Bool :=
  if p.rob.outputs.flush then false
  else if issueEffective p && p.issue.robEntry.op == .halt then true
  else s.fetchStopped

def rsInputs (s : Core) (o : Observed) (p : Plans) : RsInputs :=
  { cdb := o.cdb.outputs.broadcast
    flush := o.preview.flush
    fuAvailable := FunctionalUnit.canAccept s.fu o.cdb.outputs.integerGranted
    issueEntry := p.issue.rsEntry
    issueValid := p.issue.writeRs && issueEffective p }

def registerWrite (p : Plans) : RegisterWrite :=
  let commit := p.rob.outputs.commit
  if commit.valid && commit.entry.writesRd then
    { rd := commit.entry.rd, value := commit.entry.value, valid := true }
  else {}

def ratWrite (p : Plans) : RatWrite :=
  if p.issue.rename.valid && issueEffective p then
    { rd := p.issue.rename.rd, tag := p.issue.rename.tag, valid := true }
  else {}

def ratCommit (p : Plans) : RatCommit :=
  let commit := p.rob.outputs.commit
  if commit.valid && commit.entry.writesRd then
    { rd := commit.entry.rd, tag := commit.entry.tag, valid := true }
  else {}

def predictorUpdate (p : Plans) : BranchPredictorUpdate :=
  let commit := p.rob.outputs.commit
  if commit.valid && commit.entry.isBranch then
    { pc := commit.entry.pc, actualTaken := commit.entry.branchTaken
      predictedNextPc := commit.entry.predictedNextPc, actualNextPc := commit.entry.actualNextPc, valid := true }
  else {}

def nextCommittedCount (s : Core) (p : Plans) : CycleCount :=
  let commit := p.rob.outputs.commit
  if commit.valid && commit.entry.op != .halt then s.committedCount + 1 else s.committedCount

/-- A fetch or decode error counts only with an empty ROB; a memory error counts at once;
    HALT, committing, overrides them all. -/
def nextStatus (s : Core) (p : Plans) : Status :=
  let status := s.status
  let status := if p.fetchError && ReorderBuffer.empty s.rob then .fetchOutOfBound else status
  let status :=
    if p.issue.status == .invalidInstruction && ReorderBuffer.empty s.rob then .invalidInstruction else status
  let status := if p.issue.status == .invalidAllocation then .internalError else status
  let status := if p.lsq.outputs.memoryError then .memoryOutOfBound else status
  if p.rob.outputs.commit.halted then .halted else status

def nextExitCode (s : Core) (p : Plans) : Word :=
  if p.rob.outputs.commit.halted then RegisterFile.read s.registers 10 &&& 0xff else s.exitCode

/-! ## The edge -/

/-- All four `plan`s, in the base order. -/
def plans (s : Core) (o : Observed) : Plans :=
  { fetchError := (s.planIssue o).1
    issue := (s.planIssue o).2
    rob := ReorderBuffer.plan s.rob
    rs := ReservationStation.plan s.rs o.preview.flush
    lsq := LoadStoreQueue.plan s.lsq o.lsq }

def tick (s : Core) : Core :=
  if s.status ≠ .running then s
  else
    let o := s.observe
    let p := s.plans o
    let port := MemoryUnit.step s.memory s.port p.lsq.outputs.memoryRequest
    { memory :=
        if port.storeWrite.valid then (MemoryUnit.applyStoreWrite s.memory port.storeWrite).2 else s.memory
      port := port.port
      registers := ((RegisterFile.apply ⟨s.registers, {}⟩ (registerWrite p)).latch).registers
      rat := Function.update (RenameTable.step s.rat (ratWrite p) (ratCommit p) p.rob.outputs.flush) 0 {}
      rob := (ReorderBuffer.step s.rob (robInputs o p) p.rob).2
      rs := (ReservationStation.step s.rs (s.rsInputs o p) p.rs).2
      lsq := (LoadStoreQueue.step s.lsq (lsqInputs o p) p.lsq).2
      fu := (FunctionalUnit.step s.fu p.rs.outputs.dispatch o.preview.flush o.cdb.outputs.integerGranted).2
      preferLoad := o.cdb.nextPreferLoad
      predictor := BranchPredictor.step s.predictor (predictorUpdate p)
      pc := s.nextPc p
      fetchStopped := s.nextFetchStopped p
      status := s.nextStatus p
      cycleCount := s.cycleCount + 1
      committedCount := s.nextCommittedCount p
      exitCode := s.nextExitCode p }

/-- The state after `n` cycles. -/
def after (s : Core) (n : Nat) : Core := tick^[n] s

end Core

namespace Cpu

open TomasuloCpu.Core

/-! ## Load -/

def new (orders : ExecutionOrders) : Cpu :=
  { memoryUnit := .new
    registerFile := .reset
    renameTable := .reset RenameTable.invalidate
    rob := .reset ReorderBuffer.resetState
    reservationStation := .reset ReservationStation.resetState
    loadStoreQueue := .reset LoadStoreQueue.resetState
    functionalUnit := .reset {}
    commonDataBus := .reset false
    branchPredictor := .reset BranchPredictor.resetState
    currentPc := 0, nextPc := 0, fetchStopped := false, nextFetchStopped := false
    status := .notLoaded, cycleCount := 0, committedCount := 0, exitCode := 0
    orders := orders }

def load (cpu : Cpu) (input : Istream) : ImageLoadResult × Cpu :=
  let (result, memoryUnit) := cpu.memoryUnit.reset.load input
  (result,
    { cpu with
      memoryUnit := memoryUnit
      registerFile := .reset
      renameTable := .reset RenameTable.invalidate
      rob := .reset ReorderBuffer.resetState
      reservationStation := .reset ReservationStation.resetState
      loadStoreQueue := .reset LoadStoreQueue.resetState
      functionalUnit := .reset {}
      commonDataBus := .reset false
      branchPredictor := .reset BranchPredictor.resetState
      currentPc := 0, nextPc := 0, fetchStopped := false, nextFetchStopped := false
      cycleCount := 0, committedCount := 0, exitCode := 0
      status := if result.ok then .running else .loadError })

def registerValue (cpu : Cpu) (index : RegisterIndex) : Word :=
  RegisterFile.read cpu.registerFile.registers index

def branchCount (cpu : Cpu) : CycleCount := cpu.branchPredictor.cur.predictionCount

def correctBranchCount (cpu : Cpu) : CycleCount := cpu.branchPredictor.cur.correctCount

/-! ## Cycle -/

/-- The machine in the middle of phase C, with what each module answered. -/
structure Applying where
  cpu : Cpu
  robIssueAccepted : Bool := false
  rsIssueAccepted : Bool := false
  lsqIssueAccepted : Bool := false
  fuAccepted : Bool := false
  memoryAccepted : Bool := false

def applyStep (s : Core) (o : Observed) (p : Plans) (a : Applying) : ApplyModule → Applying
  | .commonDataBus => { a with cpu := { a.cpu with commonDataBus := a.cpu.commonDataBus.apply o.cdb } }
  | .reorderBuffer =>
    let r := ReorderBuffer.apply a.cpu.rob (robInputs o p) p.rob
    { a with robIssueAccepted := r.1, cpu := { a.cpu with rob := r.2 } }
  | .reservationStation =>
    let r := ReservationStation.apply a.cpu.reservationStation (s.rsInputs o p) p.rs
    { a with rsIssueAccepted := r.1, cpu := { a.cpu with reservationStation := r.2 } }
  | .loadStoreQueue =>
    let r := LoadStoreQueue.apply a.cpu.loadStoreQueue (lsqInputs o p) p.lsq
    { a with lsqIssueAccepted := r.1, cpu := { a.cpu with loadStoreQueue := r.2 } }
  | .functionalUnit =>
    let r := FunctionalUnit.apply a.cpu.functionalUnit p.rs.outputs.dispatch o.preview.flush
      o.cdb.outputs.integerGranted
    { a with fuAccepted := r.1, cpu := { a.cpu with functionalUnit := r.2 } }
  | .registerFile =>
    { a with cpu := { a.cpu with registerFile := a.cpu.registerFile.apply (registerWrite p) } }
  | .renameTable =>
    { a with cpu := { a.cpu with
        renameTable := RenameTable.apply a.cpu.renameTable (ratWrite p) (ratCommit p) p.rob.outputs.flush } }
  | .branchPredictor =>
    { a with cpu := { a.cpu with
        branchPredictor := BranchPredictor.apply a.cpu.branchPredictor (predictorUpdate p) } }
  | .memoryUnit =>
    let r := a.cpu.memoryUnit.apply p.lsq.outputs.memoryRequest
    { a with memoryAccepted := r.1, cpu := { a.cpu with memoryUnit := r.2 } }

def latchStep (cpu : Cpu) : LatchModule → Cpu
  | .registerFile => { cpu with registerFile := cpu.registerFile.latch }
  | .renameTable => { cpu with renameTable := RenameTable.latch cpu.renameTable }
  | .reorderBuffer => { cpu with rob := Clocked.latch cpu.rob }
  | .reservationStation => { cpu with reservationStation := Clocked.latch cpu.reservationStation }
  | .loadStoreQueue => { cpu with loadStoreQueue := Clocked.latch cpu.loadStoreQueue }
  | .functionalUnit => { cpu with functionalUnit := Clocked.latch cpu.functionalUnit }
  | .commonDataBus => { cpu with commonDataBus := Clocked.latch cpu.commonDataBus }
  | .memoryUnit => { cpu with memoryUnit := cpu.memoryUnit.latch }
  | .branchPredictor => { cpu with branchPredictor := Clocked.latch cpu.branchPredictor }

/-- Phases A to C: the plans, and the machine after every `apply`. -/
def applied (order : ModuleOrders) (cpu : Cpu) : Plans × Applying :=
  let s := cpu.core
  let o := s.observe
  let p := order.plan.foldl (planStep s o) {}
  let cpu :=
    { cpu with
      cycleCount := cpu.cycleCount + 1
      nextPc := s.nextPc p
      nextFetchStopped := s.nextFetchStopped p }
  (p, order.apply.foldl (applyStep s o p) { cpu := cpu })

/-- One cycle with the module orders given. The status and the exit code are read from
    the machine between `apply` and latch. -/
def cycleWith (order : ModuleOrders) (cpu : Cpu) : Cpu :=
  if cpu.status ≠ .running then cpu
  else
    let (p, a) := cpu.applied order
    let between := a.cpu.core
    let status := between.nextStatus p
    let latched := order.latch.foldl latchStep
      { a.cpu with
        committedCount := between.nextCommittedCount p
        exitCode := between.nextExitCode p }
    { latched with
      currentPc := latched.nextPc
      fetchStopped := latched.nextFetchStopped
      status := status }

/-- `cycle_count_` is already bumped when it picks the row. -/
def cycle (cpu : Cpu) : Cpu :=
  cpu.cycleWith (cpu.orders ((cpu.cycleCount + 1).toNat % kOrderVariantCount))

def cycles (cpu : Cpu) (n : Nat) : Cpu := cycle^[n] cpu

/-- `CPU::run`, its loop cut off after `fuel` cycles. -/
def run (cpu : Cpu) : Nat → Option RunResult
  | 0 => if cpu.status ≠ .running then some ⟨cpu.status, cpu.exitCode⟩ else none
  | fuel + 1 => if cpu.status ≠ .running then some ⟨cpu.status, cpu.exitCode⟩ else cpu.cycle.run fuel

end Cpu

end TomasuloCpu
