/-
  TomasuloCpu.Tomasulo.IssueUnit — operand resolution and the entries an issue writes
  (`tomasulo/issue_unit.cpp`).
-/
import TomasuloCpu.Tomasulo.LoadStoreQueue

namespace TomasuloCpu

inductive IssueStatus where
  | invalidInstruction
  | invalidAllocation
  | unavailability
  | issued
  | empty
  deriving DecidableEq, Repr

structure RenameUpdate where
  rd : RegisterIndex := 0
  tag : RobTag := {}
  valid : Bool := false
  deriving DecidableEq, Repr

/-- What a source register looks like in this cycle: its committed value, and the ROB
    entry that will replace it, if any. -/
structure SourceState where
  architecturalValue : Word := 0
  producer : RobTag := {}
  producerValue : Word := 0
  producerReady : Bool := false
  deriving DecidableEq, Repr

structure IssueInputs where
  packet : DecodePacket := {}
  allocatedTag : RobTag := {}
  rs1 : SourceState := {}
  rs2 : SourceState := {}
  cdb : CdbMsg := {}
  robAvailable : Bool := false
  rsAvailable : Bool := false
  lsqAvailable : Bool := false

structure IssueOutputs where
  status : IssueStatus := .empty
  robEntry : RobEntry := {}
  rsEntry : RsEntry := {}
  lsqEntry : LsqEntry := {}
  rename : RenameUpdate := {}
  writeRob : Bool := false
  writeRs : Bool := false
  writeLsq : Bool := false
  deriving DecidableEq

def IssueOutputs.issued (o : IssueOutputs) : Bool := o.status == .issued

namespace IssueUnit

def isMemoryInstruction (ins : DecodedInstruction) : Bool := ins.isLoad || ins.isStore

def readyOperand (value : Word) : Operand := { value := value, ready := true }

/-- x0, then the register file, then this cycle's broadcast, then the ROB, else wait. -/
def resolveRegister (idx : RegisterIndex) (src : SourceState) (msg : CdbMsg) : Operand :=
  if idx = 0 then readyOperand 0
  else if src.producer.valid = false then readyOperand src.architecturalValue
  else if msg.valid && msg.tag.valid && msg.tag == src.producer then readyOperand msg.value
  else if src.producerReady then readyOperand src.producerValue
  else { ready := false, tag := src.producer }

def selectOperand (src : OperandSource) (registerOperand : Operand) (immediate : Word) (pc : Address) : Operand :=
  match src with
  | .immediate => readyOperand immediate
  | .programCounter => readyOperand pc
  | .register => registerOperand
  | .zero => readyOperand 0

def makeRobEntry (inputs : IssueInputs) : RobEntry :=
  let instruction := inputs.packet.decoded
  { tag := inputs.allocatedTag, op := instruction.op, pc := inputs.packet.pc, rd := instruction.rd
    writesRd := instruction.writesRd && instruction.rd != 0
    ready := instruction.op == .halt
    predictedNextPc := inputs.packet.predictedPc, branchTaken := false
    isBranch := instruction.isBranch, isStore := instruction.isStore, isJump := instruction.isJump
    valid := true }

def makeRsEntry (inputs : IssueInputs) (rs1 rs2 : Operand) : RsEntry :=
  let instruction := inputs.packet.decoded
  { op := instruction.op, destination := inputs.allocatedTag
    lhs := selectOperand instruction.lhsSource rs1 instruction.immediate inputs.packet.pc
    rhs := selectOperand instruction.rhsSource rs2 instruction.immediate inputs.packet.pc
    immediate := instruction.immediate, pc := inputs.packet.pc
    predictedNextPc := inputs.packet.predictedPc, busy := true }

def makeLsqEntry (inputs : IssueInputs) (rs1 rs2 : Operand) : LsqEntry :=
  let instruction := inputs.packet.decoded
  { type := if instruction.isLoad then .load else .store
    op := instruction.op, destination := inputs.allocatedTag, base := rs1
    storeData := if instruction.isStore then rs2 else readyOperand 0
    immediate := instruction.immediate, valid := true }

def plan (inputs : IssueInputs) : IssueOutputs :=
  if inputs.packet.valid = false then {}
  else if inputs.packet.decoded.op = .invalid then { status := .invalidInstruction }
  else if inputs.allocatedTag.valid = false then { status := .invalidAllocation }
  else
    let instruction := inputs.packet.decoded
    let needLsq := isMemoryInstruction instruction
    let isHalt := instruction.op == .halt
    let needRs := !isHalt && !needLsq
    if !inputs.robAvailable || (needLsq && !inputs.lsqAvailable) || (needRs && !inputs.rsAvailable) then
      { status := .unavailability }
    else
      let rs1 := resolveRegister instruction.rs1 inputs.rs1 inputs.cdb
      let rs2 := resolveRegister instruction.rs2 inputs.rs2 inputs.cdb
      let robEntry := makeRobEntry inputs
      { status := .issued
        robEntry := robEntry
        writeRob := true
        writeRs := needRs
        rsEntry := if needRs then makeRsEntry inputs rs1 rs2 else {}
        writeLsq := needLsq
        lsqEntry := if needLsq then makeLsqEntry inputs rs1 rs2 else {}
        rename :=
          if robEntry.writesRd then { rd := instruction.rd, tag := inputs.allocatedTag, valid := true } else {} }

end IssueUnit

end TomasuloCpu
