/-
  TomasuloCpu.Isa.Instruction — operations and decoded instructions
  (`isa/instruction.hpp`), and the messages that carry them between modules
  (`tomasulo/signals.hpp`).
-/
import TomasuloCpu.Common.Types

namespace TomasuloCpu

inductive Op where
  | lui | auipc
  | addi | slti | sltiu | xori | ori | andi | slli | srli | srai | jalr
  | lb | lh | lw | lbu | lhu
  | add | sub | and | xor | or | sll | slt | sltu | srl | sra
  | beq | bne | blt | bge | bltu | bgeu
  | sb | sh | sw
  | jal
  /-- The stop marker of the simulator; not an instruction of its own in RV32I. -/
  | halt
  | invalid
  deriving DecidableEq, Repr

inductive OperandSource where
  | immediate
  | register
  | programCounter
  | zero
  deriving DecidableEq, Repr

structure DecodedInstruction where
  op : Op := .invalid
  rd : RegisterIndex := 0
  rs1 : RegisterIndex := 0
  rs2 : RegisterIndex := 0
  immediate : Word := 0
  lhsSource : OperandSource := .zero
  rhsSource : OperandSource := .zero
  usesRs1 : Bool := false
  usesRs2 : Bool := false
  writesRd : Bool := false
  isLoad : Bool := false
  isStore : Bool := false
  isBranch : Bool := false
  isJump : Bool := false
  deriving DecidableEq, Repr

/-- A source operand: a value, or the tag whose broadcast will bring it. -/
structure Operand where
  value : Word := 0
  tag : RobTag := {}
  ready : Bool := false
  deriving DecidableEq, Repr

structure DecodePacket where
  pc : Address := 0
  instruction : InstructionBits := 0
  decoded : DecodedInstruction := {}
  predictedPc : Address := 0
  predictedTaken : Bool := false
  valid : Bool := false
  deriving DecidableEq, Repr

/-- CDB to ROB, RS and LSQ. -/
structure CdbMsg where
  tag : RobTag := {}
  value : Word := 0
  valid : Bool := false
  deriving DecidableEq, Repr

/-- Reservation station to functional unit. -/
structure Execute where
  op : Op := .invalid
  operand1 : Word := 0
  operand2 : Word := 0
  immediate : Word := 0
  pc : Address := 0
  tag : RobTag := {}
  valid : Bool := false
  deriving DecidableEq, Repr

/-- A finished result on its way to the CDB; control instructions fill all of it. -/
structure FuResult where
  tag : RobTag := {}
  result : Word := 0
  actualNextPc : Address := 0
  branchTaken : Bool := false
  hasControlResult : Bool := false
  valid : Bool := false
  deriving DecidableEq, Repr

/-- A module's registers: `cur` is what it shows during the cycle, `next` is what
    `apply` prepares and the latch makes current. -/
structure Clocked (σ : Type) where
  cur : σ
  next : σ

namespace Clocked

def latch {σ : Type} (m : Clocked σ) : Clocked σ := { m with cur := m.next }

/-- Both halves at the same value, as the modules' `reset` leaves them. -/
def reset {σ : Type} (s : σ) : Clocked σ := ⟨s, s⟩

@[simp] theorem latch_cur {σ : Type} (m : Clocked σ) : m.latch.cur = m.next := rfl
@[simp] theorem reset_cur {σ : Type} (s : σ) : (reset s).cur = s := rfl

end Clocked

end TomasuloCpu
