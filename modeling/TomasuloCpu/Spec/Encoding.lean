/-
  TomasuloCpu.Spec.Encoding — the instruction words of RV32I.

  `Op.encoding` is the opcode table of the 37 integer and memory instructions, `encode`
  packs the fields of an instruction in its format, and `decoded` is what those fields
  say. An `Instruction` has an immediate that its format can hold (`Format.Fits`).
-/
import TomasuloCpu.Isa.DecoderProofs

namespace TomasuloCpu

namespace Rv32i

/-- The formats; `shift` is the I format with a shift amount below bit 25. -/
inductive Format where
  | r | i | shift | s | b | u | j
  deriving DecidableEq, Repr

structure Encoding where
  format : Format
  opcode : BitVec 7
  funct3 : BitVec 3 := 0
  funct7 : BitVec 7 := 0
  deriving DecidableEq, Repr

namespace Format

def hasRd : Format → Bool
  | .s | .b => false
  | _ => true

def hasRs1 : Format → Bool
  | .u | .j => false
  | _ => true

def hasRs2 : Format → Bool
  | .r | .s | .b => true
  | _ => false

def hasImmediate : Format → Bool
  | .r => false
  | _ => true

/-- The immediates a format can hold. -/
def Fits (format : Format) (immediate : Word) : Prop :=
  match format with
  | .r => True
  | .i | .s => -2048 ≤ immediate.toInt ∧ immediate.toInt < 2048
  | .shift => immediate.toNat < 32
  | .b => -4096 ≤ immediate.toInt ∧ immediate.toInt < 4096 ∧ immediate.toInt % 2 = 0
  | .u => immediate.toNat % 4096 = 0
  | .j => -1048576 ≤ immediate.toInt ∧ immediate.toInt < 1048576 ∧ immediate.toInt % 2 = 0

end Format

/-- The opcode table. -/
def encoding : Op → Option Encoding
  | .lui => some { format := .u, opcode := 0x37 }
  | .auipc => some { format := .u, opcode := 0x17 }
  | .jal => some { format := .j, opcode := 0x6f }
  | .jalr => some { format := .i, opcode := 0x67 }
  | .beq => some { format := .b, opcode := 0x63, funct3 := 0 }
  | .bne => some { format := .b, opcode := 0x63, funct3 := 1 }
  | .blt => some { format := .b, opcode := 0x63, funct3 := 4 }
  | .bge => some { format := .b, opcode := 0x63, funct3 := 5 }
  | .bltu => some { format := .b, opcode := 0x63, funct3 := 6 }
  | .bgeu => some { format := .b, opcode := 0x63, funct3 := 7 }
  | .lb => some { format := .i, opcode := 0x03, funct3 := 0 }
  | .lh => some { format := .i, opcode := 0x03, funct3 := 1 }
  | .lw => some { format := .i, opcode := 0x03, funct3 := 2 }
  | .lbu => some { format := .i, opcode := 0x03, funct3 := 4 }
  | .lhu => some { format := .i, opcode := 0x03, funct3 := 5 }
  | .sb => some { format := .s, opcode := 0x23, funct3 := 0 }
  | .sh => some { format := .s, opcode := 0x23, funct3 := 1 }
  | .sw => some { format := .s, opcode := 0x23, funct3 := 2 }
  | .addi => some { format := .i, opcode := 0x13, funct3 := 0 }
  | .slti => some { format := .i, opcode := 0x13, funct3 := 2 }
  | .sltiu => some { format := .i, opcode := 0x13, funct3 := 3 }
  | .xori => some { format := .i, opcode := 0x13, funct3 := 4 }
  | .ori => some { format := .i, opcode := 0x13, funct3 := 6 }
  | .andi => some { format := .i, opcode := 0x13, funct3 := 7 }
  | .slli => some { format := .shift, opcode := 0x13, funct3 := 1, funct7 := 0x00 }
  | .srli => some { format := .shift, opcode := 0x13, funct3 := 5, funct7 := 0x00 }
  | .srai => some { format := .shift, opcode := 0x13, funct3 := 5, funct7 := 0x20 }
  | .add => some { format := .r, opcode := 0x33, funct3 := 0, funct7 := 0x00 }
  | .sub => some { format := .r, opcode := 0x33, funct3 := 0, funct7 := 0x20 }
  | .sll => some { format := .r, opcode := 0x33, funct3 := 1, funct7 := 0x00 }
  | .slt => some { format := .r, opcode := 0x33, funct3 := 2, funct7 := 0x00 }
  | .sltu => some { format := .r, opcode := 0x33, funct3 := 3, funct7 := 0x00 }
  | .xor => some { format := .r, opcode := 0x33, funct3 := 4, funct7 := 0x00 }
  | .srl => some { format := .r, opcode := 0x33, funct3 := 5, funct7 := 0x00 }
  | .sra => some { format := .r, opcode := 0x33, funct3 := 5, funct7 := 0x20 }
  | .or => some { format := .r, opcode := 0x33, funct3 := 6, funct7 := 0x00 }
  | .and => some { format := .r, opcode := 0x33, funct3 := 7, funct7 := 0x00 }
  | .halt | .invalid => none

/-- The word, most significant field first. `x.extractLsb' k n` is bits `k + n - 1` to `k`. -/
def encodeFields (e : Encoding) (rd rs1 rs2 : BitVec 5) (x : Word) : InstructionBits :=
  match e.format with
  | .r => e.funct7 ++ rs2 ++ rs1 ++ e.funct3 ++ rd ++ e.opcode
  | .i => x.extractLsb' 0 12 ++ rs1 ++ e.funct3 ++ rd ++ e.opcode
  | .shift => e.funct7 ++ x.extractLsb' 0 5 ++ rs1 ++ e.funct3 ++ rd ++ e.opcode
  | .s => x.extractLsb' 5 7 ++ rs2 ++ rs1 ++ e.funct3 ++ x.extractLsb' 0 5 ++ e.opcode
  | .b =>
    x.extractLsb' 12 1 ++ x.extractLsb' 5 6 ++ rs2 ++ rs1 ++ e.funct3 ++ x.extractLsb' 1 4 ++ x.extractLsb' 11 1 ++
      e.opcode
  | .u => x.extractLsb' 12 20 ++ rd ++ e.opcode
  | .j =>
    x.extractLsb' 20 1 ++ x.extractLsb' 1 10 ++ x.extractLsb' 11 1 ++ x.extractLsb' 12 8 ++ rd ++ e.opcode

/-- An instruction and its operands; a field that the format lacks plays no part. -/
structure Instruction where
  op : Op
  encoding : Encoding
  rd : BitVec 5
  rs1 : BitVec 5
  rs2 : BitVec 5
  immediate : Word
  listed : Rv32i.encoding op = some encoding
  fits : encoding.format.Fits immediate

namespace Instruction

def encode (ins : Instruction) : InstructionBits :=
  encodeFields ins.encoding ins.rd ins.rs1 ins.rs2 ins.immediate

/-- What a decoder has to return for it. -/
def decoded (ins : Instruction) : DecodedInstruction :=
  let format := ins.encoding.format
  { op := ins.op
    rd := if format.hasRd then ins.rd.setWidth 8 else 0
    rs1 := if format.hasRs1 then ins.rs1.setWidth 8 else 0
    rs2 := if format.hasRs2 then ins.rs2.setWidth 8 else 0
    immediate := if format.hasImmediate then ins.immediate else 0
    lhsSource := ins.op.lhsSource
    rhsSource := ins.op.rhsSource
    usesRs1 := format.hasRs1
    usesRs2 := format.hasRs2
    writesRd := format.hasRd && ins.rd != 0
    isLoad := ins.op.isLoad
    isStore := ins.op.isStore
    isBranch := ins.op.isBranch
    isJump := ins.op.isJump }

end Instruction

end Rv32i

end TomasuloCpu
