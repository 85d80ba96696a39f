/-
  TomasuloCpu.Isa.Decoder — `Decoder::decode` (`isa/decoder.cpp`).
-/
import TomasuloCpu.Isa.Instruction

namespace TomasuloCpu.Decoder

def kHaltEncoding : InstructionBits := 0x0ff00513

def kLoadOpcode : Word := 0x03
def kOpImmediateOpcode : Word := 0x13
def kAuipcOpcode : Word := 0x17
def kStoreOpcode : Word := 0x23
def kOpOpcode : Word := 0x33
def kLuiOpcode : Word := 0x37
def kBranchOpcode : Word := 0x63
def kJalrOpcode : Word := 0x67
def kJalOpcode : Word := 0x6f

def kBaseFunct7 : Word := 0x00
def kAlternateFunct7 : Word := 0x20

def decodeRegister (bits : InstructionBits) (high low : Nat) : RegisterIndex :=
  (extractBits bits high low).setWidth 8

def writeRegister (rd : RegisterIndex) : Bool := rd != 0

def decodeIImmediate (bits : InstructionBits) : Word := signExtend (extractBits bits 31 20) 12

def decodeSImmediate (bits : InstructionBits) : Word :=
  signExtend ((extractBits bits 31 25 <<< 5) ||| extractBits bits 11 7) 12

def decodeBImmediate (bits : InstructionBits) : Word :=
  let immediate : Word := 0
  let immediate := if getBit bits 31 then immediate ||| (1#32 <<< 12) else immediate
  let immediate := if getBit bits 7 then immediate ||| (1#32 <<< 11) else immediate
  let immediate := immediate ||| (extractBits bits 30 25 <<< 5)
  let immediate := immediate ||| (extractBits bits 11 8 <<< 1)
  signExtend immediate 13

def decodeUImmediate (bits : InstructionBits) : Word := bits &&& 0xfffff000

def decodeJImmediate (bits : InstructionBits) : Word :=
  let immediate : Word := 0
  let immediate := if getBit bits 31 then immediate ||| (1#32 <<< 20) else immediate
  let immediate := immediate ||| (extractBits bits 19 12 <<< 12)
  let immediate := if getBit bits 20 then immediate ||| (1#32 <<< 11) else immediate
  let immediate := immediate ||| (extractBits bits 30 21 <<< 1)
  signExtend immediate 21

def opOfRType (funct3 funct7 : Word) : Op :=
  if funct3 = 0 then
    if funct7 = kBaseFunct7 then .add else if funct7 = kAlternateFunct7 then .sub else .invalid
  else if funct3 = 1 then if funct7 = kBaseFunct7 then .sll else .invalid
  else if funct3 = 2 then if funct7 = kBaseFunct7 then .slt else .invalid
  else if funct3 = 3 then if funct7 = kBaseFunct7 then .sltu else .invalid
  else if funct3 = 4 then if funct7 = kBaseFunct7 then .xor else .invalid
  else if funct3 = 5 then
    if funct7 = kBaseFunct7 then .srl else if funct7 = kAlternateFunct7 then .sra else .invalid
  else if funct3 = 6 then if funct7 = kBaseFunct7 then .or else .invalid
  else if funct3 = 7 then if funct7 = kBaseFunct7 then .and else .invalid
  else .invalid

def decodeRType (bits : InstructionBits) : DecodedInstruction :=
  let op := opOfRType (extractBits bits 14 12) (extractBits bits 31 25)
  if op = .invalid then {}
  else
    let rd := decodeRegister bits 11 7
    { op := op, rd := rd, rs1 := decodeRegister bits 19 15, rs2 := decodeRegister bits 24 20
      lhsSource := .register, rhsSource := .register
      usesRs1 := true, usesRs2 := true, writesRd := writeRegister rd }

/-- The operation-immediate branch of `decode_I_type`. `none`: an encoding it rejects. -/
def opImmediate (bits : InstructionBits) : Option (Op × Word) :=
  let funct3 := extractBits bits 14 12
  let funct7 := extractBits bits 31 25
  let shamt := extractBits bits 24 20
  let immediate := decodeIImmediate bits
  if funct3 = 0 then some (.addi, immediate)
  else if funct3 = 1 then if funct7 ≠ kBaseFunct7 then none else some (.slli, shamt)
  else if funct3 = 2 then some (.slti, immediate)
  else if funct3 = 3 then some (.sltiu, immediate)
  else if funct3 = 4 then some (.xori, immediate)
  else if funct3 = 5 then
    if funct7 = kBaseFunct7 then some (.srli, shamt)
    else if funct7 = kAlternateFunct7 then some (.srai, shamt)
    else none
  else if funct3 = 6 then some (.ori, immediate)
  else if funct3 = 7 then some (.andi, immediate)
  else none

def opOfLoad (funct3 : Word) : Option Op :=
  if funct3 = 0 then some .lb
  else if funct3 = 1 then some .lh
  else if funct3 = 2 then some .lw
  else if funct3 = 4 then some .lbu
  else if funct3 = 5 then some .lhu
  else none

def decodeIType (bits : InstructionBits) : DecodedInstruction :=
  let opcode := extractBits bits 6 0
  let rd := decodeRegister bits 11 7
  let rs1 := decodeRegister bits 19 15
  if opcode = kOpImmediateOpcode then
    match opImmediate bits with
    | none => {}
    | some (op, immediate) =>
      { op := op, rd := rd, rs1 := rs1, immediate := immediate
        lhsSource := .register, rhsSource := .immediate
        usesRs1 := true, writesRd := writeRegister rd }
  else if opcode = kLoadOpcode then
    match opOfLoad (extractBits bits 14 12) with
    | none => {}
    | some op =>
      { op := op, rd := rd, rs1 := rs1, immediate := decodeIImmediate bits
        lhsSource := .register, rhsSource := .immediate
        isLoad := true, usesRs1 := true, writesRd := writeRegister rd }
  else if opcode = kJalrOpcode then
    if extractBits bits 14 12 ≠ 0 then {}
    else
      { op := .jalr, rd := rd, rs1 := rs1, immediate := decodeIImmediate bits
        lhsSource := .register, rhsSource := .immediate
        usesRs1 := true, writesRd := writeRegister rd, isJump := true }
  else {}

def opOfStore (funct3 : Word) : Option Op :=
  if funct3 = 0 then some .sb
  else if funct3 = 1 then some .sh
  else if funct3 = 2 then some .sw
  else none

def decodeSType (bits : InstructionBits) : DecodedInstruction :=
  match opOfStore (extractBits bits 14 12) with
  | none => {}
  | some op =>
    { op := op, rs1 := decodeRegister bits 19 15, rs2 := decodeRegister bits 24 20
      immediate := decodeSImmediate bits
      lhsSource := .register, rhsSource := .immediate
      usesRs1 := true, usesRs2 := true, isStore := true }

def opOfBranch (funct3 : Word) : Option Op :=
  if funct3 = 0 then some .beq
  else if funct3 = 1 then some .bne
  else if funct3 = 4 then some .blt
  else if funct3 = 5 then some .bge
  else if funct3 = 6 then some .bltu
  else if funct3 = 7 then some .bgeu
  else none

def decodeBType (bits : InstructionBits) : DecodedInstruction :=
  match opOfBranch (extractBits bits 14 12) with
  | none => {}
  | some op =>
    { op := op, rs1 := decodeRegister bits 19 15, rs2 := decodeRegister bits 24 20
      immediate := decodeBImmediate bits
      lhsSource := .register, rhsSource := .register
      usesRs1 := true, usesRs2 := true, isBranch := true }

def decodeJType (bits : InstructionBits) : DecodedInstruction :=
  let rd := decodeRegister bits 11 7
  { op := .jal, rd := rd, immediate := decodeJImmediate bits
    lhsSource := .programCounter, rhsSource := .immediate
    writesRd := writeRegister rd, isJump := true }

def decodeUType (bits : InstructionBits) : DecodedInstruction :=
  let opcode := extractBits bits 6 0
  let rd := decodeRegister bits 11 7
  if opcode = kLuiOpcode then
    { op := .lui, lhsSource := .zero, rd := rd, immediate := decodeUImmediate bits
      rhsSource := .immediate, writesRd := writeRegister rd }
  else if opcode = kAuipcOpcode then
    { op := .auipc, lhsSource := .programCounter, rd := rd, immediate := decodeUImmediate bits
      rhsSource := .immediate, writesRd := writeRegister rd }
  else {}

def decode (bits : InstructionBits) : DecodedInstruction :=
  if bits = kHaltEncoding then { op := .halt }
  else
    let opcode := extractBits bits 6 0
    if opcode = kOpOpcode then decodeRType bits
    else if opcode = kLoadOpcode || opcode = kOpImmediateOpcode || opcode = kJalrOpcode then decodeIType bits
    else if opcode = kStoreOpcode then decodeSType bits
    else if opcode = kBranchOpcode then decodeBType bits
    else if opcode = kLuiOpcode || opcode = kAuipcOpcode then decodeUType bits
    else if opcode = kJalOpcode then decodeJType bits
    else {}

end TomasuloCpu.Decoder
