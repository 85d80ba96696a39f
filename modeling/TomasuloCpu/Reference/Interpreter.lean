/-
  TomasuloCpu.Reference.Interpreter — the sequential interpreter the repository keeps
  beside the processor (`reference/interpreter.cpp`).
-/
import TomasuloCpu.Isa.Decoder
import TomasuloCpu.Memory.Image
import Mathlib.Logic.Function.Iterate

namespace TomasuloCpu

inductive InterpreterStatus where
  | notLoaded
  | ready
  | running
  | halted
  | loadError
  | fetchOutOfBounds
  | invalidInstruction
  | memoryOutOfBounds
  deriving DecidableEq, Repr

structure StepResult where
  status : InterpreterStatus
  value : Word := 0
  deriving DecidableEq, Repr

structure Interpreter where
  memory : MemoryImage
  registers : RegisterIndex → Word
  status : InterpreterStatus
  pc : Address
  instructionCount : CycleCount
  exitCode : Word

namespace Interpreter

def kShiftMask : Word := 0x1f
def kLeastSignificantBitMask : Word := ~~~1#32

def arithmeticShiftRight (value : Word) (amount : Nat) : Word :=
  let amount := amount % 32
  if amount = 0 then value
  else
    let result := value >>> amount
    if value &&& 0x80000000 ≠ 0 then result ||| (~~~0#32 <<< (32 - amount)) else result

def signedLessThan (lhs rhs : Word) : Bool := decide (lhs.toInt < rhs.toInt)

def signedGreaterEqual (lhs rhs : Word) : Bool := decide (rhs.toInt ≤ lhs.toInt)

def word (b : Bool) : Word := if b then 1 else 0

def new : Interpreter := ⟨.clear, fun _ => 0, .notLoaded, 0, 0, 0⟩

def load (_ : Interpreter) (input : Istream) : ImageLoadResult × Interpreter :=
  let (result, memory) := MemoryImage.load input
  (result, ⟨memory, fun _ => 0, if result.ok then .ready else .loadError, 0, 0, 0⟩)

def currentResult (i : Interpreter) : StepResult := ⟨i.status, i.exitCode⟩

/-- The locals the `switch` of `step` fills, and the memory it leaves. -/
structure Effect where
  memory : MemoryImage
  nextPc : Address
  writebackValue : Word := 0
  hasWriteback : Bool := false

/-- The arms that compute a value and continue behind the instruction. -/
def writeback (i : Interpreter) (value : Word) : Effect :=
  { memory := i.memory, nextPc := i.pc + kInstructionWidth, writebackValue := value, hasWriteback := true }

def branch (i : Interpreter) (instruction : DecodedInstruction) (taken : Bool) : Effect :=
  { memory := i.memory, nextPc := if taken then i.pc + instruction.immediate else i.pc + kInstructionWidth }

def jump (i : Interpreter) (target : Address) : Effect :=
  { memory := i.memory, nextPc := target, writebackValue := i.pc + kInstructionWidth, hasWriteback := true }

def loadInto (i : Interpreter) (value : Option Word) : Except InterpreterStatus Effect :=
  match value with
  | none => .error .memoryOutOfBounds
  | some value => .ok (i.writeback value)

def storeTo (i : Interpreter) (written : Bool × MemoryImage) : Except InterpreterStatus Effect :=
  if written.1 then .ok { memory := written.2, nextPc := i.pc + kInstructionWidth } else .error .memoryOutOfBounds

/-- The `switch` of `step`; an error is the status of an early return. SLT and SLTU
    compare with the immediate, as SLTI and SLTIU do. -/
def execute (i : Interpreter) (instruction : DecodedInstruction) : Except InterpreterStatus Effect :=
  let rs1Value := i.registers instruction.rs1
  let rs2Value := i.registers instruction.rs2
  let immediate := instruction.immediate
  let address := rs1Value + immediate
  let immediateShift := (immediate &&& kShiftMask).toNat
  let registerShift := (rs2Value &&& kShiftMask).toNat
  match instruction.op with
  | .lui => .ok (i.writeback immediate)
  | .auipc => .ok (i.writeback (i.pc + immediate))
  | .addi => .ok (i.writeback (rs1Value + immediate))
  | .slt => .ok (i.writeback (word (signedLessThan rs1Value immediate)))
  | .slti => .ok (i.writeback (word (signedLessThan rs1Value immediate)))
  | .sltu => .ok (i.writeback (word (decide (rs1Value < immediate))))
  | .sltiu => .ok (i.writeback (word (decide (rs1Value < immediate))))
  | .xori => .ok (i.writeback (rs1Value ^^^ immediate))
  | .ori => .ok (i.writeback (rs1Value ||| immediate))
  | .andi => .ok (i.writeback (rs1Value &&& immediate))
  | .slli => .ok (i.writeback (rs1Value <<< immediateShift))
  | .srli => .ok (i.writeback (rs1Value >>> immediateShift))
  | .srai => .ok (i.writeback (arithmeticShiftRight rs1Value immediateShift))
  | .add => .ok (i.writeback (rs1Value + rs2Value))
  | .sub => .ok (i.writeback (rs1Value - rs2Value))
  | .and => .ok (i.writeback (rs1Value &&& rs2Value))
  | .xor => .ok (i.writeback (rs1Value ^^^ rs2Value))
  | .or => .ok (i.writeback (rs1Value ||| rs2Value))
  | .sll => .ok (i.writeback (rs1Value <<< registerShift))
  | .srl => .ok (i.writeback (rs1Value >>> registerShift))
  | .sra => .ok (i.writeback (arithmeticShiftRight rs1Value registerShift))
  | .jal => .ok (i.jump (i.pc + immediate))
  | .jalr => .ok (i.jump ((rs1Value + immediate) &&& kLeastSignificantBitMask))
  | .beq => .ok (i.branch instruction (rs1Value == rs2Value))
  | .bne => .ok (i.branch instruction (rs1Value != rs2Value))
  | .blt => .ok (i.branch instruction (signedLessThan rs1Value rs2Value))
  | .bge => .ok (i.branch instruction (signedGreaterEqual rs1Value rs2Value))
  | .bltu => .ok (i.branch instruction (decide (rs1Value < rs2Value)))
  | .bgeu => .ok (i.branch instruction (decide (rs2Value ≤ rs1Value)))
  | .lb => i.loadInto ((i.memory.readByte address).map fun value => signExtend (value.setWidth 32) 8)
  | .lh => i.loadInto ((i.memory.readHalf address).map fun value => signExtend (value.setWidth 32) 16)
  | .lw => i.loadInto (i.memory.readWord address)
  | .lbu => i.loadInto ((i.memory.readByte address).map fun value => value.setWidth 32)
  | .lhu => i.loadInto ((i.memory.readHalf address).map fun value => value.setWidth 32)
  | .sb => i.storeTo (i.memory.writeByte address ((rs2Value &&& 0xff).setWidth 8))
  | .sh => i.storeTo (i.memory.writeHalf address ((rs2Value &&& 0xffff).setWidth 16))
  | .sw => i.storeTo (i.memory.writeWord address rs2Value)
  | .invalid | .halt => .error .invalidInstruction

/-- What `step` does once the `switch` is through. -/
def finish (i : Interpreter) (instruction : DecodedInstruction) (e : Effect) : Interpreter :=
  let registers :=
    if e.hasWriteback && instruction.rd != 0 then Function.update i.registers instruction.rd e.writebackValue
    else i.registers
  { i with
    memory := e.memory
    registers := Function.update registers 0 0
    pc := e.nextPc
    instructionCount := i.instructionCount + 1
    status := .running }

def stop (i : Interpreter) (status : InterpreterStatus) : StepResult × Interpreter :=
  (⟨status, i.exitCode⟩, { i with status := status })

def step (i : Interpreter) : StepResult × Interpreter :=
  if i.status ≠ .ready ∧ i.status ≠ .running then (i.currentResult, i)
  else
    match i.memory.readWord i.pc with
    | none => i.stop .fetchOutOfBounds
    | some fetched =>
      let instruction := Decoder.decode fetched
      if instruction.op = .halt then { i with exitCode := i.registers 10 &&& 0xff }.stop .halted
      else if instruction.op = .invalid then i.stop .invalidInstruction
      else
        match i.execute instruction with
        | .error status => i.stop status
        | .ok e => ((i.finish instruction e).currentResult, i.finish instruction e)

/-- The loop of `run`, at most `fuel` times around; `none` when it is still running then. -/
def runLoop (i : Interpreter) : Nat → Option (StepResult × Interpreter)
  | 0 => none
  | fuel + 1 => if i.step.1.status = .running then runLoop i.step.2 fuel else some i.step

def run (i : Interpreter) (fuel : Nat) : Option (StepResult × Interpreter) :=
  if i.status ≠ .ready ∧ i.status ≠ .running then some (i.currentResult, i) else i.runLoop fuel

/-- The interpreter after `n` calls of `step`. -/
def steps (i : Interpreter) (n : Nat) : Interpreter := (fun i : Interpreter => i.step.2)^[n] i

end Interpreter

end TomasuloCpu
