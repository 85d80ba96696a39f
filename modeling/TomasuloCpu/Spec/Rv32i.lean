/-
  TomasuloCpu.Spec.Rv32i — the sequential RV32I machine the processor refines.

  Its state is a pc, the registers (x0 reads as 0) and 2 ^ 20 bytes of memory. A step
  fetches the little-endian word at the pc, decodes it and executes it; it stops at HALT,
  at an invalid word and at a fetch or a data access that is not inside the memory.
-/
import TomasuloCpu.Isa.DecoderProofs
import TomasuloCpu.Lib.LittleEndian
import TomasuloCpu.Lib.Steps

namespace TomasuloCpu.Rv32i

structure Machine where
  pc : Address
  registers : RegisterIndex → Word
  memory : Nat → Byte

inductive Outcome where
  | next (m : Machine)
  | halted (value : Word)
  | invalidInstruction
  | fetchOutOfBounds
  | memoryOutOfBounds

def start (memory : Nat → Byte) : Machine := ⟨0, fun _ => 0, memory⟩

/-- What a non-memory instruction writes to its destination; `a` and `b` are the source
    registers. -/
def arithmetic (op : Op) (pc a b immediate : Word) : Word :=
  match op with
  | .lui => immediate
  | .auipc => pc + immediate
  | .addi => a + immediate
  | .slti => if a.slt immediate then 1 else 0
  | .sltiu => if a.ult immediate then 1 else 0
  | .xori => a ^^^ immediate
  | .ori => a ||| immediate
  | .andi => a &&& immediate
  | .slli => a <<< (immediate.toNat % 32)
  | .srli => a >>> (immediate.toNat % 32)
  | .srai => a.sshiftRight (immediate.toNat % 32)
  | .add => a + b
  | .sub => a - b
  | .sll => a <<< (b.toNat % 32)
  | .slt => if a.slt b then 1 else 0
  | .sltu => if a.ult b then 1 else 0
  | .xor => a ^^^ b
  | .srl => a >>> (b.toNat % 32)
  | .sra => a.sshiftRight (b.toNat % 32)
  | .or => a ||| b
  | .and => a &&& b
  | .jal | .jalr => pc + 4
  | _ => 0

/-- Whether a branch is taken. -/
def taken (op : Op) (a b : Word) : Bool :=
  match op with
  | .beq => a == b
  | .bne => a != b
  | .blt => a.slt b
  | .bge => !a.slt b
  | .bltu => a.ult b
  | .bgeu => !a.ult b
  | _ => false

def target (op : Op) (pc a b immediate : Word) : Address :=
  match op with
  | .jal => pc + immediate
  | .jalr => (a + immediate) &&& ~~~1#32
  | _ => if taken op a b then pc + immediate else pc + 4

/-- The bytes a load or store accesses. -/
def accessWidth : Op → Nat
  | .lb | .lbu | .sb => 1
  | .lh | .lhu | .sh => 2
  | .lw | .sw => 4
  | _ => 0

/-- What a load writes to its destination. -/
def extend (op : Op) (value : Word) : Word :=
  match op with
  | .lb => (value.setWidth 8).signExtend 32
  | .lh => (value.setWidth 16).signExtend 32
  | _ => value

namespace Machine

def read (m : Machine) (r : RegisterIndex) : Word := if r = 0 then 0 else m.registers r

def fetch (m : Machine) : Option InstructionBits :=
  if m.pc.toNat + 4 ≤ kMemorySize then some (LittleEndian.load m.memory m.pc.toNat 4) else none

/-- The address of a load or store. -/
def address (m : Machine) (d : DecodedInstruction) : Address := m.read d.rs1 + d.immediate

def inBounds (m : Machine) (d : DecodedInstruction) : Bool :=
  decide ((m.address d).toNat + accessWidth d.op ≤ kMemorySize)

/-- What the instruction writes to its destination, if it has one. -/
def result (m : Machine) (d : DecodedInstruction) : Word :=
  if d.op.isLoad then extend d.op (LittleEndian.load m.memory (m.address d).toNat (accessWidth d.op))
  else arithmetic d.op m.pc (m.read d.rs1) (m.read d.rs2) d.immediate

def execute (m : Machine) (d : DecodedInstruction) : Machine :=
  { pc := target d.op m.pc (m.read d.rs1) (m.read d.rs2) d.immediate
    registers :=
      if d.op.writes && d.rd != 0 then Function.update m.registers d.rd (m.result d) else m.registers
    memory :=
      if d.op.isStore then
        LittleEndian.store m.memory (m.address d).toNat (accessWidth d.op) (m.read d.rs2)
      else m.memory }

def step (m : Machine) : Outcome :=
  match m.fetch with
  | none => .fetchOutOfBounds
  | some bits =>
    let d := Decoder.decode bits
    if d.op = .invalid then .invalidInstruction
    else if d.op = .halt then .halted (m.read 10 &&& 0xff)
    else if d.op.isMemory && !m.inBounds d then .memoryOutOfBounds
    else .next (m.execute d)

/-- The machine after the step, unless it stops. -/
def next (m : Machine) : Option Machine :=
  match m.step with
  | .next m' => some m'
  | _ => none

/-- The decoded word at the pc; the invalid instruction where there is no word. -/
def instruction (m : Machine) : DecodedInstruction := (m.fetch.map Decoder.decode).getD {}

/-- The step stores to the byte at `a`. -/
def Stores (m : Machine) (a : Nat) : Prop :=
  m.instruction.op.isStore = true ∧ (m.address m.instruction).toNat ≤ a ∧
    a < (m.address m.instruction).toNat + accessWidth m.instruction.op

/-- The step takes its instruction from the byte at `a`. -/
def Fetches (m : Machine) (a : Nat) : Prop := m.fetch.isSome = true ∧ m.pc.toNat ≤ a ∧ a < m.pc.toNat + 4

end Machine

/-- The machine after `n` steps from a loaded memory. -/
def run (memory : Nat → Byte) (n : Nat) : Option Machine := Steps.after Machine.next (start memory) n

/-- Some step of the run takes its instruction, be it the one it stops at, from a byte that
    an earlier step stored to. -/
def SelfModifying (memory : Nat → Byte) : Prop :=
  ∃ i j a m m', i < j ∧ run memory i = some m ∧ run memory j = some m' ∧ m.Stores a ∧ m'.Fetches a

/-- Some step of the run takes its instruction from a byte that one of the `distance` steps
    before it stored to. -/
def ModifiesWithin (distance : Nat) (memory : Nat → Byte) : Prop :=
  ∃ i j a m m', i < j ∧ j ≤ i + distance ∧ run memory i = some m ∧ run memory j = some m' ∧ m.Stores a ∧ m'.Fetches a

end TomasuloCpu.Rv32i
