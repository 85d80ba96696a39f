/-
  TomasuloCpu.Tomasulo.FunctionalUnit — the integer unit (`tomasulo/functional_unit.cpp`).
-/
import TomasuloCpu.Isa.Instruction

namespace TomasuloCpu

/-- `current_result_` and `next_result_`. -/
abbrev FunctionalUnit := Clocked FuResult

namespace FunctionalUnit

def kShiftMask : Word := 0x1f
def kClearLeastSignificantBit : Word := ~~~1#32

def sequentialPc (pc : Address) : Address := pc + kInstructionWidth

/-- Comparison through `SignedWord`. -/
def signedGreaterEqual (lhs rhs : Word) : Bool := decide (rhs.toInt ≤ lhs.toInt)

def signedLessThan (lhs rhs : Word) : Bool := decide (lhs.toInt < rhs.toInt)

def arithmeticShiftRight (value : Word) (amount : Nat) : Word :=
  let amount := amount % 32
  if amount = 0 then value
  else
    let result := value >>> amount
    if value &&& 0x80000000 ≠ 0 then result ||| (~~~0#32 <<< (32 - amount)) else result

def word (b : Bool) : Word := if b then 1 else 0

/-- The part every arm of the `switch` shares: tag, sequential successor, `valid`. -/
def value (e : Execute) (result : Word) : FuResult :=
  { tag := e.tag, actualNextPc := sequentialPc e.pc, result := result, valid := true }

/-- A conditional branch: no result, the next pc chosen by `taken`. -/
def branch (e : Execute) (taken : Bool) : FuResult :=
  { tag := e.tag, branchTaken := taken, hasControlResult := true, valid := true
    actualNextPc := if taken then e.pc + e.immediate else sequentialPc e.pc }

/-- A jump links to the sequential pc. -/
def jump (e : Execute) (target : Address) : FuResult :=
  { tag := e.tag, result := sequentialPc e.pc, actualNextPc := target, branchTaken := true
    hasControlResult := true, valid := true }

def executeInstruction (e : Execute) : FuResult :=
  let lhs := e.operand1
  let rhs := e.operand2
  let amount := (rhs &&& kShiftMask).toNat
  match e.op with
  | .add | .addi => value e (lhs + rhs)
  | .and | .andi => value e (lhs &&& rhs)
  | .lui | .auipc => value e (lhs + rhs)
  | .beq => branch e (lhs == rhs)
  | .bge => branch e (signedGreaterEqual lhs rhs)
  | .bgeu => branch e (decide (rhs ≤ lhs))
  | .blt => branch e (signedLessThan lhs rhs)
  | .bltu => branch e (decide (lhs < rhs))
  | .bne => branch e (lhs != rhs)
  | .jal => jump e (e.pc + e.immediate)
  | .jalr => jump e ((lhs + e.immediate) &&& kClearLeastSignificantBit)
  | .or | .ori => value e (lhs ||| rhs)
  | .sll | .slli => value e (lhs <<< amount)
  | .sltu | .sltiu => value e (word (decide (lhs < rhs)))
  | .slt | .slti => value e (word (signedLessThan lhs rhs))
  | .sra | .srai => value e (arithmeticShiftRight lhs amount)
  | .srl | .srli => value e (lhs >>> amount)
  | .sub => value e (lhs - rhs)
  | .xor | .xori => value e (lhs ^^^ rhs)
  | .lb | .lh | .lw | .lbu | .lhu | .sb | .sh | .sw | .halt | .invalid => {}

/-- Room for a new result: none is held, or the one held leaves in this cycle. -/
def canAccept (current : FuResult) (resultAccepted : Bool) : Bool := resultAccepted || !current.valid

/-- `apply` on the current result: whether `execute` was taken, and the next result. -/
def step (current : FuResult) (execute : Execute) (flush resultAccepted : Bool) : Bool × FuResult :=
  if flush then (false, {})
  else
    let kept := if resultAccepted && current.valid then {} else current
    if execute.valid = false then (false, kept)
    else if canAccept current resultAccepted = false then (false, kept)
    else
      let computed := executeInstruction execute
      if computed.valid = false then (false, kept) else (true, computed)

def apply (m : FunctionalUnit) (execute : Execute) (flush resultAccepted : Bool) : Bool × FunctionalUnit :=
  let (accepted, next) := step m.cur execute flush resultAccepted
  (accepted, { m with next := next })

end FunctionalUnit

end TomasuloCpu
