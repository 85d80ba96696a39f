/-
  TomasuloCpu.Memory.MemoryUnit — instruction fetch and the one-request data port
  (`memory/memory_unit.cpp`).
-/
import TomasuloCpu.Isa.Instruction
import TomasuloCpu.Memory.Image

namespace TomasuloCpu

inductive MemoryAccessType where
  | load
  | store
  deriving DecidableEq, Repr

inductive MemoryWidth where
  | byte
  | half
  | word
  deriving DecidableEq, Repr

structure DataMemoryRequest where
  type : MemoryAccessType := .load
  width : MemoryWidth := .word
  address : Address := 0
  value : Word := 0
  tag : RobTag := {}
  valid : Bool := false
  deriving DecidableEq, Repr

structure DataMemoryResponse where
  tag : RobTag := {}
  value : Word := 0
  isStore : Bool := false
  success : Bool := false
  valid : Bool := false
  deriving DecidableEq, Repr

structure InstructionFetchResponse where
  pc : Address := 0
  instruction : InstructionBits := 0
  success : Bool := false
  valid : Bool := false
  deriving DecidableEq, Repr

structure DataTransaction where
  request : DataMemoryRequest := {}
  remainingCycles : Nat := 0
  valid : Bool := false
  deriving DecidableEq, Repr

structure PendingStoreWrite where
  address : Address := 0
  value : Word := 0
  width : MemoryWidth := .word
  valid : Bool := false
  deriving DecidableEq, Repr

/-- The double-buffered registers of the data port. -/
structure DataPort where
  transaction : DataTransaction := {}
  response : DataMemoryResponse := {}
  deriving DecidableEq, Repr

/-- What `apply` computes: acceptance, the port's next registers, the scheduled write. -/
structure PortStep where
  accepted : Bool
  port : DataPort
  storeWrite : PendingStoreWrite
  deriving DecidableEq, Repr

structure MemoryUnit where
  memory : MemoryImage
  port : Clocked DataPort
  nextStoreWrite : PendingStoreWrite

namespace MemoryUnit

def kDataLatency : Nat := 3

def widthInBytes : MemoryWidth → Nat
  | .byte => 1
  | .half => 2
  | .word => 4

def fetch (memory : MemoryImage) (pc : Address) : InstructionFetchResponse :=
  match memory.readWord pc with
  | none => { pc := pc, valid := true, success := false }
  | some instruction => { pc := pc, valid := true, instruction := instruction, success := true }

def dataPortAvailable (port : DataPort) : Bool := !port.transaction.valid

def dataResponse (port : DataPort) : DataMemoryResponse := port.response

/-- The value read and whether the access was in bounds. -/
def readData (memory : MemoryImage) (address : Address) : MemoryWidth → Word × Bool
  | .byte =>
    match memory.readByte address with
    | none => (0, false)
    | some value => (value.setWidth 32, true)
  | .half =>
    match memory.readHalf address with
    | none => (0, false)
    | some value => (value.setWidth 32, true)
  | .word =>
    match memory.readWord address with
    | none => (0, false)
    | some value => (value, true)

def scheduleStore (request : DataMemoryRequest) : Bool × PendingStoreWrite :=
  if MemoryImage.inBounds request.address (widthInBytes request.width) then
    (true, { address := request.address, valid := true, value := request.value, width := request.width })
  else (false, {})

def completeCurrentTransaction (memory : MemoryImage) (request : DataMemoryRequest) :
    DataMemoryResponse × PendingStoreWrite :=
  match request.type with
  | .load =>
    let (value, success) := readData memory request.address request.width
    ({ tag := request.tag, isStore := false, valid := true, value := value, success := success }, {})
  | .store =>
    let (success, write) := scheduleStore request
    ({ tag := request.tag, isStore := true, valid := true, success := success }, write)

/-- The transaction in flight advances first, and while there is one no request is
    accepted, not even in the cycle that completes it. -/
def step (memory : MemoryImage) (port : DataPort) (request : DataMemoryRequest) : PortStep :=
  if port.transaction.valid then
    if 1 < port.transaction.remainingCycles then
      let remaining := port.transaction.remainingCycles - 1
      ⟨false, { transaction := { port.transaction with remainingCycles := remaining } }, {}⟩
    else
      let (response, write) := completeCurrentTransaction memory port.transaction.request
      ⟨false, { response := response }, write⟩
  else if request.valid && request.tag.valid then
    ⟨true, { transaction := ⟨request, kDataLatency, true⟩ }, {}⟩
  else ⟨false, { transaction := port.transaction }, {}⟩

def apply (m : MemoryUnit) (request : DataMemoryRequest) : Bool × MemoryUnit :=
  let r := step m.memory m.port.cur request
  (r.accepted, { m with port := { m.port with next := r.port }, nextStoreWrite := r.storeWrite })

def applyStoreWrite (memory : MemoryImage) (write : PendingStoreWrite) : Bool × MemoryImage :=
  if write.valid = false then (true, memory)
  else
    match write.width with
    | .byte => memory.writeByte write.address ((write.value &&& 0xff).setWidth 8)
    | .half => memory.writeHalf write.address ((write.value &&& 0xffff).setWidth 16)
    | .word => memory.writeWord write.address write.value

def latch (m : MemoryUnit) : MemoryUnit :=
  { m with
    memory := if m.nextStoreWrite.valid then (applyStoreWrite m.memory m.nextStoreWrite).2 else m.memory
    port := m.port.latch }

def reset (m : MemoryUnit) : MemoryUnit := { m with port := .reset {}, nextStoreWrite := {} }

def load (m : MemoryUnit) (input : Istream) : ImageLoadResult × MemoryUnit :=
  let (result, memory) := MemoryImage.load input
  (result, { m.reset with memory := memory })

/-- As constructed: an image of zeros and nothing in flight. -/
def new : MemoryUnit := ⟨.clear, .reset {}, {}⟩

end MemoryUnit

end TomasuloCpu
