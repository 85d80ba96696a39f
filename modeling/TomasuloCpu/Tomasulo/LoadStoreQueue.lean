/-
  TomasuloCpu.Tomasulo.LoadStoreQueue — 16 accesses in program order and the load-result
  buffer (`tomasulo/load_store_queue.cpp`).
-/
import TomasuloCpu.Memory.MemoryUnit
import TomasuloCpu.Tomasulo.ReorderBuffer
import TomasuloCpu.Tomasulo.ReservationStation

namespace TomasuloCpu

structure LsqEntry where
  type : MemoryAccessType := .load
  op : Op := .invalid
  destination : RobTag := {}
  base : Operand := {}
  storeData : Operand := {}
  immediate : Word := 0
  address : Address := 0
  addressReady : Bool := false
  requestSent : Bool := false
  valid : Bool := false
  deriving DecidableEq, Repr

structure LsqInputs where
  issueEntry : LsqEntry := {}
  issueValid : Bool := false
  cdb : CdbMsg := {}
  flush : Bool := false

structure LsqOutputs where
  memoryRequest : DataMemoryRequest := {}
  storeCompletion : StoreCommitCompletion := {}
  memoryError : Bool := false

structure LsqObserveInputs where
  storeRequest : StoreCommitRequest := {}
  memoryResponse : DataMemoryResponse := {}
  memoryAvailable : Bool := false
  loadResultGranted : Bool := false
  flush : Bool := false

structure LsqDecision where
  outputs : LsqOutputs := {}
  completedLoadResult : FuResult := {}
  clearLoadResult : Bool := false
  installLoadResult : Bool := false
  removeHead : Bool := false
  markRequestSent : Bool := false

structure LsqState where
  entries : Nat → LsqEntry
  head : Nat
  tail : Nat
  count : Nat
  /-- A finished load waiting for the CDB. -/
  loadResult : FuResult

abbrev LoadStoreQueue := Clocked LsqState

namespace LoadStoreQueue

def kCapacity : Nat := 16

def resetState : LsqState := ⟨fun _ => {}, 0, 0, 0, {}⟩

def empty (s : LsqState) : Bool := s.count == 0

def full (s : LsqState) : Bool := s.count == kCapacity

def wakeEntry (entry : LsqEntry) (cdb : CdbMsg) : LsqEntry :=
  if entry.valid then
    let entry := { entry with base := wakeOperand entry.base cdb }
    if entry.type = .store then { entry with storeData := wakeOperand entry.storeData cdb } else entry
  else entry

/-- Tag and kind decide; `request_sent` is not consulted. -/
def matchingResponse (entry : LsqEntry) (response : DataMemoryResponse) : Bool :=
  if !entry.valid || !response.valid || !response.tag.valid then false
  else if entry.destination ≠ response.tag then false
  else decide (entry.type = .store) == response.isStore

/-- The remaining operations are excluded by an assertion. -/
def memoryWidth : Op → MemoryWidth
  | .lb | .lbu | .sb => .byte
  | .lh | .lhu | .sh => .half
  | .lw | .sw => .word
  | _ => .word

def extendLoadResult (op : Op) (rawValue : Word) : Word :=
  match op with
  | .lb => signExtend rawValue 8
  | .lh => signExtend rawValue 16
  | .lw => rawValue
  | .lbu => zeroExtend rawValue 8
  | .lhu => zeroExtend rawValue 16
  | _ => 0

def updateAddress (entry : LsqEntry) : LsqEntry :=
  if !entry.valid || entry.addressReady || !entry.base.ready then entry
  else { entry with address := entry.base.value + entry.immediate, addressReady := true }

def updateAddresses (next : LsqState) : LsqState :=
  { next with entries := fun i => updateAddress (next.entries i) }

def removeNextHead (next : LsqState) : LsqState :=
  { next with
    entries := Function.update next.entries next.head {}
    head := (next.head + 1) % kCapacity
    count := next.count - 1 }

def makeMemoryRequest (entry : LsqEntry) : DataMemoryRequest :=
  { type := entry.type, width := memoryWidth entry.op, address := entry.address, tag := entry.destination
    valid := true, value := if entry.type = .store then entry.storeData.value else 0 }

/-- The decision on the memory response: a failed one is an error, a load's moves the head
    to the load-result buffer, a store's reports to the ROB. -/
def planResponse (head : LsqEntry) (response : DataMemoryResponse) (decision : LsqDecision) : LsqDecision :=
  if matchingResponse head response then
    if !response.success then { decision with outputs := { decision.outputs with memoryError := true } }
    else if head.type = .load then
      { decision with
        completedLoadResult :=
          { tag := head.destination, result := extendLoadResult head.op response.value, valid := true }
        installLoadResult := true
        removeHead := true }
    else
      { decision with
        outputs := { decision.outputs with storeCompletion := { tag := head.destination, valid := true } }
        removeHead := true }
  else decision

/-- A load needs the result buffer, a store its data and the ROB's authorization. -/
def maySend (s : LsqState) (head : LsqEntry) (inputs : LsqObserveInputs) : Bool :=
  head.valid && !head.requestSent && head.addressReady && inputs.memoryAvailable &&
    (if head.type = .load then !s.loadResult.valid || inputs.loadResultGranted
     else head.storeData.ready && inputs.storeRequest.valid && inputs.storeRequest.tag == head.destination)

def planSend (s : LsqState) (head : LsqEntry) (inputs : LsqObserveInputs) (decision : LsqDecision) :
    LsqDecision :=
  if maySend s head inputs then
    { decision with
      outputs := { decision.outputs with memoryRequest := makeMemoryRequest head }
      markRequestSent := true }
  else decision

def plan (s : LsqState) (inputs : LsqObserveInputs) : LsqDecision :=
  if inputs.flush then {}
  else
    let decision : LsqDecision := { clearLoadResult := inputs.loadResultGranted && s.loadResult.valid }
    if empty s then decision
    else
      let currentHead := s.entries s.head
      planSend s currentHead inputs (planResponse currentHead inputs.memoryResponse decision)

/-- `apply` up to the issue: result buffer, wakeup, head removal, request mark. -/
def advance (s : LsqState) (inputs : LsqInputs) (decision : LsqDecision) : LsqState :=
  let loadResult := if decision.clearLoadResult then {} else s.loadResult
  let next : LsqState :=
    { s with
      entries := fun i => wakeEntry (s.entries i) inputs.cdb
      loadResult := if decision.installLoadResult then decision.completedLoadResult else loadResult }
  let next := if decision.removeHead then removeNextHead next else next
  if decision.markRequestSent then
    { next with entries := Function.update next.entries s.head { next.entries s.head with requestSent := true } }
  else next

/-- Append an issued access. -/
def allocate (next : LsqState) (entry : LsqEntry) : LsqState :=
  { next with
    entries := Function.update next.entries next.tail { entry with valid := true, requestSent := false }
    tail := (next.tail + 1) % kCapacity
    count := next.count + 1 }

/-- Room is judged on the current queue, whether or not the head leaves in this cycle. -/
def accepts (s : LsqState) (inputs : LsqInputs) : Bool :=
  inputs.issueValid && !full s && inputs.issueEntry.valid

def step (s : LsqState) (inputs : LsqInputs) (decision : LsqDecision) : Bool × LsqState :=
  if inputs.flush then (false, resetState)
  else
    let next := advance s inputs decision
    if accepts s inputs then (true, updateAddresses (allocate next inputs.issueEntry))
    else (false, updateAddresses next)

def apply (m : LoadStoreQueue) (inputs : LsqInputs) (decision : LsqDecision) : Bool × LoadStoreQueue :=
  let (accepted, next) := step m.cur inputs decision
  (accepted, { m with next := next })

end LoadStoreQueue

end TomasuloCpu
