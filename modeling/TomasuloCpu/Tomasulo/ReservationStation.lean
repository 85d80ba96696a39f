/-
  TomasuloCpu.Tomasulo.ReservationStation — 16 slots, round-robin dispatch
  (`tomasulo/reservation_station.cpp`).
-/
import TomasuloCpu.Isa.Instruction
import Mathlib.Logic.Function.Basic

namespace TomasuloCpu

structure RsEntry where
  op : Op := .invalid
  destination : RobTag := {}
  lhs : Operand := {}
  rhs : Operand := {}
  immediate : Word := 0
  pc : Address := 0
  predictedNextPc : Address := 0
  busy : Bool := false
  deriving DecidableEq, Repr

structure RsInputs where
  issueEntry : RsEntry := {}
  issueValid : Bool := false
  cdb : CdbMsg := {}
  fuAvailable : Bool := false
  flush : Bool := false

structure RsOutputs where
  dispatch : Execute := {}
  dispatchValid : Bool := false

structure RsState where
  entries : Nat → RsEntry
  dispatchCursor : Nat

abbrev ReservationStation := Clocked RsState

/-- Wake an operand that waits for the broadcast tag; index and generation both have to
    agree. The RS and the LSQ each have a copy of this function. -/
def wakeOperand (operand : Operand) (cdb : CdbMsg) : Operand :=
  if operand.ready || !operand.tag.valid || !cdb.valid || !cdb.tag.valid then operand
  else if operand.tag = cdb.tag then { value := cdb.value, tag := {}, ready := true }
  else operand

namespace ReservationStation

def kCapacity : Nat := 16
def kInvalidIndex : Nat := kCapacity

structure RsDecision where
  outputs : RsOutputs := {}
  selectedIndex : Nat := kInvalidIndex

def resetState : RsState := ⟨fun _ => {}, 0⟩

def full (s : RsState) : Bool := (List.range kCapacity).all fun i => (s.entries i).busy

def available (s : RsState) : Bool := !full s

def readyEntry (entry : RsEntry) : Bool := entry.busy && entry.lhs.ready && entry.rhs.ready

/-- The first ready slot at or after the cursor, cyclically. -/
def selectReadyIndex (s : RsState) : Nat :=
  (((List.range kCapacity).map fun offset => (s.dispatchCursor + offset) % kCapacity).find?
    fun index => readyEntry (s.entries index)).getD kInvalidIndex

def makeExecute (entry : RsEntry) : Execute :=
  { op := entry.op, operand1 := entry.lhs.value, operand2 := entry.rhs.value, immediate := entry.immediate
    pc := entry.pc, tag := entry.destination, valid := true }

def wakeEntry (entry : RsEntry) (cdb : CdbMsg) : RsEntry :=
  if entry.busy then { entry with lhs := wakeOperand entry.lhs cdb, rhs := wakeOperand entry.rhs cdb }
  else entry

def findFreeIndex (entries : Nat → RsEntry) : Nat :=
  ((List.range kCapacity).find? fun index => !(entries index).busy).getD kInvalidIndex

/-- Chosen from the current slots, so an entry woken in this cycle goes in the next one. -/
def plan (s : RsState) (flush : Bool) : RsDecision :=
  if flush then {}
  else
    let selected := selectReadyIndex s
    if selected ≠ kInvalidIndex then
      { outputs := { dispatch := makeExecute (s.entries selected), dispatchValid := true }
        selectedIndex := selected }
    else {}

/-- The slots after wakeup and dispatch: the chosen slot is freed only when the FU takes
    its entry. -/
def dispatched (s : RsState) (inputs : RsInputs) (decision : RsDecision) : RsState :=
  let woken := fun i => wakeEntry (s.entries i) inputs.cdb
  if decision.selectedIndex ≠ kInvalidIndex && inputs.fuAvailable then
    ⟨Function.update woken decision.selectedIndex {}, (decision.selectedIndex + 1) % kCapacity⟩
  else ⟨woken, s.dispatchCursor⟩

def step (s : RsState) (inputs : RsInputs) (decision : RsDecision) : Bool × RsState :=
  if inputs.flush then (false, ⟨fun _ => {}, 0⟩)
  else
    let next := dispatched s inputs decision
    if inputs.issueValid then
      let freeSlot := findFreeIndex next.entries
      if freeSlot ≠ kInvalidIndex then
        (true, { next with entries := Function.update next.entries freeSlot { inputs.issueEntry with busy := true } })
      else (false, next)
    else (false, next)

def apply (m : ReservationStation) (inputs : RsInputs) (decision : RsDecision) : Bool × ReservationStation :=
  let (accepted, next) := step m.cur inputs decision
  (accepted, { m with next := next })

end ReservationStation

end TomasuloCpu
