/-
  TomasuloCpu.Tomasulo.ReorderBuffer — the 32-entry reorder buffer
  (`tomasulo/reorder_buffer.cpp`).

  `plan` decides from the current head; `step` is `apply`: it computes the registers the
  latch makes current. The order inside a cycle is completion, store completion, commit
  (and flush), issue.
-/
import TomasuloCpu.Isa.Instruction
import Mathlib.Logic.Function.Basic

namespace TomasuloCpu

structure RobEntry where
  tag : RobTag := {}
  op : Op := .invalid
  pc : Address := 0
  rd : RegisterIndex := 0
  value : Word := 0
  writesRd : Bool := false
  ready : Bool := false
  predictedNextPc : Address := 0
  actualNextPc : Address := 0
  branchTaken : Bool := false
  isBranch : Bool := false
  isStore : Bool := false
  isJump : Bool := false
  valid : Bool := false
  deriving DecidableEq, Repr

/-- To the LSQ: the ROB head is a store and may write memory. -/
structure StoreCommitRequest where
  tag : RobTag := {}
  valid : Bool := false
  deriving DecidableEq, Repr

/-- From the LSQ: the store has written memory. -/
structure StoreCommitCompletion where
  tag : RobTag := {}
  valid : Bool := false
  deriving DecidableEq, Repr

structure RobCommit where
  entry : RobEntry := {}
  valid : Bool := false
  halted : Bool := false
  mispredicted : Bool := false
  redirectPc : Address := 0
  deriving DecidableEq, Repr

structure RobInputs where
  issueEntry : RobEntry := {}
  issueValid : Bool := false
  completion : FuResult := {}
  storeCompletion : StoreCommitCompletion := {}
  deriving DecidableEq, Repr

structure RobOutputs where
  commit : RobCommit := {}
  storeRequest : StoreCommitRequest := {}
  flush : Bool := false
  redirectPc : Address := 0
  deriving DecidableEq, Repr

structure RobDecision where
  outputs : RobOutputs := {}
  deriving DecidableEq, Repr

structure RobState where
  entries : Nat → RobEntry
  /-- The generation of each slot's latest allocation. -/
  generations : Nat → TagGeneration
  head : Nat
  tail : Nat
  count : Nat

abbrev ReorderBuffer := Clocked RobState

namespace ReorderBuffer

def kCapacity : Nat := 32

def resetState : RobState := ⟨fun _ => {}, fun _ => 0, 0, 0, 0⟩

def empty (s : RobState) : Bool := s.count == 0

def full (s : RobState) : Bool := s.count == kCapacity

def followingGeneration (generation : TagGeneration) : TagGeneration := generation + 1

def matchingEntry (tag : RobTag) (entries : Nat → RobEntry) : Bool :=
  if tag.valid = false then false
  else
    let index := tag.index.toNat
    if kCapacity ≤ index then false else (entries index).valid && (entries index).tag == tag

/-- The tag the next issue gets; invalid when the buffer is full. -/
def nextTag (s : RobState) : RobTag :=
  if full s then {}
  else
    { valid := true, index := BitVec.ofNat 32 s.tail
      generation := followingGeneration (s.generations s.tail) }

def front (s : RobState) : Option RobEntry :=
  if empty s then none
  else if (s.entries s.head).valid then some (s.entries s.head) else none

def lookup (s : RobState) (tag : RobTag) : Option RobEntry :=
  if matchingEntry tag s.entries then some (s.entries tag.index.toNat) else none

def isControlInstruction (entry : RobEntry) : Bool := entry.isJump || entry.isBranch

def planStoreRequest : Option RobEntry → StoreCommitRequest
  | some head => if head.isStore && !head.ready then { valid := true, tag := head.tag } else {}
  | none => {}

def planCommit : Option RobEntry → RobCommit
  | some head =>
    if head.ready then
      { entry := head, valid := true, halted := head.op == .halt
        mispredicted := isControlInstruction head && head.predictedNextPc != head.actualNextPc
        redirectPc := if isControlInstruction head then head.actualNextPc else 0 }
    else {}
  | none => {}

def plan (s : RobState) : RobDecision :=
  let commit := planCommit (front s)
  { outputs :=
      { commit := commit
        storeRequest := planStoreRequest (front s)
        flush := commit.mispredicted
        redirectPc := if commit.mispredicted then commit.entry.actualNextPc else 0 } }

/-- The write `apply_completion` makes to its entry. -/
def completeEntry (completion : FuResult) (entry : RobEntry) : RobEntry :=
  let entry := { entry with value := completion.result, ready := true }
  if completion.hasControlResult then
    { entry with actualNextPc := completion.actualNextPc, branchTaken := completion.branchTaken }
  else entry

/-- Both completions match the current entries and write the next ones. -/
def applyCompletion (cur next : RobState) (completion : FuResult) : RobState :=
  if !completion.valid || !matchingEntry completion.tag cur.entries then next
  else
    let index := completion.tag.index.toNat
    { next with entries := Function.update next.entries index (completeEntry completion (next.entries index)) }

def applyStoreCompletion (cur next : RobState) (completion : StoreCommitCompletion) : RobState :=
  if !completion.valid || !matchingEntry completion.tag cur.entries then next
  else
    let index := completion.tag.index.toNat
    let entry := next.entries index
    if !entry.isStore then next
    else { next with entries := Function.update next.entries index { entry with ready := true } }

/-- Remove the committed head. -/
def popHead (next : RobState) : RobState :=
  { next with
    entries := Function.update next.entries next.head {}
    head := (next.head + 1) % kCapacity
    count := next.count - 1 }

/-- Generations survive, so a late result cannot hit the slot's next user. -/
def clearSpeculativeEntries (next : RobState) (newPosition : Nat) : RobState :=
  { next with entries := fun _ => {}, head := newPosition, tail := newPosition, count := 0 }

def applyCommit (next : RobState) (outputs : RobOutputs) : RobState :=
  if outputs.commit.valid then
    let popped := popHead next
    if outputs.flush then clearSpeculativeEntries popped popped.head else popped
  else next

/-- Append an issued entry. -/
def allocate (next : RobState) (entry : RobEntry) (tag : RobTag) : RobState :=
  { next with
    entries := Function.update next.entries next.tail { entry with tag := tag, valid := true }
    generations := Function.update next.generations next.tail tag.generation
    tail := (next.tail + 1) % kCapacity
    count := next.count + 1 }

/-- Flush beats issue, and a full buffer rejects even in a cycle that commits. -/
def accepts (s : RobState) (inputs : RobInputs) (decision : RobDecision) : Bool :=
  !decision.outputs.flush && inputs.issueValid && !full s &&
    (inputs.issueEntry.valid && inputs.issueEntry.tag == nextTag s)

def step (s : RobState) (inputs : RobInputs) (decision : RobDecision) : Bool × RobState :=
  let next := applyCompletion s s inputs.completion
  let next := applyStoreCompletion s next inputs.storeCompletion
  let next := applyCommit next decision.outputs
  if accepts s inputs decision then (true, allocate next inputs.issueEntry (nextTag s)) else (false, next)

def apply (m : ReorderBuffer) (inputs : RobInputs) (decision : RobDecision) : Bool × ReorderBuffer :=
  let (accepted, next) := step m.cur inputs decision
  (accepted, { m with next := next })

end ReorderBuffer

end TomasuloCpu
