/-
  TomasuloCpu.Tomasulo.Shape — the machine without its data.

  `shape` keeps of a state what decides when something happens: who is where, who waits for
  whom, what is ready. It forgets the words (operands, results, addresses of accesses) and
  where control went. The shape of what a part does depends on the shapes of its inputs only
  (`wakeOperand_shape` .. `plan_shape`), with two exceptions: the reorder buffer has to know
  whether its head was predicted right, and the queue whether an access failed.
-/
import TomasuloCpu.Tomasulo.Cpu
import Mathlib.Logic.Function.Basic

namespace TomasuloCpu

/-! ## Shapes -/

def Operand.shape (o : Operand) : Operand := { o with value := 0 }

def CdbMsg.shape (m : CdbMsg) : CdbMsg := { m with value := 0 }

def FuResult.shape (r : FuResult) : FuResult := { r with result := 0, actualNextPc := 0, branchTaken := false }

def Execute.shape (e : Execute) : Execute := { e with operand1 := 0, operand2 := 0 }

def RsEntry.shape (e : RsEntry) : RsEntry := { e with lhs := e.lhs.shape, rhs := e.rhs.shape }

def LsqEntry.shape (e : LsqEntry) : LsqEntry :=
  { e with base := e.base.shape, storeData := e.storeData.shape, address := 0 }

def RobEntry.shape (e : RobEntry) : RobEntry := { e with value := 0, actualNextPc := 0, branchTaken := false }

def SourceState.shape (s : SourceState) : SourceState := { s with architecturalValue := 0, producerValue := 0 }

def DataMemoryRequest.shape (r : DataMemoryRequest) : DataMemoryRequest := { r with address := 0, value := 0 }

/-- As if it had succeeded. -/
def DataMemoryResponse.shape (r : DataMemoryResponse) : DataMemoryResponse := { r with value := 0, success := true }

def DataPort.shape (p : DataPort) : DataPort :=
  { transaction := { p.transaction with request := p.transaction.request.shape }, response := p.response.shape }

def RsState.shape (s : RsState) : RsState := { s with entries := fun i => (s.entries i).shape }

def LsqState.shape (s : LsqState) : LsqState :=
  { s with entries := fun i => (s.entries i).shape, loadResult := s.loadResult.shape }

def RobState.shape (s : RobState) : RobState := { s with entries := fun i => (s.entries i).shape }

/-- Everything but memory, registers, the exit code and the words in flight. -/
def Core.shape (s : Core) : Core :=
  { s with
    memory := .clear
    port := s.port.shape
    registers := fun _ => 0
    rob := s.rob.shape
    rs := s.rs.shape
    lsq := s.lsq.shape
    fu := s.fu.shape
    exitCode := 0 }

/-! ## The wires -/

def CdbInputs.shape (i : CdbInputs) : CdbInputs :=
  { integerResult := i.integerResult.shape, loadResult := i.loadResult.shape }

def CdbOutputs.shape (o : CdbOutputs) : CdbOutputs :=
  { o with broadcast := o.broadcast.shape, completion := o.completion.shape }

def CdbDecision.shape (d : CdbDecision) : CdbDecision := { d with outputs := d.outputs.shape }

def RsInputs.shape (i : RsInputs) : RsInputs := { i with issueEntry := i.issueEntry.shape, cdb := i.cdb.shape }

def ReservationStation.RsDecision.shape (d : RsDecision) : RsDecision :=
  { d with outputs := { d.outputs with dispatch := d.outputs.dispatch.shape } }

def RobInputs.shape (i : RobInputs) : RobInputs :=
  { i with issueEntry := i.issueEntry.shape, completion := i.completion.shape }

def LsqInputs.shape (i : LsqInputs) : LsqInputs := { i with issueEntry := i.issueEntry.shape, cdb := i.cdb.shape }

def LsqObserveInputs.shape (i : LsqObserveInputs) : LsqObserveInputs :=
  { i with memoryResponse := i.memoryResponse.shape }

def LsqDecision.shape (d : LsqDecision) : LsqDecision :=
  { d with
    outputs := { d.outputs with memoryRequest := d.outputs.memoryRequest.shape }
    completedLoadResult := d.completedLoadResult.shape }

def IssueInputs.shape (i : IssueInputs) : IssueInputs :=
  { i with rs1 := i.rs1.shape, rs2 := i.rs2.shape, cdb := i.cdb.shape }

def IssueOutputs.shape (o : IssueOutputs) : IssueOutputs :=
  { o with rsEntry := o.rsEntry.shape, lsqEntry := o.lsqEntry.shape }

/-! ## Waking -/

theorem wakeOperand_shape (operand : Operand) (cdb : CdbMsg) :
    (wakeOperand operand cdb).shape = wakeOperand operand.shape cdb.shape := by
  unfold wakeOperand Operand.shape CdbMsg.shape
  split
  · rfl
  · split <;> rfl

namespace ReservationStation

theorem wakeEntry_shape (e : RsEntry) (cdb : CdbMsg) : (wakeEntry e cdb).shape = wakeEntry e.shape cdb.shape := by
  unfold wakeEntry
  split
  · rename_i hb
    rw [if_pos (show e.shape.busy = true from hb)]
    simp only [RsEntry.shape, wakeOperand_shape]
  · rename_i hb
    rw [if_neg (show ¬ e.shape.busy = true from hb)]

/-! ## The station -/

theorem plan_shape (s : RsState) (flush : Bool) : (plan s flush).shape = plan s.shape flush := by
  unfold plan
  split
  · rfl
  · show (if selectReadyIndex s ≠ kInvalidIndex then _ else _ : RsDecision).shape =
      if selectReadyIndex s ≠ kInvalidIndex then _ else _
    split <;> rfl

/-- What is written to one slot has its own shape. -/
theorem update_shape (entries : Nat → RsEntry) (index : Nat) (e : RsEntry) :
    (fun i => (Function.update entries index e i).shape) =
      Function.update (fun i => (entries i).shape) index e.shape :=
  Function.comp_update RsEntry.shape entries index e

theorem dispatched_shape (s : RsState) (inputs : RsInputs) (decision : RsDecision) :
    (dispatched s inputs decision).shape = dispatched s.shape inputs.shape decision.shape := by
  unfold dispatched
  split
  · rename_i hc
    rw [if_pos (show (decision.shape.selectedIndex ≠ kInvalidIndex && inputs.shape.fuAvailable) = true from hc)]
    simp only [RsState.shape, update_shape, wakeEntry_shape]
    rfl
  · rename_i hc
    rw [if_neg (show ¬ (decision.shape.selectedIndex ≠ kInvalidIndex && inputs.shape.fuAvailable) = true from hc)]
    simp only [RsState.shape, wakeEntry_shape]
    rfl

theorem step_shape (s : RsState) (inputs : RsInputs) (decision : RsDecision) :
    (step s inputs decision).2.shape = (step s.shape inputs.shape decision.shape).2 := by
  unfold step
  rw [← dispatched_shape]
  split
  · rename_i hf
    rw [if_pos (show inputs.shape.flush = true from hf)]
    rfl
  · rename_i hf
    rw [if_neg (show ¬ inputs.shape.flush = true from hf)]
    split
    · rename_i hv
      rw [if_pos (show inputs.shape.issueValid = true from hv)]
      show RsState.shape (Prod.snd
          (if findFreeIndex (dispatched s inputs decision).entries ≠ kInvalidIndex then _ else _)) =
        Prod.snd (if findFreeIndex (dispatched s inputs decision).entries ≠ kInvalidIndex then _ else _)
      split
      · simp only [RsState.shape, update_shape]
        rfl
      · rfl
    · rename_i hv
      rw [if_neg (show ¬ inputs.shape.issueValid = true from hv)]

end ReservationStation

/-! ## The unit and the bus -/

theorem FunctionalUnit.executeInstruction_shape (e : Execute) :
    (executeInstruction e).shape = (executeInstruction e.shape).shape := by
  cases hop : e.op <;> simp only [executeInstruction, Execute.shape, hop, value, branch, jump, FuResult.shape]

theorem FunctionalUnit.step_shape (current : FuResult) (execute : Execute) (flush resultAccepted : Bool) :
    (step current execute flush resultAccepted).2.shape =
      (step current.shape execute.shape flush resultAccepted).2.shape := by
  have hvalid : (executeInstruction execute.shape).valid = (executeInstruction execute).valid :=
    (congrArg FuResult.valid (executeInstruction_shape execute)).symm
  have hkept : (if resultAccepted && current.valid then {} else current : FuResult).shape =
      (if resultAccepted && current.valid then {} else current.shape : FuResult).shape := by
    split <;> rfl
  show FuResult.shape (Prod.snd (if flush = true then _ else if execute.valid = false then _
      else if canAccept current resultAccepted = false then _
      else if (executeInstruction execute).valid = false then _ else _)) =
    FuResult.shape (Prod.snd (if flush = true then _ else if execute.valid = false then _
      else if canAccept current resultAccepted = false then _
      else if (executeInstruction execute.shape).valid = false then _ else _))
  rw [hvalid]
  split
  · rfl
  · split
    · exact hkept
    · split
      · exact hkept
      · split
        · exact hkept
        · exact executeInstruction_shape execute

theorem CommonDataBus.plan_shape (preferLoad : Bool) (inputs : CdbInputs) :
    (plan preferLoad inputs).shape = plan preferLoad inputs.shape := by
  unfold plan
  show CdbDecision.shape (if _ then _ else _) =
    if (!validCandidate inputs.integerResult && !validCandidate inputs.loadResult) = true then _
    else if (validCandidate inputs.integerResult && validCandidate inputs.loadResult) = true then _
    else if validCandidate inputs.integerResult = true then _ else _
  split
  · rfl
  · split
    · split <;> rfl
    · split <;> rfl

/-! ## The reorder buffer -/

namespace ReorderBuffer

theorem completeEntry_shape (completion : FuResult) (e : RobEntry) :
    (completeEntry completion e).shape = completeEntry completion.shape e.shape := by
  unfold completeEntry
  show RobEntry.shape (if completion.hasControlResult = true then _ else _) =
    if completion.hasControlResult = true then _ else _
  split <;> rfl

theorem update_shape (entries : Nat → RobEntry) (index : Nat) (e : RobEntry) :
    (fun i => (Function.update entries index e i).shape) =
      Function.update (fun i => (entries i).shape) index e.shape :=
  Function.comp_update RobEntry.shape entries index e

theorem applyCompletion_shape (cur next : RobState) (completion : FuResult) :
    (applyCompletion cur next completion).shape = applyCompletion cur.shape next.shape completion.shape := by
  unfold applyCompletion
  show RobState.shape (if (!completion.valid || !matchingEntry completion.tag cur.entries) = true then _ else _) =
    if (!completion.valid || !matchingEntry completion.tag cur.entries) = true then _ else _
  split
  · rfl
  · simp only [RobState.shape, update_shape, completeEntry_shape]
    rfl

theorem applyStoreCompletion_shape (cur next : RobState) (completion : StoreCommitCompletion) :
    (applyStoreCompletion cur next completion).shape = applyStoreCompletion cur.shape next.shape completion := by
  unfold applyStoreCompletion
  show RobState.shape (if (!completion.valid || !matchingEntry completion.tag cur.entries) = true then _
      else if (!(next.entries completion.tag.index.toNat).isStore) = true then _ else _) =
    if (!completion.valid || !matchingEntry completion.tag cur.entries) = true then _
      else if (!(next.entries completion.tag.index.toNat).isStore) = true then _ else _
  split
  · rfl
  · split
    · rfl
    · simp only [RobState.shape, update_shape]
      rfl

/-- Of the decision only the two flags are looked at. -/
theorem applyCommit_shape (next : RobState) {outputs outputs' : RobOutputs}
    (hv : outputs'.commit.valid = outputs.commit.valid) (hf : outputs'.flush = outputs.flush) :
    (applyCommit next outputs).shape = applyCommit next.shape outputs' := by
  have hpop : (popHead next).shape = popHead next.shape := by
    simp only [popHead, RobState.shape, update_shape]
    rfl
  unfold applyCommit
  rw [hv, hf]
  split
  · rw [← hpop]
    split <;> rfl
  · rfl

theorem step_shape (s : RobState) (inputs : RobInputs) (decision decision' : RobDecision)
    (hv : decision'.outputs.commit.valid = decision.outputs.commit.valid)
    (hf : decision'.outputs.flush = decision.outputs.flush) :
    (step s inputs decision).2.shape = (step s.shape inputs.shape decision').2 := by
  have haccepts : accepts s.shape inputs.shape decision' = accepts s inputs decision := by
    rw [accepts, accepts, hf]
    rfl
  have hnext : (applyCommit (applyStoreCompletion s (applyCompletion s s inputs.completion) inputs.storeCompletion)
      decision.outputs).shape =
      applyCommit (applyStoreCompletion s.shape (applyCompletion s.shape s.shape inputs.completion.shape)
        inputs.storeCompletion) decision'.outputs := by
    rw [applyCommit_shape _ hv hf, applyStoreCompletion_shape, applyCompletion_shape]
  show RobState.shape (Prod.snd (if accepts s inputs decision = true then _ else _)) =
    Prod.snd (if accepts s.shape inputs.shape decision' = true then (true, allocate (applyCommit (applyStoreCompletion
      s.shape (applyCompletion s.shape s.shape inputs.completion.shape) inputs.storeCompletion) decision'.outputs) _ _)
      else (false, applyCommit (applyStoreCompletion s.shape (applyCompletion s.shape s.shape inputs.completion.shape)
        inputs.storeCompletion) decision'.outputs))
  rw [haccepts, ← hnext]
  split
  · simp only [allocate, RobState.shape, update_shape]
    rfl
  · rfl

theorem front_shape (s : RobState) : front s.shape = (front s).map RobEntry.shape := by
  show (if empty s = true then _ else if (s.entries s.head).valid = true then _ else _) = _
  unfold front
  split
  · rfl
  · split <;> rfl

theorem lookup_shape (s : RobState) (tag : RobTag) : lookup s.shape tag = (lookup s tag).map RobEntry.shape := by
  show (if matchingEntry tag s.entries = true then _ else _) = _
  unfold lookup
  split <;> rfl

end ReorderBuffer

/-! ## The queue -/

namespace LoadStoreQueue

theorem wakeEntry_shape (e : LsqEntry) (cdb : CdbMsg) : (wakeEntry e cdb).shape = wakeEntry e.shape cdb.shape := by
  unfold wakeEntry
  show LsqEntry.shape (if e.valid = true then if e.type = .store then _ else _ else _) =
    if e.valid = true then if e.type = .store then _ else _ else _
  split
  · split
    · simp only [LsqEntry.shape, wakeOperand_shape]
    · simp only [LsqEntry.shape, wakeOperand_shape]
  · rfl

theorem updateAddress_shape (e : LsqEntry) : (updateAddress e).shape = (updateAddress e.shape).shape := by
  unfold updateAddress
  show LsqEntry.shape (if (!e.valid || e.addressReady || !e.base.ready) = true then _ else _) =
    LsqEntry.shape (if (!e.valid || e.addressReady || !e.base.ready) = true then _ else _)
  split <;> rfl

theorem updateAddresses_shape (next : LsqState) :
    (updateAddresses next).shape = (updateAddresses next.shape).shape := by
  have hentries : (fun i => (updateAddress (next.entries i)).shape) =
      fun i => (updateAddress (next.entries i).shape).shape :=
    funext fun i => updateAddress_shape _
  simp only [updateAddresses, LsqState.shape]
  rw [hentries]
  rfl

theorem update_shape (entries : Nat → LsqEntry) (index : Nat) (e : LsqEntry) :
    (fun i => (Function.update entries index e i).shape) =
      Function.update (fun i => (entries i).shape) index e.shape :=
  Function.comp_update LsqEntry.shape entries index e

theorem allocate_shape (next : LsqState) (e : LsqEntry) : (allocate next e).shape = allocate next.shape e.shape := by
  simp only [allocate, LsqState.shape, update_shape]
  rfl

theorem advance_shape (s : LsqState) (inputs : LsqInputs) (decision : LsqDecision) :
    (advance s inputs decision).shape = advance s.shape inputs.shape decision.shape := by
  have hload : (if decision.installLoadResult then decision.completedLoadResult
      else if decision.clearLoadResult then {} else s.loadResult).shape =
      if decision.installLoadResult then decision.completedLoadResult.shape
      else if decision.clearLoadResult then {} else s.loadResult.shape := by
    split
    · rfl
    · split <;> rfl
  unfold advance
  cases hr : decision.removeHead <;> cases hm : decision.markRequestSent <;>
    simp only [LsqDecision.shape, hr, hm, LsqState.shape, LsqInputs.shape, removeNextHead, update_shape, hload,
      ← wakeEntry_shape, Function.update_self, if_true, Bool.false_eq_true, if_false]
  · rfl
  · rfl
  · rfl


theorem step_shape (s : LsqState) (inputs : LsqInputs) (decision : LsqDecision) :
    (step s inputs decision).2.shape = (step s.shape inputs.shape decision.shape).2.shape := by
  show LsqState.shape (Prod.snd (if inputs.flush = true then _ else if accepts s inputs = true then _ else _)) =
    LsqState.shape (Prod.snd (if inputs.flush = true then _ else
      if accepts s inputs = true then
        (true, updateAddresses (allocate (advance s.shape inputs.shape decision.shape) inputs.issueEntry.shape))
      else (false, updateAddresses (advance s.shape inputs.shape decision.shape))))
  split
  · rfl
  · rw [← advance_shape, ← allocate_shape]
    split
    · exact updateAddresses_shape _
    · exact updateAddresses_shape _

theorem planSend_shape (s : LsqState) (head : LsqEntry) (inputs : LsqObserveInputs) {decision decision' : LsqDecision}
    (hd : decision.shape = decision'.shape) :
    (planSend s head inputs decision).shape = (planSend s.shape head.shape inputs.shape decision').shape := by
  show LsqDecision.shape (if maySend s head inputs = true then _ else _) =
    LsqDecision.shape (if maySend s head inputs = true then _ else _)
  split
  · -- the request is the head's, the rest the decision's
    have hsend : ∀ (d : LsqDecision) (e : LsqEntry),
        LsqDecision.shape { d with
          outputs := { d.outputs with memoryRequest := makeMemoryRequest e }, markRequestSent := true } =
        { d.shape with
          outputs := { d.shape.outputs with memoryRequest := (makeMemoryRequest e).shape }, markRequestSent := true } :=
      fun _ _ => rfl
    rw [hsend, hsend, hd]
    simp only [makeMemoryRequest, DataMemoryRequest.shape]
    rfl
  · exact hd

theorem planResponse_shape (head : LsqEntry) (response : DataMemoryResponse) {decision : LsqDecision}
    (hok : matchingResponse head response = true → response.success = true) :
    (planResponse head response decision).shape =
      (planResponse head.shape response.shape decision.shape).shape := by
  unfold planResponse
  show LsqDecision.shape (if matchingResponse head response = true then _ else _) =
    LsqDecision.shape (if matchingResponse head response = true then _ else _)
  split
  · rename_i hm
    rw [hok hm]
    show LsqDecision.shape (if head.type = .load then _ else _) = LsqDecision.shape (if head.type = .load then _ else _)
    split <;> rfl
  · rfl

/-- As long as no access fails. -/
theorem plan_shape (s : LsqState) (inputs : LsqObserveInputs) (hok : (plan s inputs).outputs.memoryError = false) :
    (plan s inputs).shape = (plan s.shape inputs.shape).shape := by
  have hresponse : inputs.flush = false → empty s = false →
      matchingResponse (s.entries s.head) inputs.memoryResponse = true → inputs.memoryResponse.success = true := by
    intro hf he hm
    by_contra hc
    rw [Bool.not_eq_true] at hc
    unfold plan planSend planResponse at hok
    simp only [hf, he, hm, hc, Bool.false_eq_true, if_false, if_true, Bool.not_false] at hok
    split at hok <;> cases hok
  show LsqDecision.shape (if inputs.flush = true then _ else if empty s = true then _ else planSend s _ inputs _) =
    LsqDecision.shape (if inputs.flush = true then _ else if empty s = true then _
      else planSend s.shape (s.entries s.head).shape inputs.shape (planResponse _ inputs.memoryResponse.shape _))
  split
  · rfl
  · rename_i hf
    split
    · rfl
    · rename_i he
      exact planSend_shape s _ inputs (planResponse_shape _ _ (hresponse (by simpa using hf) (by simpa using he)))

end LoadStoreQueue

/-! ## The memory port -/

theorem MemoryUnit.completeCurrentTransaction_shape (memory memory' : MemoryImage) (request : DataMemoryRequest) :
    (completeCurrentTransaction memory request).1.shape =
      (completeCurrentTransaction memory' request.shape).1.shape := by
  obtain ⟨type, width, address, value, tag, valid⟩ := request
  cases type with
  | load => rfl
  | store => rfl

/-- What the memory holds does not matter. -/
theorem MemoryUnit.step_shape (memory memory' : MemoryImage) (port : DataPort) (request : DataMemoryRequest) :
    (step memory port request).port.shape = (step memory' port.shape request.shape).port.shape := by
  unfold step
  show DataPort.shape (PortStep.port (if port.transaction.valid = true then
      if 1 < port.transaction.remainingCycles then _ else _
      else if (request.valid && request.tag.valid) = true then _ else _)) =
    DataPort.shape (PortStep.port (if port.transaction.valid = true then
      if 1 < port.transaction.remainingCycles then _ else _
      else if (request.valid && request.tag.valid) = true then _ else _))
  split
  · split
    · rfl
    · show DataPort.mk _ (completeCurrentTransaction memory port.transaction.request).1.shape =
        DataPort.mk _ (completeCurrentTransaction memory' port.transaction.request.shape).1.shape
      rw [completeCurrentTransaction_shape memory memory']
  · split <;> rfl

theorem MemoryUnit.step_accepted (memory memory' : MemoryImage) (port : DataPort) (request : DataMemoryRequest) :
    (step memory port request).accepted = (step memory' port.shape request.shape).accepted := by
  unfold step
  show PortStep.accepted (if port.transaction.valid = true then
      if 1 < port.transaction.remainingCycles then _ else _
      else if (request.valid && request.tag.valid) = true then _ else _) =
    PortStep.accepted (if port.transaction.valid = true then
      if 1 < port.transaction.remainingCycles then _ else _
      else if (request.valid && request.tag.valid) = true then _ else _)
  split
  · split <;> rfl
  · split <;> rfl

/-! ## Issue -/

namespace IssueUnit

theorem resolveRegister_shape (idx : RegisterIndex) (src : SourceState) (msg : CdbMsg) :
    (resolveRegister idx src msg).shape = resolveRegister idx src.shape msg.shape := by
  show Operand.shape (if idx = 0 then _ else if src.producer.valid = false then _
      else if (msg.valid && msg.tag.valid && msg.tag == src.producer) = true then _
      else if src.producerReady = true then _ else _) =
    if idx = 0 then _ else if src.producer.valid = false then _
      else if (msg.valid && msg.tag.valid && msg.tag == src.producer) = true then _
      else if src.producerReady = true then _ else _
  split
  · rfl
  · split
    · rfl
    · split
      · rfl
      · split <;> rfl

theorem selectOperand_shape (src : OperandSource) (o : Operand) (immediate : Word) (pc : Address) :
    (selectOperand src o immediate pc).shape = (selectOperand src o.shape immediate pc).shape := by
  cases src <;> rfl

theorem makeRsEntry_shape (inputs : IssueInputs) (rs1 rs2 : Operand) :
    (makeRsEntry inputs rs1 rs2).shape = (makeRsEntry inputs.shape rs1.shape rs2.shape).shape := by
  simp only [makeRsEntry, RsEntry.shape]
  rw [selectOperand_shape _ rs1, selectOperand_shape _ rs2]
  rfl

theorem makeLsqEntry_shape (inputs : IssueInputs) (rs1 rs2 : Operand) :
    (makeLsqEntry inputs rs1 rs2).shape = (makeLsqEntry inputs.shape rs1.shape rs2.shape).shape := by
  have hdata : (if inputs.packet.decoded.isStore then rs2 else readyOperand 0).shape =
      (if inputs.packet.decoded.isStore then rs2.shape else readyOperand 0).shape := by
    split <;> rfl
  simp only [makeLsqEntry, LsqEntry.shape]
  rw [hdata]
  rfl

/-- The unit or the queue has no room. -/
def blocked (inputs : IssueInputs) : Bool :=
  !inputs.robAvailable || isMemoryInstruction inputs.packet.decoded && !inputs.lsqAvailable ||
    !inputs.packet.decoded.op == .halt && !isMemoryInstruction inputs.packet.decoded && !inputs.rsAvailable

theorem plan_shape (inputs : IssueInputs) : (plan inputs).shape = (plan inputs.shape).shape := by
  have hrs (c : Bool) (rs1 rs2 : Operand) : (if c then makeRsEntry inputs rs1 rs2 else {}).shape =
      (if c then makeRsEntry inputs.shape rs1.shape rs2.shape else {}).shape := by
    cases c with
    | false => rfl
    | true => exact makeRsEntry_shape inputs rs1 rs2
  have hlsq (c : Bool) (rs1 rs2 : Operand) : (if c then makeLsqEntry inputs rs1 rs2 else {}).shape =
      (if c then makeLsqEntry inputs.shape rs1.shape rs2.shape else {}).shape := by
    cases c with
    | false => rfl
    | true => exact makeLsqEntry_shape inputs rs1 rs2
  show IssueOutputs.shape (if inputs.packet.valid = false then _ else if inputs.packet.decoded.op = .invalid then _
      else if inputs.allocatedTag.valid = false then _ else if blocked inputs = true then _ else _) =
    IssueOutputs.shape (if inputs.packet.valid = false then _ else if inputs.packet.decoded.op = .invalid then _
      else if inputs.allocatedTag.valid = false then _ else if blocked inputs = true then _ else _)
  split
  · rfl
  · split
    · rfl
    · split
      · rfl
      · split
        · rfl
        · simp only [IssueOutputs.shape]
          rw [hrs, hlsq, resolveRegister_shape, resolveRegister_shape]
          rfl

end IssueUnit

end TomasuloCpu
