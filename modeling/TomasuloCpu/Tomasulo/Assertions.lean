/-
  TomasuloCpu.Tomasulo.Assertions — no assertion fires.

  Each function with an `assert` gets the condition its call asserts: `planAsserts`,
  `applyAsserts` and `latchAsserts` of the modules, and `CycleAsserts` for the cycle, which
  makes the calls and asserts on their answers. All of them hold in every running cycle
  (`cycle_asserts`): the invariant says what the parties to each call agree on.
-/
import TomasuloCpu.Tomasulo.CommitLog
import TomasuloCpu.Tomasulo.OrderIndependence

namespace TomasuloCpu

/-! ## What the modules assert -/

namespace LoadStoreQueue

/-- The `default` of `memory_width` asserts. -/
def memoryWidthAsserts : Op → Bool
  | .lb | .lbu | .sb | .lh | .lhu | .sh | .lw | .sw => true
  | _ => false

/-- The `default` of `extend_load_result` asserts. -/
def extendLoadResultAsserts : Op → Bool
  | .lb | .lh | .lw | .lbu | .lhu => true
  | _ => false

theorem memoryWidthAsserts_of {op : Op} (h : op.isMemory = true) : memoryWidthAsserts op = true := by
  revert h
  cases op <;> decide

theorem extendLoadResultAsserts_of {op : Op} (h : op.isLoad = true) : extendLoadResultAsserts op = true := by
  revert h
  cases op <;> decide

/-- `plan` extends the value of an answered load and takes the width of an access it sends. -/
def planAsserts (s : LsqState) (inputs : LsqObserveInputs) : Bool :=
  if inputs.flush || empty s then true
  else
    let head := s.entries s.head
    let loaded := matchingResponse head inputs.memoryResponse && inputs.memoryResponse.success &&
      decide (head.type = .load)
    (!loaded || extendLoadResultAsserts head.op) && (!maySend s head inputs || memoryWidthAsserts head.op)

/-- `apply` installs into a free result buffer and removes from a queue that has a head. -/
def applyAsserts (s : LsqState) (inputs : LsqInputs) (decision : LsqDecision) : Bool :=
  if inputs.flush then true
  else
    let loadResult := if decision.clearLoadResult then {} else s.loadResult
    (!decision.installLoadResult || !loadResult.valid) && (!decision.removeHead || decide (0 < s.count))

end LoadStoreQueue

/-- `apply` computes only what has a result. -/
def FunctionalUnit.applyAsserts (current : FuResult) (execute : Execute) (flush resultAccepted : Bool) : Bool :=
  if flush || !execute.valid || !canAccept current resultAccepted then true
  else (executeInstruction execute).valid

namespace MemoryUnit

/-- `complete_current_transaction` needs a transaction, a new request a valid tag. -/
def applyAsserts (port : DataPort) (request : DataMemoryRequest) : Bool :=
  if port.transaction.valid then decide (1 < port.transaction.remainingCycles) || port.transaction.valid
  else !request.valid || request.tag.valid

/-- A scheduled store is written. -/
def latchAsserts (m : MemoryUnit) : Bool :=
  !m.nextStoreWrite.valid || (applyStoreWrite m.memory m.nextStoreWrite).1

end MemoryUnit

/-- `apply` has no assertion of its own; a commit must not take `next_count_` below zero. -/
def ReorderBuffer.applyAsserts (s : RobState) (decision : RobDecision) : Bool :=
  !decision.outputs.commit.valid || decide (0 < s.count)

namespace Cpu

open TomasuloCpu.Core

/-- The assertions of one cycle in the module orders `order`. -/
structure CycleAsserts (order : ModuleOrders) (cpu : Cpu) : Prop where
  robIssue : issueEffective (cpu.applied order).1 = true → (cpu.applied order).2.robIssueAccepted = true
  rsIssue : issueEffective (cpu.applied order).1 = true → (cpu.applied order).1.issue.writeRs = true →
    (cpu.applied order).2.rsIssueAccepted = true
  lsqIssue : issueEffective (cpu.applied order).1 = true → (cpu.applied order).1.issue.writeLsq = true →
    (cpu.applied order).2.lsqIssueAccepted = true
  dispatch : (cpu.applied order).1.rs.outputs.dispatchValid = true →
    (cpu.core.rsInputs cpu.core.observe (cpu.applied order).1).fuAvailable = true →
    cpu.core.observe.preview.flush = false → (cpu.applied order).2.fuAccepted = true
  memoryRequest : (cpu.applied order).1.lsq.outputs.memoryRequest.valid = true →
    (cpu.applied order).2.memoryAccepted = true
  lsqPlan : LoadStoreQueue.planAsserts cpu.core.lsq cpu.core.observe.lsq = true
  lsqApply : LoadStoreQueue.applyAsserts cpu.core.lsq (lsqInputs cpu.core.observe (cpu.applied order).1)
    (cpu.applied order).1.lsq = true
  fuApply : FunctionalUnit.applyAsserts cpu.core.fu (cpu.applied order).1.rs.outputs.dispatch
    cpu.core.observe.preview.flush cpu.core.observe.cdb.outputs.integerGranted = true
  memoryApply : MemoryUnit.applyAsserts cpu.core.port (cpu.applied order).1.lsq.outputs.memoryRequest = true
  memoryLatch : MemoryUnit.latchAsserts (cpu.applied order).2.cpu.memoryUnit = true
  robApply : ReorderBuffer.applyAsserts cpu.core.rob (cpu.applied order).1.rob = true

end Cpu

/-! ## The calls are accepted -/

theorem ReservationStation.step_accepts {s : RsState} {inputs : RsInputs} (hf : inputs.flush = false)
    (hv : inputs.issueValid = true) (hroom : available s = true) (d : RsDecision) : (step s inputs d).1 = true := by
  have hfree := findFreeIndex_free (dispatched_free (available_iff.mp hroom) inputs d)
  have hne : findFreeIndex (dispatched s inputs d).entries ≠ kInvalidIndex := by
    have := hfree.1
    unfold kInvalidIndex
    omega
  rw [step, if_neg (by simp [hf]), if_pos hv, if_pos hne]

namespace Core

variable {s : Core}

theorem rs_accepts (hw : s.outs.issue.writeRs = true) (hi : issueEffective s.outs = true) (hfl : s.flush = false) :
    (ReservationStation.step s.rs (s.rsInputs s.observe s.outs) (ReservationStation.plan s.rs s.flush)).1 = true := by
  have hv : (s.rsInputs s.observe s.outs).issueValid = true := by
    rw [rsInputs, hw, hi]
    rfl
  exact ReservationStation.step_accepts hfl hv ((rsIssue s).2 hv) _

theorem lsq_accepts {d : DecodePacket} (hd : s.issuing = some d) (hw : s.outs.issue.writeLsq = true) :
    (LoadStoreQueue.step s.lsq (lsqInputs s.observe s.outs) s.lsqDecision).1 = true := by
  have hi := issuing_some hd
  have hm : d.decoded.op.isMemory = true := by
    rw [hi.issue] at hw
    exact hw
  have hacc : LoadStoreQueue.accepts s.lsq (lsqInputs s.observe s.outs) = true := by
    simp [LoadStoreQueue.accepts, lsqInputs, observe_flush, hi.noFlush, hi.issue, hm, hi.lsqRoom hm, issuedLsq,
      IssueUnit.makeLsqEntry]
  rw [LoadStoreQueue.step, if_neg (by simp [lsqInputs, observe_flush, hi.noFlush]), if_pos hacc]

/-- A dispatched entry computes a valid result. -/
theorem dispatch_computes (h : Inv s) (hfl : s.flush = false)
    (hv : (ReservationStation.plan s.rs s.flush).outputs.dispatch.valid = true) :
    (FunctionalUnit.executeInstruction (ReservationStation.plan s.rs s.flush).outputs.dispatch).valid = true := by
  rw [hfl] at hv ⊢
  have hsel : (ReservationStation.plan s.rs false).selectedIndex ≠ ReservationStation.kInvalidIndex := by
    intro hidle
    rw [ReservationStation.plan_idle hidle] at hv
    cases hv
  obtain ⟨hlt, hready, hdispatch⟩ := ReservationStation.plan_selected hsel
  rw [hdispatch]
  simp only [ReservationStation.readyEntry, Bool.and_eq_true] at hready
  obtain ⟨x, -, -, hop, -, ha⟩ := h.station_entry (ReservationStation.mem_waiting.mpr ⟨_, hlt, rfl, hready.1.1⟩)
  rw [hop] at ha
  exact (computed_spec ha).1

theorem fu_accepts (h : Inv s) (hv : (ReservationStation.plan s.rs s.flush).outputs.dispatchValid = true)
    (ha : FunctionalUnit.canAccept s.fu s.integerGranted = true) (hfl : s.flush = false) :
    (FunctionalUnit.step s.fu (ReservationStation.plan s.rs s.flush).outputs.dispatch s.flush
      s.integerGranted).1 = true := by
  have hexec : (ReservationStation.plan s.rs s.flush).outputs.dispatch.valid = true := by
    rw [hfl] at hv ⊢
    unfold ReservationStation.plan at hv ⊢
    simp only [Bool.false_eq_true, if_false] at hv ⊢
    split at hv
    · rename_i hsel
      rw [if_pos hsel]
      rfl
    · cases hv
  rw [FunctionalUnit.step, if_neg (by simp [hfl]), if_neg (by simp [hexec]), if_neg (by simp [ha]),
    if_neg (by simp [dispatch_computes h hfl hexec])]

/-- A request goes out only to a free port, with a live tag. -/
theorem request_ok (h : Inv s) (hv : s.lsqDecision.outputs.memoryRequest.valid = true) :
    s.port.transaction.valid = false ∧ s.lsqDecision.outputs.memoryRequest.tag.valid = true := by
  by_cases hfl : s.flush = true
  · rw [lsqDecision_flush hfl] at hv
    cases hv
  · have hev := lsq_event h (by simpa using hfl)
    generalize s.lsqDecision = d at hev hv ⊢
    cases hev with
    | idle => cases hv
    | failed => cases hv
    | @send e rest hq hs =>
      refine ⟨?_, h.pending_valid (h.queue_pending (by rw [hq]; exact List.mem_cons_self))⟩
      simp only [LoadStoreQueue.maySend, Bool.and_eq_true] at hs
      have hfree : MemoryUnit.dataPortAvailable s.port = true := hs.1.2
      simpa [MemoryUnit.dataPortAvailable] using hfree
    | loaded => cases hv
    | stored => cases hv

/-! ## The modules' own -/

theorem lsq_planAsserts (h : Inv s) : LoadStoreQueue.planAsserts s.lsq s.observe.lsq = true := by
  unfold LoadStoreQueue.planAsserts
  split
  · rfl
  · rename_i hc
    rw [Bool.or_eq_true, not_or] at hc
    have hpos : 0 < s.lsq.count := by
      have := hc.2
      simp only [LoadStoreQueue.empty, beq_iff_eq] at this
      omega
    have hq := LoadStoreQueue.queue_cons h.lsq hpos
    have hmem : s.lsq.entries s.lsq.head ∈ s.lsq.queue := by rw [hq]; exact List.mem_cons_self
    obtain ⟨x, -, -, hop, -, hm⟩ := h.queued_entry hmem
    have hacc := h.access _ hmem
    rw [hop] at hm
    generalize s.lsq.entries s.lsq.head = e at hm hacc ⊢
    simp only [LoadStoreQueue.memoryWidthAsserts_of hm, Bool.or_true, Bool.and_true, Bool.or_eq_true,
      Bool.not_eq_true']
    by_cases ht : e.type = .load
    · rw [Op.isMemory, hacc.load_op ht, Bool.or_false] at hm
      exact Or.inr (LoadStoreQueue.extendLoadResultAsserts_of hm)
    · exact Or.inl (by simp [ht])

theorem lsq_applyAsserts (h : Inv s) :
    LoadStoreQueue.applyAsserts s.lsq (lsqInputs s.observe s.outs) s.lsqDecision = true := by
  unfold LoadStoreQueue.applyAsserts
  split
  · rfl
  · rename_i hfl
    have hfl : s.flush = false := by simpa [lsqInputs, observe_flush] using hfl
    have hremove : s.lsqDecision.removeHead = true → 0 < s.lsq.count := (serves h hfl).remove
    have hinstall : s.lsqDecision.installLoadResult = true → s.lsq.loadResult.valid = false := by
      intro hi
      have hev := lsq_event h hfl
      generalize s.lsqDecision = d at hev hi
      cases hev with
      | idle => cases hi
      | failed => cases hi
      | send => cases hi
      | @loaded e rest hq hm hs ht =>
        exact h.sentLoad e (by rw [hq]; exact List.mem_cons_self) (h.matched hq hm).2.2 ht
      | stored => cases hi
    simp only [Bool.and_eq_true, Bool.or_eq_true, Bool.not_eq_true', decide_eq_true_eq]
    constructor
    · by_cases hi : s.lsqDecision.installLoadResult = true
      · refine Or.inr ?_
        split
        · rfl
        · exact hinstall hi
      · exact Or.inl (by simpa using hi)
    · by_cases hr : s.lsqDecision.removeHead = true
      · exact Or.inr (hremove hr)
      · exact Or.inl (by simpa using hr)

/-- A store is scheduled only in bounds, so writing it succeeds. -/
theorem scheduled_writes (memory : MemoryImage) (port : DataPort) (request : DataMemoryRequest)
    (hv : (MemoryUnit.step memory port request).storeWrite.valid = true) :
    (MemoryUnit.applyStoreWrite memory (MemoryUnit.step memory port request).storeWrite).1 = true := by
  unfold MemoryUnit.step at hv ⊢
  split at hv
  · split at hv
    · cases hv
    · rename_i hval hrem
      rw [if_pos hval, if_neg hrem]
      unfold MemoryUnit.completeCurrentTransaction at hv ⊢
      cases ht : port.transaction.request.type with
      | load =>
        rw [ht] at hv
        cases hv
      | store =>
        simp only [ht, MemoryUnit.scheduleStore] at hv ⊢
        split at hv
        · rename_i hb
          rw [if_pos hb]
          rw [MemoryUnit.applyStoreWrite_valid, if_pos hb]
        · cases hv
  · split at hv <;> cases hv

/-! ## One cycle -/

theorem memory_applyAsserts (h : Inv s) :
    MemoryUnit.applyAsserts s.port s.lsqDecision.outputs.memoryRequest = true := by
  unfold MemoryUnit.applyAsserts
  split
  · rename_i hv
    rw [hv, Bool.or_true]
  · by_cases hv : s.lsqDecision.outputs.memoryRequest.valid = true
    · rw [(request_ok h hv).2, Bool.or_true]
    · simp [hv]

theorem rob_applyAsserts (h : Inv s) : ReorderBuffer.applyAsserts s.rob (ReorderBuffer.plan s.rob) = true := by
  unfold ReorderBuffer.applyAsserts
  by_cases hc : s.committing = true
  · obtain ⟨x, hx, -⟩ := (committing_iff h.rob).mp hc
    have hpos : 0 < s.rob.count := by
      rw [← ReorderBuffer.length_live]
      exact List.length_pos_iff.mpr fun hnil => by rw [hnil] at hx; cases hx
    simp [hpos]
  · have hc : (ReorderBuffer.plan s.rob).outputs.commit.valid = false := Bool.not_eq_true _ ▸ hc
    simp [hc]

theorem fu_applyAsserts (h : Inv s) :
    FunctionalUnit.applyAsserts s.fu (ReservationStation.plan s.rs s.flush).outputs.dispatch s.flush
      s.integerGranted = true := by
  unfold FunctionalUnit.applyAsserts
  split
  · rfl
  · rename_i hc
    simp only [Bool.or_eq_true, Bool.not_eq_true', not_or, Bool.not_eq_true, Bool.not_eq_false] at hc
    exact dispatch_computes h hc.1.1 hc.1.2

end Core

namespace Cpu

open TomasuloCpu.Core

/-- The plans and the answers of a cycle, in any order of the modules. -/
theorem applied_eq (order : ModuleOrders) (cpu : Cpu) :
    (cpu.applied order).1 = cpu.core.outs ∧
      (cpu.applied order).2.robIssueAccepted = (ReorderBuffer.step cpu.core.rob
        (robInputs cpu.core.observe cpu.core.outs) (ReorderBuffer.plan cpu.core.rob)).1 ∧
      (cpu.applied order).2.rsIssueAccepted = (ReservationStation.step cpu.core.rs
        (cpu.core.rsInputs cpu.core.observe cpu.core.outs) (ReservationStation.plan cpu.core.rs cpu.core.flush)).1 ∧
      (cpu.applied order).2.lsqIssueAccepted = (LoadStoreQueue.step cpu.core.lsq
        (lsqInputs cpu.core.observe cpu.core.outs) cpu.core.lsqDecision).1 ∧
      (cpu.applied order).2.fuAccepted = (FunctionalUnit.step cpu.core.fu
        (ReservationStation.plan cpu.core.rs cpu.core.flush).outputs.dispatch cpu.core.flush
        cpu.core.integerGranted).1 ∧
      (cpu.applied order).2.memoryAccepted = (MemoryUnit.step cpu.core.memory cpu.core.port
        cpu.core.lsqDecision.outputs.memoryRequest).accepted ∧
      (cpu.applied order).2.cpu.memoryUnit.memory = cpu.core.memory ∧
      (cpu.applied order).2.cpu.memoryUnit.nextStoreWrite = (MemoryUnit.step cpu.core.memory cpu.core.port
        cpu.core.lsqDecision.outputs.memoryRequest).storeWrite := by
  simp only [applied, foldl_planStep, foldl_applyStep order, baseApply, List.foldl_cons, List.foldl_nil, applyStep]
  exact ⟨rfl, rfl, rfl, rfl, rfl, rfl, rfl, rfl⟩

theorem cycle_asserts (order : ModuleOrders) {cpu : Cpu} (h : cpu.core.Inv) : CycleAsserts order cpu := by
  obtain ⟨hp, hrob, hrs, hlsq, hfu, hmemory, hbytes, hwrite⟩ := applied_eq order cpu
  have hflush : (cpu.applied order).1.rob.outputs.flush = cpu.core.flush := by rw [hp, outs_flush]
  refine ⟨fun hi => ?_, fun hi hw => ?_, fun hi hw => ?_, fun hv ha hfl => ?_, fun hv => ?_, lsq_planAsserts h, ?_, ?_, ?_,
    ?_, ?_⟩
  · rw [hp, issueEffective_iff] at hi
    rw [hrob, ReorderBuffer.step, if_pos (by rw [accepts_iff]; exact hi)]
  · rw [hp] at hi hw
    have hfl : cpu.core.flush = false := by
      rw [issueEffective, outs_flush, Bool.and_eq_true, Bool.not_eq_true'] at hi
      exact hi.2
    rw [hrs]
    exact rs_accepts hw hi hfl
  · rw [hp] at hi hw
    rw [issueEffective_iff, Option.isSome_iff_exists] at hi
    obtain ⟨d, hd⟩ := hi
    rw [hlsq]
    exact lsq_accepts hd hw
  · rw [hp] at hv ha
    rw [hfu]
    exact fu_accepts h hv ha hfl
  · rw [hp] at hv
    rw [hmemory, MemoryUnit.step]
    obtain ⟨hfree, htag⟩ := request_ok h hv
    have hv : cpu.core.lsqDecision.outputs.memoryRequest.valid = true := hv
    rw [if_neg (by simp [hfree]), if_pos (by rw [hv, htag]; rfl)]
  · rw [hp]
    exact lsq_applyAsserts h
  · rw [hp]
    exact fu_applyAsserts h
  · rw [hp]
    exact memory_applyAsserts h
  · unfold MemoryUnit.latchAsserts
    rw [hwrite, hbytes]
    by_cases hv : (MemoryUnit.step cpu.core.memory cpu.core.port
        cpu.core.lsqDecision.outputs.memoryRequest).storeWrite.valid = true
    · rw [scheduled_writes _ _ _ hv, Bool.or_true]
    · simp [hv]
  · rw [hp]
    exact rob_applyAsserts h

/-- The status is never an internal error. -/
theorem status_ne_internalError (cpu : Cpu) (input : Istream) (n : Nat) :
    (cpu.history input n).status ≠ .internalError := by
  intro hs
  have h := history_isRun cpu input
  obtain ⟨k, -, hrun, htr⟩ := h.stop (n := n) (by simp [hs]) (by simp [hs])
  rw [htr, h.step] at hs
  cases status_event (h.inv k) hrun with
  | running hs' => rw [hs'] at hs; cases hs
  | halted hs' => rw [hs'] at hs; cases hs
  | memory hs' => rw [hs'] at hs; cases hs
  | fetch hs' => rw [hs'] at hs; cases hs
  | invalid hs' => rw [hs'] at hs; cases hs

/-- After any load and any number of cycles, the status is no internal error, and the next
    cycle fires no assertion in the order its row of the tables gives. -/
theorem assertions_hold (cpu : Cpu) (input : Istream) (n : Nat) :
    ((cpu.load input).2.cycles n).status ≠ .internalError ∧
      CycleAsserts (((cpu.load input).2.cycles n).orders
        ((((cpu.load input).2.cycles n).cycleCount + 1).toNat % kOrderVariantCount)) ((cpu.load input).2.cycles n) :=
  ⟨status_ne_internalError cpu input n, cycle_asserts _ ((history_isRun cpu input).inv n)⟩

end Cpu

end TomasuloCpu
