/-
  TomasuloCpu.Tomasulo.Edge — what one running cycle does, wire by wire.

  `flush`, `completion`, `storeDone`, `committing` and `issuing` name the events of the
  cycle that starts in a state. `cdb_cases` says what the bus carries, `issuing_some`
  what an issue is, and `tick_rob` .. `tick_port` give each register after the edge, by
  the specs of the module that owns it.
-/
import TomasuloCpu.Isa.DecoderProofs
import TomasuloCpu.Tomasulo.Cpu
import TomasuloCpu.Tomasulo.LoadStoreQueueProofs
import TomasuloCpu.Tomasulo.ReorderBufferProofs
import TomasuloCpu.Tomasulo.ReservationStationProofs

namespace TomasuloCpu

namespace Core

/-! ## The events of a cycle -/

def outs (s : Core) : Plans := s.plans s.observe

/-- The committing head redirects the fetch. -/
def flush (s : Core) : Bool := s.previewRob.flush

/-- What the CDB carries. -/
def completion (s : Core) : FuResult := s.observe.cdb.outputs.completion

def broadcast (s : Core) : CdbMsg := s.observe.cdb.outputs.broadcast

def integerGranted (s : Core) : Bool := s.observe.cdb.outputs.integerGranted

def loadGranted (s : Core) : Bool := s.observe.cdb.outputs.loadGranted

/-- The LSQ's decision. -/
def lsqDecision (s : Core) : LsqDecision := s.outs.lsq

def storeDone (s : Core) : StoreCommitCompletion := s.lsqDecision.outputs.storeCompletion

def commit (s : Core) : RobCommit := s.outs.rob.outputs.commit

/-- The ROB head commits. -/
def committing (s : Core) : Bool := s.commit.valid

/-- The packet the issue unit looks at, if it looks at one. -/
def fetched (s : Core) : Option DecodePacket :=
  if !s.flush && !s.fetchStopped && !ReorderBuffer.full s.rob then s.fetchAndDecoded else none

/-- The packet that issues. -/
def issuing (s : Core) : Option DecodePacket :=
  s.fetched.filter fun packet => (IssueUnit.plan (s.issueInputs s.observe packet)).issued

variable {s : Core}

/-! ## Flush and commit -/

theorem previewRob_eq (s : Core) :
    s.previewRob.flush = (ReorderBuffer.plan s.rob).outputs.flush ∧
      s.previewRob.storeRequest = (ReorderBuffer.plan s.rob).outputs.storeRequest := by
  unfold previewRob ReorderBuffer.plan
  cases ReorderBuffer.front s.rob with
  | none => exact ⟨rfl, rfl⟩
  | some head =>
    refine ⟨?_, rfl⟩
    simp only [ReorderBuffer.planCommit, ReorderBuffer.isControlInstruction]
    by_cases hr : head.ready = true
    · simp [hr, Bool.or_comm]
    · simp [hr]

theorem outs_rob (s : Core) : s.outs.rob = ReorderBuffer.plan s.rob := rfl

theorem outs_flush (s : Core) : s.outs.rob.outputs.flush = s.flush := (previewRob_eq s).1.symm

theorem observe_flush (s : Core) : s.observe.preview.flush = s.flush := rfl

/-- A flush is a commit of a control instruction whose prediction was wrong. -/
theorem flush_iff (hw : s.rob.Wf) :
    s.flush = true ↔ ∃ h, s.rob.live.head? = some h ∧ h.ready = true ∧ (h.isBranch || h.isJump) = true ∧
      h.predictedNextPc ≠ h.actualNextPc := by
  unfold flush previewRob
  rw [ReorderBuffer.front_eq hw]
  cases s.rob.live.head? with
  | none => simp
  | some h =>
    simp only [Bool.and_eq_true, bne_iff_ne, Option.some.injEq, exists_eq_left']
    tauto

theorem committing_iff (hw : s.rob.Wf) : s.committing = true ↔ ∃ h, s.rob.live.head? = some h ∧ h.ready = true :=
  ReorderBuffer.plan_commit_valid hw

theorem commit_entry (hw : s.rob.Wf) {h : RobEntry} (hh : s.rob.live.head? = some h) (hr : h.ready = true) :
    s.commit.entry = h ∧ s.commit.valid = true ∧ s.commit.halted = (h.op == .halt) := by
  simp only [commit, outs_rob, ReorderBuffer.plan, ReorderBuffer.front_eq hw, hh, ReorderBuffer.planCommit, hr, if_true,
    and_self]

theorem committing_of_flush (h : s.flush = true) : s.committing = true :=
  ReorderBuffer.plan_flush_commit s.rob (by rw [← outs_rob, outs_flush, h])

/-- In a flush the queue decides nothing. -/
theorem lsqDecision_flush (h : s.flush = true) : s.lsqDecision = {} := LoadStoreQueue.plan_flush s.lsq h

theorem noFlush_of_mark (hm : s.lsqDecision.markRequestSent = true) : s.flush = false := by
  by_contra hc
  rw [lsqDecision_flush (by simpa using hc)] at hm
  cases hm

/-! ## The bus -/

/-- A result the CDB can take. -/
def offered (r : FuResult) : Bool := CommonDataBus.validCandidate r

theorem cdb_flush (h : s.flush = true) :
    s.completion = {} ∧ s.broadcast = {} ∧ s.integerGranted = false ∧ s.loadGranted = false := by
  have hi : s.cdbInputs = {} := by
    unfold cdbInputs
    rw [if_pos (show s.previewRob.flush = true from h)]
  simp only [completion, broadcast, integerGranted, loadGranted, observe, hi]
  exact ⟨rfl, rfl, rfl, rfl⟩

/-- Without a flush the bus is idle because nothing is offered, or carries the unit's
    result, or the loaded one; the preference flips to the other side. -/
theorem cdb_cases (h : s.flush = false) :
    (s.completion = {} ∧ s.broadcast = {} ∧ s.integerGranted = false ∧ s.loadGranted = false ∧
        offered s.fu = false ∧ offered s.lsq.loadResult = false) ∨
      (s.completion = s.fu ∧ s.broadcast = ⟨s.fu.tag, s.fu.result, true⟩ ∧ s.integerGranted = true ∧
        s.loadGranted = false ∧ offered s.fu = true ∧ s.observe.cdb.nextPreferLoad = true ∧
        (s.preferLoad = true → offered s.lsq.loadResult = false)) ∨
      (s.completion = s.lsq.loadResult ∧ s.broadcast = ⟨s.lsq.loadResult.tag, s.lsq.loadResult.result, true⟩ ∧
        s.integerGranted = false ∧ s.loadGranted = true ∧ offered s.lsq.loadResult = true ∧
        s.observe.cdb.nextPreferLoad = false ∧ (s.preferLoad = false → offered s.fu = false)) := by
  have hi : s.cdbInputs = { integerResult := s.fu, loadResult := s.lsq.loadResult } := by
    unfold cdbInputs
    rw [if_neg (show ¬ s.previewRob.flush = true by rw [show s.previewRob.flush = false from h]; simp)]
  simp only [completion, broadcast, integerGranted, loadGranted, observe, hi, offered, CommonDataBus.plan]
  generalize CommonDataBus.validCandidate s.fu = a
  generalize CommonDataBus.validCandidate s.lsq.loadResult = b
  cases a <;> cases b <;> cases s.preferLoad <;>
    simp [CommonDataBus.selectInteger, CommonDataBus.selectLoad]

/-! ## Issue -/

theorem planIssue_eq (s : Core) :
    (s.planIssue s.observe).2 =
      match s.fetched with
      | none => {}
      | some packet => IssueUnit.plan (s.issueInputs s.observe packet) := by
  unfold planIssue fetched
  rw [observe_flush]
  split
  · cases s.fetchAndDecoded with
    | none => rfl
    | some packet => rfl
  · rfl

theorem outs_issue_none (h : s.issuing = none) : s.outs.issue.issued = false := by
  show (s.planIssue s.observe).2.issued = false
  rw [planIssue_eq]
  cases hf : s.fetched with
  | none => rfl
  | some packet => simpa [issuing, hf, Option.filter] using h

theorem plan_not_issued {inputs : IssueInputs} (h : (IssueUnit.plan inputs).issued = false) :
    (IssueUnit.plan inputs).writeRob = false ∧ (IssueUnit.plan inputs).writeRs = false ∧
      (IssueUnit.plan inputs).writeLsq = false ∧ (IssueUnit.plan inputs).rename = {} := by
  unfold IssueUnit.plan at h ⊢
  simp only [] at h ⊢
  repeat' split at h
  all_goals simp_all [IssueOutputs.issued]

theorem outs_issue_quiet (h : s.issuing = none) :
    s.outs.issue.writeRob = false ∧ s.outs.issue.writeRs = false ∧ s.outs.issue.writeLsq = false ∧
      s.outs.issue.rename = {} := by
  have hi := outs_issue_none h
  have heq : s.outs.issue = (s.planIssue s.observe).2 := rfl
  rw [heq, planIssue_eq] at hi ⊢
  cases hf : s.fetched with
  | none => exact ⟨rfl, rfl, rfl, rfl⟩
  | some packet => rw [hf] at hi; exact plan_not_issued hi

/-- The tag an issue in this cycle gets. -/
def newTag (s : Core) : RobTag := ReorderBuffer.nextTag s.rob

/-- A source register as the issuing instruction gets it. -/
def operand (s : Core) (reg : RegisterIndex) : Operand :=
  IssueUnit.resolveRegister reg (s.sourceState reg) s.broadcast

def issuedRob (s : Core) (d : DecodePacket) : RobEntry := IssueUnit.makeRobEntry (s.issueInputs s.observe d)

def issuedRs (s : Core) (d : DecodePacket) : RsEntry :=
  IssueUnit.makeRsEntry (s.issueInputs s.observe d) (s.operand d.decoded.rs1) (s.operand d.decoded.rs2)

def issuedLsq (s : Core) (d : DecodePacket) : LsqEntry :=
  IssueUnit.makeLsqEntry (s.issueInputs s.observe d) (s.operand d.decoded.rs1) (s.operand d.decoded.rs2)

/-- What holds in a cycle that issues `d`. -/
structure Issues (s : Core) (d : DecodePacket) : Prop where
  noFlush : s.flush = false
  fetching : s.fetchStopped = false
  room : ReorderBuffer.full s.rob = false
  pc : d.pc = s.pc
  word : ∃ w, s.memory.readWord s.pc = some w ∧ d.decoded = Decoder.decode w
  predicted : d.predictedPc = (s.predictedNextPc d.decoded s.pc).1
  op_ne : d.decoded.op ≠ .invalid
  lsqRoom : d.decoded.op.isMemory = true → LoadStoreQueue.full s.lsq = false
  rsRoom : d.decoded.op.isAlu = true → ReservationStation.available s.rs = true
  issue : s.outs.issue =
    { status := .issued, robEntry := s.issuedRob d, writeRob := true
      writeRs := d.decoded.op.isAlu
      rsEntry := if d.decoded.op.isAlu then s.issuedRs d else {}
      writeLsq := d.decoded.op.isMemory
      lsqEntry := if d.decoded.op.isMemory then s.issuedLsq d else {}
      rename :=
        if (s.issuedRob d).writesRd then { rd := d.decoded.rd, tag := s.newTag, valid := true } else {} }

theorem Issues.decoded {d : DecodePacket} (h : Issues s d) : WellDecoded d.decoded := by
  obtain ⟨w, -, hd⟩ := h.word
  rw [hd]
  exact Decoder.decode_spec w

/-- A fetched packet is the decoded word at the pc, with its prediction. -/
theorem fetchAndDecoded_some {d : DecodePacket} (h : s.fetchAndDecoded = some d) :
    d.valid = true ∧ d.pc = s.pc ∧ (∃ w, s.memory.readWord s.pc = some w ∧ d.decoded = Decoder.decode w) ∧
      d.predictedPc = (s.predictedNextPc d.decoded s.pc).1 := by
  unfold fetchAndDecoded MemoryUnit.fetch at h
  cases hw : s.memory.readWord s.pc with
  | none => simp [hw] at h
  | some w =>
    simp only [hw, Bool.not_true, Bool.or_self, Bool.false_eq_true, if_false, Option.some.injEq] at h
    subst h
    exact ⟨rfl, rfl, ⟨w, rfl, rfl⟩, rfl⟩

theorem fetchAndDecoded_none (h : s.fetchAndDecoded = none) : s.memory.readWord s.pc = none := by
  unfold fetchAndDecoded MemoryUnit.fetch at h
  cases hw : s.memory.readWord s.pc with
  | none => rfl
  | some w => simp [hw] at h

theorem issuing_some {d : DecodePacket} (h : s.issuing = some d) : Issues s d := by
  unfold issuing at h
  obtain ⟨hf, hi⟩ := Option.filter_eq_some_iff.mp h
  have hplan : s.outs.issue = IssueUnit.plan (s.issueInputs s.observe d) := by
    show (s.planIssue s.observe).2 = _
    rw [planIssue_eq, hf]
  unfold fetched at hf
  split at hf
  · rename_i hguard
    simp only [Bool.and_eq_true, Bool.not_eq_true'] at hguard
    obtain ⟨⟨hfl, hst⟩, hfull⟩ := hguard
    obtain ⟨hv, hpc, hword, hpred⟩ := fetchAndDecoded_some hf
    have hdec : WellDecoded d.decoded := by
      obtain ⟨w, -, hd⟩ := hword
      rw [hd]; exact Decoder.decode_spec w
    have hmem : IssueUnit.isMemoryInstruction d.decoded = d.decoded.op.isMemory := by
      simp [IssueUnit.isMemoryInstruction, hdec.load, hdec.store, Op.isMemory]
    have htag : (ReorderBuffer.nextTag s.rob).valid = true := by simp [ReorderBuffer.nextTag, hfull]
    unfold IssueUnit.plan at hi hplan
    simp only [issueInputs, hv, htag, hfull, hmem, Bool.true_eq_false, if_false, Bool.not_false, Bool.not_true,
      Bool.false_or] at hi hplan
    by_cases hop : d.decoded.op = .invalid
    · rw [if_pos hop] at hi; cases hi
    · rw [if_neg hop] at hi hplan
      have halu : (!d.decoded.op == .halt && !d.decoded.op.isMemory) = d.decoded.op.isAlu := by
        simp only [Op.isAlu]
        cases d.decoded.op.isMemory <;> simp [hop, bne]
      rw [halu] at hi hplan
      split at hi
      · cases hi
      · rename_i hroom
        rw [if_neg hroom] at hplan
        simp only [Bool.or_eq_true, Bool.and_eq_true, not_or, not_and, Bool.not_not,
          Bool.not_eq_true'] at hroom
        refine ⟨hfl, hst, hfull, hpc, hword, hpred, hop, fun hm => ?_, fun ha => ?_, hplan⟩
        · simpa using hroom.1 hm
        · simpa using hroom.2 ha
  · cases hf

/-! ## The edge, register by register -/

/-- The next machine, with its wires named. -/
theorem tick_eq (hrun : s.status = .running) :
    s.tick =
      { memory :=
          if (MemoryUnit.step s.memory s.port s.lsqDecision.outputs.memoryRequest).storeWrite.valid then
            (MemoryUnit.applyStoreWrite s.memory
              (MemoryUnit.step s.memory s.port s.lsqDecision.outputs.memoryRequest).storeWrite).2
          else s.memory
        port := (MemoryUnit.step s.memory s.port s.lsqDecision.outputs.memoryRequest).port
        registers := ((RegisterFile.apply ⟨s.registers, {}⟩ (registerWrite s.outs)).latch).registers
        rat :=
          Function.update (RenameTable.step s.rat (ratWrite s.outs) (ratCommit s.outs) s.outs.rob.outputs.flush) 0 {}
        rob := (ReorderBuffer.step s.rob (robInputs s.observe s.outs) (ReorderBuffer.plan s.rob)).2
        rs := (ReservationStation.step s.rs (s.rsInputs s.observe s.outs)
          (ReservationStation.plan s.rs s.flush)).2
        lsq := (LoadStoreQueue.step s.lsq (lsqInputs s.observe s.outs) s.lsqDecision).2
        fu := (FunctionalUnit.step s.fu (ReservationStation.plan s.rs s.flush).outputs.dispatch s.flush
          s.integerGranted).2
        preferLoad := s.observe.cdb.nextPreferLoad
        predictor := BranchPredictor.step s.predictor (predictorUpdate s.outs)
        pc := s.nextPc s.outs
        fetchStopped := s.nextFetchStopped s.outs
        status := s.nextStatus s.outs
        cycleCount := s.cycleCount + 1
        committedCount := s.nextCommittedCount s.outs
        exitCode := s.nextExitCode s.outs } := by
  rw [tick, if_neg (not_not.mpr hrun)]
  rfl

theorem tick_of_stopped (h : s.status ≠ .running) : s.tick = s := by rw [tick, if_pos h]

/-- Both completions of the cycle, at one ROB entry. -/
def finish (s : Core) (e : RobEntry) : RobEntry := ReorderBuffer.finish s.completion s.storeDone e

/-- The ROB without what commits or is flushed. -/
def survivors (s : Core) : List RobEntry :=
  if s.flush then []
  else if s.committing then (s.rob.live.map s.finish).tail else s.rob.live.map s.finish

def newRob (s : Core) : List RobEntry := (s.issuing.map s.issuedRob).toList

def newRs (s : Core) : List RsEntry :=
  ((s.issuing.filter fun d => d.decoded.op.isAlu).map s.issuedRs).toList

def newLsq (s : Core) : List LsqEntry :=
  ((s.issuing.filter fun d => d.decoded.op.isMemory).map s.issuedLsq).toList

/-- The entry the functional unit takes from the reservation station. -/
def departing (s : Core) : Option RsEntry :=
  if s.flush then none
  else ReservationStation.departing s.rs (FunctionalUnit.canAccept s.fu s.integerGranted)

theorem issueEffective_iff : issueEffective s.outs = s.issuing.isSome := by
  cases h : s.issuing with
  | none => simp [issueEffective, outs_issue_none h]
  | some d =>
    have hi := issuing_some h
    simp [issueEffective, hi.issue, IssueOutputs.issued, outs_flush, hi.noFlush]

theorem accepts_iff : ReorderBuffer.accepts s.rob (robInputs s.observe s.outs) (ReorderBuffer.plan s.rob) =
    s.issuing.isSome := by
  cases h : s.issuing with
  | none => simp [ReorderBuffer.accepts, robInputs, (outs_issue_quiet h).1]
  | some d =>
    have hi := issuing_some h
    have hfl : (ReorderBuffer.plan s.rob).outputs.flush = false := by rw [← outs_rob, outs_flush, hi.noFlush]
    simp only [ReorderBuffer.accepts, robInputs, hi.issue, hfl, observe_flush, hi.noFlush, hi.room, Option.isSome_some,
      Bool.not_false, Bool.and_self, Bool.true_and]
    simp [issuedRob, IssueUnit.makeRobEntry, issueInputs]

theorem tick_rob (hrun : s.status = .running) (hw : s.rob.Wf) :
    s.tick.rob.Wf ∧ s.tick.rob.live = s.survivors ++ s.newRob := by
  obtain ⟨hwf, hlive⟩ := ReorderBuffer.step_spec hw (robInputs s.observe s.outs)
  rw [tick_eq hrun]
  refine ⟨hwf, hlive.trans ?_⟩
  have hfl : (ReorderBuffer.plan s.rob).outputs.flush = s.flush := by rw [← outs_rob, outs_flush]
  rw [accepts_iff, hfl]
  congr 1
  cases h : s.issuing with
  | none => simp [newRob, h]
  | some d =>
    have hi := issuing_some h
    simp [newRob, h, ReorderBuffer.issuedEntry, robInputs, hi.issue, issuedRob, IssueUnit.makeRobEntry, issueInputs]

/-- An issue moves the generation of the slot it takes up by one. -/
theorem tick_generations (hrun : s.status = .running) (hw : s.rob.Wf) :
    s.tick.rob.generations =
      if s.issuing.isSome then Function.update s.rob.generations s.rob.tail (s.rob.generations s.rob.tail + 1)
      else s.rob.generations := by
  rw [tick_eq hrun]
  have h := ReorderBuffer.step_generations hw (robInputs s.observe s.outs)
  rw [accepts_iff] at h
  exact h

theorem tick_rs_flush (hrun : s.status = .running) (h : s.flush = true) : s.tick.rs.waiting = [] := by
  rw [tick_eq hrun]
  exact ReservationStation.step_flush _ _ _ h

theorem rsIssue (s : Core) :
    (if (s.rsInputs s.observe s.outs).issueValid then [{ (s.rsInputs s.observe s.outs).issueEntry with busy := true }]
      else []) = s.newRs ∧
      ((s.rsInputs s.observe s.outs).issueValid = true → ReservationStation.available s.rs = true) := by
  simp only [rsInputs]
  cases h : s.issuing with
  | none => simp [(outs_issue_quiet h).2.1, newRs, h]
  | some d =>
    have hi := issuing_some h
    have he : issueEffective s.outs = true := by rw [issueEffective_iff, h]; rfl
    simp only [hi.issue, he, Bool.and_true]
    refine ⟨?_, hi.rsRoom⟩
    by_cases ha : d.decoded.op.isAlu = true
    · simp [newRs, h, ha, Option.filter, issuedRs, IssueUnit.makeRsEntry]
    · simp [newRs, h, ha, Option.filter]

theorem tick_rs (hrun : s.status = .running) (hfl : s.flush = false) :
    ∃ rest, s.rs.waiting.Perm (s.departing.toList ++ rest) ∧
      s.tick.rs.waiting.Perm (s.newRs ++ rest.map (ReservationStation.wake s.broadcast)) := by
  obtain ⟨hnew, hroom⟩ := rsIssue s
  obtain ⟨rest, hold, hnext⟩ := ReservationStation.step_spec s.rs (s.rsInputs s.observe s.outs) hfl hroom
  rw [hnew] at hnext
  refine ⟨rest, ?_, ?_⟩
  · rw [departing, hfl]
    exact hold
  · rw [tick_eq hrun, hfl]
    exact hnext

theorem tick_fu_flush (hrun : s.status = .running) (h : s.flush = true) : s.tick.fu = {} := by
  rw [tick_eq hrun, h]; rfl

/-- The unit's result without a flush and without a new instruction. -/
def keptFu (s : Core) : FuResult := if s.integerGranted && s.fu.valid then {} else s.fu

theorem tick_fu_idle (hrun : s.status = .running) (hfl : s.flush = false) (hd : s.departing = none) :
    s.tick.fu = s.keptFu := by
  rw [tick_eq hrun, hfl]
  show (FunctionalUnit.step s.fu (ReservationStation.plan s.rs false).outputs.dispatch false s.integerGranted).2 = _
  rw [departing, hfl] at hd
  simp only [Bool.false_eq_true, if_false, ReservationStation.departing] at hd
  rw [FunctionalUnit.step, if_neg (by simp)]
  simp only [keptFu]
  by_cases hs : (ReservationStation.plan s.rs false).selectedIndex = ReservationStation.kInvalidIndex
  · rw [if_pos (ReservationStation.plan_idle hs)]
  · have hc : FunctionalUnit.canAccept s.fu s.integerGranted = false := by
      simpa [hs] using hd
    simp only [hc, if_true, ite_self]

/-- What the unit computes from a station entry. -/
def computed (e : RsEntry) : FuResult := FunctionalUnit.executeInstruction (ReservationStation.makeExecute e)

theorem tick_fu_departing (hrun : s.status = .running) {e : RsEntry} (hd : s.departing = some e)
    (hv : (computed e).valid = true) : s.tick.fu = computed e := by
  have hfl : s.flush = false := by
    by_contra h
    rw [departing, if_pos (by simpa using h)] at hd
    cases hd
  rw [tick_eq hrun, hfl]
  show (FunctionalUnit.step s.fu (ReservationStation.plan s.rs false).outputs.dispatch false s.integerGranted).2 = _
  rw [departing, hfl] at hd
  simp only [Bool.false_eq_true, if_false, ReservationStation.departing] at hd
  split at hd
  · rename_i h
    simp only [Bool.and_eq_true, decide_eq_true_eq] at h
    obtain ⟨-, -, hdisp⟩ := ReservationStation.plan_selected h.1
    rw [Option.some.injEq] at hd
    rw [hdisp, hd, FunctionalUnit.step, if_neg (by simp), if_neg (by simp [ReservationStation.makeExecute]),
      if_neg (by simp [h.2])]
    show (if (computed e).valid = false then _ else (true, computed e)).2 = _
    rw [if_neg (by simp [hv])]
  · cases hd

theorem departing_mem {e : RsEntry} (h : s.departing = some e) :
    e ∈ s.rs.waiting ∧ e.lhs.ready = true ∧ e.rhs.ready = true ∧
      FunctionalUnit.canAccept s.fu s.integerGranted = true ∧ s.flush = false := by
  unfold departing at h
  split at h
  · cases h
  · rename_i hfl
    unfold ReservationStation.departing at h
    split at h
    · rename_i hsel
      simp only [Bool.and_eq_true, decide_eq_true_eq] at hsel
      obtain ⟨hlt, hr, -⟩ := ReservationStation.plan_selected hsel.1
      rw [Option.some.injEq] at h
      rw [h] at hr
      simp only [ReservationStation.readyEntry, Bool.and_eq_true] at hr
      refine ⟨ReservationStation.mem_waiting.mpr ⟨_, hlt, h, hr.1.1⟩, hr.1.2, hr.2, hsel.2, by simpa using hfl⟩
    · cases h

theorem tick_lsq_flush (hrun : s.status = .running) (h : s.flush = true) :
    s.tick.lsq = LoadStoreQueue.resetState := by
  rw [tick_eq hrun]
  exact LoadStoreQueue.step_flush s.lsq h _

theorem tick_lsq (hrun : s.status = .running) (hw : s.lsq.Wf) (hfl : s.flush = false)
    (hd : LoadStoreQueue.Serves s.lsq s.lsqDecision) :
    s.tick.lsq.Wf ∧
      s.tick.lsq.queue =
        (LoadStoreQueue.serve s.lsqDecision (s.lsq.queue.map (LoadStoreQueue.wake s.broadcast)) ++ s.newLsq).map
          LoadStoreQueue.updateAddress ∧
      s.tick.lsq.loadResult =
        if s.lsqDecision.installLoadResult then s.lsqDecision.completedLoadResult
        else if s.lsqDecision.clearLoadResult then {} else s.lsq.loadResult := by
  obtain ⟨hwf, hq, hr⟩ := LoadStoreQueue.step_spec hw (lsqInputs s.observe s.outs) hfl hd
  rw [tick_eq hrun]
  refine ⟨hwf, hq.trans ?_, hr⟩
  congr 2
  simp only [LoadStoreQueue.accepts, lsqInputs, observe_flush, hfl]
  cases h : s.issuing with
  | none => simp [(outs_issue_quiet h).2.2.1, newLsq, h]
  | some d =>
    have hi := issuing_some h
    by_cases hm : d.decoded.op.isMemory = true
    · simp [hi.issue, hm, hi.lsqRoom hm, newLsq, h, Option.filter, issuedLsq, IssueUnit.makeLsqEntry,
        LoadStoreQueue.queued]
    · simp [hi.issue, hm, newLsq, h, Option.filter]

end Core

end TomasuloCpu
