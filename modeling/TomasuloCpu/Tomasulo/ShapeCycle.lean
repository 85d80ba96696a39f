/-
  TomasuloCpu.Tomasulo.ShapeCycle — a cycle takes same shapes to same shapes.

  `SameCycle` says what two cycles have to have in common besides the shape they start in: the
  word to fetch, where control goes at a commit, and that no access fails. Then they end in
  the same shape (`tick_shape`) and do the same things on the way: they issue, dispatch, send,
  broadcast, commit and flush together.
-/
import TomasuloCpu.Tomasulo.MemoryTrace
import TomasuloCpu.Tomasulo.Retirement
import TomasuloCpu.Tomasulo.Shape

namespace TomasuloCpu

/-- Where the program goes on behind the entry, and whether it is a taken branch. -/
def RobEntry.outcome (e : RobEntry) : Address × Bool := (e.successor, e.isBranch && e.branchTaken)

namespace Core

/-- Two cycles that start in the same shape, have the same word to fetch, commit to the same
    control flow and see no access fail. -/
structure SameCycle (s s' : Core) : Prop where
  shape : s.shape = s'.shape
  word : s.fetchStopped = false → s.memory.readWord s.pc = s'.memory.readWord s.pc
  outcome : ∀ x x', ReorderBuffer.front s.rob = some x → ReorderBuffer.front s'.rob = some x' → x.ready = true →
    x.outcome = x'.outcome
  succeeds : s.lsqDecision.outputs.memoryError = false
  succeeds' : s'.lsqDecision.outputs.memoryError = false

variable {s s' : Core}

namespace SameCycle

theorem rob (h : SameCycle s s') : s.rob.shape = s'.rob.shape := (congrArg Core.rob h.shape :)
theorem rs (h : SameCycle s s') : s.rs.shape = s'.rs.shape := (congrArg Core.rs h.shape :)
theorem lsq (h : SameCycle s s') : s.lsq.shape = s'.lsq.shape := (congrArg Core.lsq h.shape :)
theorem fu (h : SameCycle s s') : s.fu.shape = s'.fu.shape := (congrArg Core.fu h.shape :)
theorem port (h : SameCycle s s') : s.port.shape = s'.port.shape := (congrArg Core.port h.shape :)
theorem rat (h : SameCycle s s') : s.rat = s'.rat := (congrArg Core.rat h.shape :)
theorem pc (h : SameCycle s s') : s.pc = s'.pc := (congrArg Core.pc h.shape :)
theorem predictor (h : SameCycle s s') : s.predictor = s'.predictor := (congrArg Core.predictor h.shape :)
theorem fetchStopped (h : SameCycle s s') : s.fetchStopped = s'.fetchStopped := (congrArg Core.fetchStopped h.shape :)
theorem status (h : SameCycle s s') : s.status = s'.status := (congrArg Core.status h.shape :)

/-! ## The head -/

theorem front (h : SameCycle s s') :
    (ReorderBuffer.front s.rob = none ∧ ReorderBuffer.front s'.rob = none) ∨
      ∃ x x', ReorderBuffer.front s.rob = some x ∧ ReorderBuffer.front s'.rob = some x' ∧ x.shape = x'.shape ∧
        (x.ready = true → x.outcome = x'.outcome) := by
  have heq : (ReorderBuffer.front s.rob).map RobEntry.shape = (ReorderBuffer.front s'.rob).map RobEntry.shape := by
    rw [← ReorderBuffer.front_shape, ← ReorderBuffer.front_shape, h.rob]
  cases hx : ReorderBuffer.front s.rob with
  | none =>
    rw [hx, eq_comm, Option.map_none, Option.map_eq_none_iff] at heq
    exact Or.inl ⟨rfl, heq⟩
  | some x =>
    rw [hx, eq_comm, Option.map_some, Option.map_eq_some_iff] at heq
    obtain ⟨x', hx', hshape'⟩ := heq
    exact Or.inr ⟨x, x', rfl, hx', hshape'.symm, h.outcome x x' hx hx'⟩

theorem preview (h : SameCycle s s') : s.previewRob = s'.previewRob := by
  rcases h.front with ⟨hx, hx'⟩ | ⟨x, x', hx, hx', hshape, hout⟩
  · rw [previewRob, previewRob, hx, hx']
  · have hready : x.ready = x'.ready := (congrArg RobEntry.ready hshape :)
    have hstore : x.isStore = x'.isStore := (congrArg RobEntry.isStore hshape :)
    have htag : x.tag = x'.tag := (congrArg RobEntry.tag hshape :)
    have hbranch : x.isBranch = x'.isBranch := (congrArg RobEntry.isBranch hshape :)
    have hjump : x.isJump = x'.isJump := (congrArg RobEntry.isJump hshape :)
    have hpred : x.predictedNextPc = x'.predictedNextPc := (congrArg RobEntry.predictedNextPc hshape :)
    rw [previewRob, previewRob, hx, hx']
    simp only [← hready, ← hstore, ← htag, ← hbranch, ← hjump, ← hpred]
    by_cases hc : ((x.isBranch || x.isJump) && x.ready) = true
    · rw [Bool.and_eq_true] at hc
      have hnext := congrArg Prod.fst (hout hc.2)
      simp only [RobEntry.outcome, RobEntry.successor, ← hbranch, ← hjump, hc.1, if_true] at hnext
      rw [hnext]
    · rw [Bool.not_eq_true] at hc
      simp only [hc, Bool.false_and, Bool.false_eq_true, if_false]

theorem flush (h : SameCycle s s') : s.flush = s'.flush := congrArg RobPreview.flush h.preview

/-- The commits are alike. -/
theorem commit (h : SameCycle s s') :
    s.commit.valid = s'.commit.valid ∧ s.commit.halted = s'.commit.halted ∧
      s.commit.entry.shape = s'.commit.entry.shape ∧ s.commit.entry.outcome = s'.commit.entry.outcome := by
  show (ReorderBuffer.planCommit (ReorderBuffer.front s.rob)).valid =
      (ReorderBuffer.planCommit (ReorderBuffer.front s'.rob)).valid ∧
    (ReorderBuffer.planCommit (ReorderBuffer.front s.rob)).halted =
      (ReorderBuffer.planCommit (ReorderBuffer.front s'.rob)).halted ∧
    (ReorderBuffer.planCommit (ReorderBuffer.front s.rob)).entry.shape =
      (ReorderBuffer.planCommit (ReorderBuffer.front s'.rob)).entry.shape ∧
    (ReorderBuffer.planCommit (ReorderBuffer.front s.rob)).entry.outcome =
      (ReorderBuffer.planCommit (ReorderBuffer.front s'.rob)).entry.outcome
  rcases h.front with ⟨hx, hx'⟩ | ⟨x, x', hx, hx', hshape, hout⟩
  · rw [hx, hx']
    exact ⟨rfl, rfl, rfl, rfl⟩
  · have hready : x.ready = x'.ready := (congrArg RobEntry.ready hshape :)
    have hop : x.op = x'.op := (congrArg RobEntry.op hshape :)
    rw [hx, hx', ReorderBuffer.planCommit, ReorderBuffer.planCommit, ← hready, ← hop]
    by_cases hr : x.ready = true
    · rw [if_pos hr, if_pos hr]
      exact ⟨rfl, rfl, hshape, hout hr⟩
    · rw [if_neg hr, if_neg hr]
      exact ⟨rfl, rfl, rfl, rfl⟩

theorem committing (h : SameCycle s s') : s.committing = s'.committing := h.commit.1

theorem symm (h : SameCycle s s') : SameCycle s' s where
  shape := h.shape.symm
  word hgo := by
    rw [← h.pc]
    exact (h.word (h.fetchStopped.trans hgo)).symm
  outcome x' x hx' hx hr := by
    rcases h.front with ⟨hnone, -⟩ | ⟨y, y', hy, hy', hshape, hout⟩
    · rw [hnone] at hx
      cases hx
    · obtain rfl := Option.some.inj (hx.symm.trans hy)
      obtain rfl := Option.some.inj (hx'.symm.trans hy')
      have hready : x.ready = x'.ready := (congrArg RobEntry.ready hshape :)
      exact (hout (hready.trans hr)).symm
  succeeds := h.succeeds'
  succeeds' := h.succeeds

theorem redirectPc (h : SameCycle s s') : s.outs.rob.outputs.redirectPc = s'.outs.rob.outputs.redirectPc := by
  have hplan (r : RobState) : (ReorderBuffer.plan r).outputs.redirectPc =
      if (ReorderBuffer.plan r).outputs.flush then
        (ReorderBuffer.planCommit (ReorderBuffer.front r)).entry.outcome.1 else 0 := by
    unfold ReorderBuffer.plan ReorderBuffer.planCommit
    cases ReorderBuffer.front r with
    | none => rfl
    | some x =>
      by_cases hr : x.ready = true
      · simp only [hr, if_true, ReorderBuffer.isControlInstruction, RobEntry.outcome, RobEntry.successor]
        by_cases hc : (x.isBranch || x.isJump) = true
        · rw [if_pos hc]
        · rw [Bool.or_comm, Bool.not_eq_true] at hc
          rw [hc]
          rfl
      · simp only [hr]
        rfl
  have hflush : (ReorderBuffer.plan s.rob).outputs.flush = (ReorderBuffer.plan s'.rob).outputs.flush := by
    rw [← outs_rob, ← outs_rob, outs_flush, outs_flush, h.flush]
  rw [outs_rob, outs_rob, hplan, hplan, hflush,
    show (ReorderBuffer.planCommit (ReorderBuffer.front s.rob)).entry.outcome =
      (ReorderBuffer.planCommit (ReorderBuffer.front s'.rob)).entry.outcome from h.commit.2.2.2]

/-! ## The wires -/

theorem bus (h : SameCycle s s') : s.observe.cdb.shape = s'.observe.cdb.shape := by
  have hinputs : s.cdbInputs.shape = s'.cdbInputs.shape := by
    unfold cdbInputs
    rw [show s.previewRob.flush = s'.previewRob.flush from h.flush]
    split
    · rfl
    · show CdbInputs.mk s.fu.shape s.lsq.shape.loadResult = CdbInputs.mk s'.fu.shape s'.lsq.shape.loadResult
      rw [h.fu, h.lsq]
  have hprefer : s.preferLoad = s'.preferLoad := (congrArg Core.preferLoad h.shape :)
  show (CommonDataBus.plan s.preferLoad s.cdbInputs).shape = (CommonDataBus.plan s'.preferLoad s'.cdbInputs).shape
  rw [CommonDataBus.plan_shape, CommonDataBus.plan_shape, hinputs, hprefer]

theorem broadcast (h : SameCycle s s') : s.broadcast.shape = s'.broadcast.shape :=
  (congrArg (·.outputs.broadcast) h.bus :)

theorem completion (h : SameCycle s s') : s.completion.shape = s'.completion.shape :=
  (congrArg (·.outputs.completion) h.bus :)

theorem integerGranted (h : SameCycle s s') : s.integerGranted = s'.integerGranted :=
  (congrArg (·.outputs.integerGranted) h.bus :)

theorem queue (h : SameCycle s s') : s.lsqDecision.shape = s'.lsqDecision.shape := by
  have hobserve : s.observe.lsq.shape = s'.observe.lsq.shape := by
    have havailable : MemoryUnit.dataPortAvailable s.port = MemoryUnit.dataPortAvailable s'.port :=
      (congrArg (fun p : DataPort => !p.transaction.valid) h.port :)
    have hresponse : s.port.response.shape = s'.port.response.shape := (congrArg DataPort.response h.port :)
    have hgranted : s.loadGranted = s'.loadGranted := (congrArg (·.outputs.loadGranted) h.bus :)
    show LsqObserveInputs.mk s.previewRob.storeRequest s.port.response.shape (MemoryUnit.dataPortAvailable s.port)
        s.loadGranted s.previewRob.flush =
      LsqObserveInputs.mk s'.previewRob.storeRequest s'.port.response.shape (MemoryUnit.dataPortAvailable s'.port)
        s'.loadGranted s'.previewRob.flush
    rw [h.preview, hresponse, havailable, hgranted]
  rw [show s.lsqDecision = LoadStoreQueue.plan s.lsq s.observe.lsq from rfl,
    show s'.lsqDecision = LoadStoreQueue.plan s'.lsq s'.observe.lsq from rfl,
    LoadStoreQueue.plan_shape _ _ h.succeeds, LoadStoreQueue.plan_shape _ _ h.succeeds', hobserve, h.lsq]

/-! ## Issue -/

theorem sourceState (h : SameCycle s s') (reg : RegisterIndex) :
    (s.sourceState reg).shape = (s'.sourceState reg).shape := by
  have heq (tag : RobTag) : (ReorderBuffer.lookup s.rob tag).map RobEntry.shape =
      (ReorderBuffer.lookup s'.rob tag).map RobEntry.shape := by
    rw [← ReorderBuffer.lookup_shape, ← ReorderBuffer.lookup_shape, h.rob]
  unfold Core.sourceState
  rw [← h.rat]
  by_cases h0 : reg = 0
  · rw [if_pos h0, if_pos h0]
  · rw [if_neg h0, if_neg h0]
    by_cases hv : (RenameTable.lookup s.rat reg).valid = false
    · simp only [hv, if_true]
      rfl
    · simp only [hv]
      have hentry := heq (RenameTable.lookup s.rat reg)
      cases hx : ReorderBuffer.lookup s.rob (RenameTable.lookup s.rat reg) with
      | none =>
        rw [hx, eq_comm, Option.map_none, Option.map_eq_none_iff] at hentry
        rw [hentry]
        rfl
      | some x =>
        rw [hx, eq_comm, Option.map_some, Option.map_eq_some_iff] at hentry
        obtain ⟨x', hx', hshape⟩ := hentry
        have hready : x'.ready = x.ready := (congrArg RobEntry.ready hshape :)
        rw [hx']
        simp only [hready]
        show SourceState.shape (if x.ready = true then _ else _) = SourceState.shape (if x.ready = true then _ else _)
        split <;> rfl

theorem packet (h : SameCycle s s') (hf : s.fetchStopped = false) : s.fetchAndDecoded = s'.fetchAndDecoded := by
  have hfetch : MemoryUnit.fetch s.memory s.pc = MemoryUnit.fetch s'.memory s.pc := by
    rw [MemoryUnit.fetch, MemoryUnit.fetch, h.word hf]
  unfold fetchAndDecoded predictedNextPc
  rw [hfetch, ← h.pc, ← h.predictor]

theorem issueInputs (h : SameCycle s s') (packet : DecodePacket) :
    (s.issueInputs s.observe packet).shape = (s'.issueInputs s'.observe packet).shape := by
  have hstation : ReservationStation.available s.rs = ReservationStation.available s'.rs :=
    (congrArg ReservationStation.available h.rs :)
  have hqueue : LoadStoreQueue.full s.lsq = LoadStoreQueue.full s'.lsq := (congrArg LoadStoreQueue.full h.lsq :)
  have hbuffer : ReorderBuffer.full s.rob = ReorderBuffer.full s'.rob := (congrArg ReorderBuffer.full h.rob :)
  have htag : ReorderBuffer.nextTag s.rob = ReorderBuffer.nextTag s'.rob := (congrArg ReorderBuffer.nextTag h.rob :)
  show IssueInputs.mk packet (ReorderBuffer.nextTag s.rob) (s.sourceState packet.decoded.rs1).shape
      (s.sourceState packet.decoded.rs2).shape s.broadcast.shape (!ReorderBuffer.full s.rob)
      (ReservationStation.available s.rs) (!LoadStoreQueue.full s.lsq) =
    IssueInputs.mk packet (ReorderBuffer.nextTag s'.rob) (s'.sourceState packet.decoded.rs1).shape
      (s'.sourceState packet.decoded.rs2).shape s'.broadcast.shape (!ReorderBuffer.full s'.rob)
      (ReservationStation.available s'.rs) (!LoadStoreQueue.full s'.lsq)
  rw [htag, h.sourceState, h.sourceState, h.broadcast, hbuffer, hstation, hqueue]

theorem issue (h : SameCycle s s') :
    s.outs.fetchError = s'.outs.fetchError ∧ s.outs.issue.shape = s'.outs.issue.shape := by
  have hbuffer : ReorderBuffer.full s.rob = ReorderBuffer.full s'.rob := (congrArg ReorderBuffer.full h.rob :)
  show (s.planIssue s.observe).1 = (s'.planIssue s'.observe).1 ∧
    (s.planIssue s.observe).2.shape = (s'.planIssue s'.observe).2.shape
  unfold planIssue
  rw [observe_flush, observe_flush, h.flush, h.fetchStopped, hbuffer]
  split
  · rename_i hguard
    simp only [Bool.and_eq_true, Bool.not_eq_true'] at hguard
    rw [h.packet (h.fetchStopped.trans hguard.1.2)]
    cases s'.fetchAndDecoded with
    | none => exact ⟨rfl, rfl⟩
    | some packet =>
      refine ⟨rfl, ?_⟩
      show (IssueUnit.plan _).shape = (IssueUnit.plan _).shape
      rw [IssueUnit.plan_shape, h.issueInputs, ← IssueUnit.plan_shape]
  · exact ⟨rfl, rfl⟩

theorem issueEffective (h : SameCycle s s') : issueEffective s.outs = issueEffective s'.outs := by
  have hstatus : s.outs.issue.status = s'.outs.issue.status := (congrArg IssueOutputs.status h.issue.2 :)
  show (s.outs.issue.status == .issued && !s.outs.rob.outputs.flush) =
    (s'.outs.issue.status == .issued && !s'.outs.rob.outputs.flush)
  rw [hstatus, outs_flush, outs_flush, h.flush]

/-! ## The registers behind the edge -/

theorem port_next (h : SameCycle s s') :
    (MemoryUnit.step s.memory s.port s.lsqDecision.outputs.memoryRequest).port.shape =
      (MemoryUnit.step s'.memory s'.port s'.lsqDecision.outputs.memoryRequest).port.shape := by
  have hrequest : s.lsqDecision.outputs.memoryRequest.shape = s'.lsqDecision.outputs.memoryRequest.shape :=
    (congrArg (·.outputs.memoryRequest) h.queue :)
  rw [MemoryUnit.step_shape s.memory .clear, MemoryUnit.step_shape s'.memory .clear, h.port, hrequest]

theorem rat_next (h : SameCycle s s') : ratWrite s.outs = ratWrite s'.outs ∧ ratCommit s.outs = ratCommit s'.outs := by
  obtain ⟨hvalid, -, hentry, -⟩ := h.commit
  have hrename : s.outs.issue.rename = s'.outs.issue.rename := (congrArg IssueOutputs.rename h.issue.2 :)
  have hwrites : s.commit.entry.writesRd = s'.commit.entry.writesRd := (congrArg RobEntry.writesRd hentry :)
  have hrd : s.commit.entry.rd = s'.commit.entry.rd := (congrArg RobEntry.rd hentry :)
  have htag : s.commit.entry.tag = s'.commit.entry.tag := (congrArg RobEntry.tag hentry :)
  constructor
  · rw [ratWrite, ratWrite, hrename, h.issueEffective]
  · show (if s.commit.valid && s.commit.entry.writesRd then
        RatCommit.mk s.commit.entry.rd s.commit.entry.tag true else {}) =
      if s'.commit.valid && s'.commit.entry.writesRd then
        RatCommit.mk s'.commit.entry.rd s'.commit.entry.tag true else {}
    rw [hvalid, hwrites, hrd, htag]

theorem rob_next (h : SameCycle s s') :
    (ReorderBuffer.step s.rob (robInputs s.observe s.outs) (ReorderBuffer.plan s.rob)).2.shape =
      (ReorderBuffer.step s'.rob (robInputs s'.observe s'.outs) (ReorderBuffer.plan s'.rob)).2.shape := by
  have hinputs : (robInputs s.observe s.outs).shape = (robInputs s'.observe s'.outs).shape := by
    have hentry : s.outs.issue.robEntry = s'.outs.issue.robEntry := (congrArg IssueOutputs.robEntry h.issue.2 :)
    have hwrite : s.outs.issue.writeRob = s'.outs.issue.writeRob := (congrArg IssueOutputs.writeRob h.issue.2 :)
    have hdone : s.storeDone = s'.storeDone := (congrArg (·.outputs.storeCompletion) h.queue :)
    show RobInputs.mk s.outs.issue.robEntry.shape (s.outs.issue.writeRob && !s.flush) s.completion.shape s.storeDone =
      RobInputs.mk s'.outs.issue.robEntry.shape (s'.outs.issue.writeRob && !s'.flush) s'.completion.shape s'.storeDone
    rw [hentry, hwrite, h.flush, h.completion, hdone]
  have hflush : (ReorderBuffer.plan s'.rob).outputs.flush = (ReorderBuffer.plan s.rob).outputs.flush := by
    rw [← outs_rob, ← outs_rob, outs_flush, outs_flush, h.flush]
  rw [ReorderBuffer.step_shape s.rob _ (ReorderBuffer.plan s.rob) (ReorderBuffer.plan s'.rob) h.commit.1.symm hflush,
    ReorderBuffer.step_shape s'.rob _ (ReorderBuffer.plan s'.rob) (ReorderBuffer.plan s'.rob) rfl rfl, h.rob, hinputs]

theorem station_plan (h : SameCycle s s') :
    (ReservationStation.plan s.rs s.flush).shape = (ReservationStation.plan s'.rs s'.flush).shape := by
  rw [ReservationStation.plan_shape, ReservationStation.plan_shape, h.rs, h.flush]

theorem rs_next (h : SameCycle s s') :
    (ReservationStation.step s.rs (s.rsInputs s.observe s.outs) (ReservationStation.plan s.rs s.flush)).2.shape =
      (ReservationStation.step s'.rs (s'.rsInputs s'.observe s'.outs)
        (ReservationStation.plan s'.rs s'.flush)).2.shape := by
  have hinputs : (s.rsInputs s.observe s.outs).shape = (s'.rsInputs s'.observe s'.outs).shape := by
    have hentry : s.outs.issue.rsEntry.shape = s'.outs.issue.rsEntry.shape :=
      (congrArg IssueOutputs.rsEntry h.issue.2 :)
    have hwrite : s.outs.issue.writeRs = s'.outs.issue.writeRs := (congrArg IssueOutputs.writeRs h.issue.2 :)
    have hroom (b : Bool) : FunctionalUnit.canAccept s.fu b = FunctionalUnit.canAccept s'.fu b :=
      (congrArg (FunctionalUnit.canAccept · b) h.fu :)
    show RsInputs.mk s.outs.issue.rsEntry.shape (s.outs.issue.writeRs && Core.issueEffective s.outs) s.broadcast.shape
        (FunctionalUnit.canAccept s.fu s.integerGranted) s.flush =
      RsInputs.mk s'.outs.issue.rsEntry.shape (s'.outs.issue.writeRs && Core.issueEffective s'.outs) s'.broadcast.shape
        (FunctionalUnit.canAccept s'.fu s'.integerGranted) s'.flush
    rw [hentry, hwrite, h.issueEffective, h.broadcast, h.integerGranted, hroom, h.flush]
  rw [ReservationStation.step_shape, ReservationStation.step_shape, h.station_plan, hinputs, h.rs]

theorem lsq_next (h : SameCycle s s') :
    (LoadStoreQueue.step s.lsq (lsqInputs s.observe s.outs) s.lsqDecision).2.shape =
      (LoadStoreQueue.step s'.lsq (lsqInputs s'.observe s'.outs) s'.lsqDecision).2.shape := by
  have hinputs : (lsqInputs s.observe s.outs).shape = (lsqInputs s'.observe s'.outs).shape := by
    have hentry : s.outs.issue.lsqEntry.shape = s'.outs.issue.lsqEntry.shape :=
      (congrArg IssueOutputs.lsqEntry h.issue.2 :)
    have hwrite : s.outs.issue.writeLsq = s'.outs.issue.writeLsq := (congrArg IssueOutputs.writeLsq h.issue.2 :)
    show LsqInputs.mk s.outs.issue.lsqEntry.shape (s.outs.issue.writeLsq && !s.flush) s.broadcast.shape s.flush =
      LsqInputs.mk s'.outs.issue.lsqEntry.shape (s'.outs.issue.writeLsq && !s'.flush) s'.broadcast.shape s'.flush
    rw [hentry, hwrite, h.broadcast, h.flush]
  rw [LoadStoreQueue.step_shape, LoadStoreQueue.step_shape s'.lsq, h.queue, hinputs, h.lsq]

theorem fu_next (h : SameCycle s s') :
    (FunctionalUnit.step s.fu (ReservationStation.plan s.rs s.flush).outputs.dispatch s.flush
        s.integerGranted).2.shape =
      (FunctionalUnit.step s'.fu (ReservationStation.plan s'.rs s'.flush).outputs.dispatch s'.flush
        s'.integerGranted).2.shape := by
  have hdispatch : (ReservationStation.plan s.rs s.flush).outputs.dispatch.shape =
      (ReservationStation.plan s'.rs s'.flush).outputs.dispatch.shape :=
    (congrArg (·.outputs.dispatch) h.station_plan :)
  rw [FunctionalUnit.step_shape, FunctionalUnit.step_shape s'.fu, h.fu, hdispatch, h.flush, h.integerGranted]

theorem training (h : SameCycle s s') : predictorUpdate s.outs = predictorUpdate s'.outs := by
  obtain ⟨hvalid, -, hentry, hout⟩ := h.commit
  have hbranch : s.commit.entry.isBranch = s'.commit.entry.isBranch := (congrArg RobEntry.isBranch hentry :)
  have hjump : s.commit.entry.isJump = s'.commit.entry.isJump := (congrArg RobEntry.isJump hentry :)
  have hpc : s.commit.entry.pc = s'.commit.entry.pc := (congrArg RobEntry.pc hentry :)
  have hpred : s.commit.entry.predictedNextPc = s'.commit.entry.predictedNextPc :=
    (congrArg RobEntry.predictedNextPc hentry :)
  show (if s.commit.valid && s.commit.entry.isBranch then
      BranchPredictorUpdate.mk s.commit.entry.pc s.commit.entry.branchTaken s.commit.entry.predictedNextPc
        s.commit.entry.actualNextPc true else {}) =
    if s'.commit.valid && s'.commit.entry.isBranch then
      BranchPredictorUpdate.mk s'.commit.entry.pc s'.commit.entry.branchTaken s'.commit.entry.predictedNextPc
        s'.commit.entry.actualNextPc true else {}
  rw [← hvalid, ← hbranch]
  split
  · rename_i hc
    rw [Bool.and_eq_true] at hc
    simp only [RobEntry.outcome, RobEntry.successor, ← hbranch, ← hjump, hc.2, Bool.true_or, if_true, Bool.true_and,
      Prod.mk.injEq] at hout
    rw [hpc, hpred, hout.1, hout.2]
  · rfl

theorem pc_next (h : SameCycle s s') : s.nextPc s.outs = s'.nextPc s'.outs := by
  have hentry : s.outs.issue.robEntry = s'.outs.issue.robEntry := (congrArg IssueOutputs.robEntry h.issue.2 :)
  rw [nextPc, nextPc, outs_flush, outs_flush, h.flush, h.redirectPc, h.issueEffective, hentry, h.pc]

theorem fetchStopped_next (h : SameCycle s s') : s.nextFetchStopped s.outs = s'.nextFetchStopped s'.outs := by
  have hentry : s.outs.issue.robEntry = s'.outs.issue.robEntry := (congrArg IssueOutputs.robEntry h.issue.2 :)
  rw [nextFetchStopped, nextFetchStopped, outs_flush, outs_flush, h.flush, h.issueEffective, hentry, h.fetchStopped]

theorem status_next (h : SameCycle s s') : s.nextStatus s.outs = s'.nextStatus s'.outs := by
  have hempty : ReorderBuffer.empty s.rob = ReorderBuffer.empty s'.rob := (congrArg ReorderBuffer.empty h.rob :)
  have hissue : s.outs.issue.status = s'.outs.issue.status := (congrArg IssueOutputs.status h.issue.2 :)
  have herror : s.outs.lsq.outputs.memoryError = s'.outs.lsq.outputs.memoryError :=
    h.succeeds.trans h.succeeds'.symm
  have hhalted : s.outs.rob.outputs.commit.halted = s'.outs.rob.outputs.commit.halted := h.commit.2.1
  rw [nextStatus, nextStatus, h.issue.1, hissue, herror, hhalted, hempty, h.status]

theorem committedCount_next (h : SameCycle s s') : s.nextCommittedCount s.outs = s'.nextCommittedCount s'.outs := by
  obtain ⟨hvalid, -, hentry, -⟩ := h.commit
  have hop : s.commit.entry.op = s'.commit.entry.op := (congrArg RobEntry.op hentry :)
  have hcount : s.committedCount = s'.committedCount := (congrArg Core.committedCount h.shape :)
  show (if s.commit.valid && s.commit.entry.op != .halt then s.committedCount + 1 else s.committedCount) =
    if s'.commit.valid && s'.commit.entry.op != .halt then s'.committedCount + 1 else s'.committedCount
  rw [hvalid, hop, hcount]

/-! ## The events -/

theorem retires (h : SameCycle s s') : s.retires = s'.retires := by
  have hhalts : s.halts = s'.halts := h.commit.2.1
  rw [Core.retires, Core.retires, shift, shift, h.status, h.committing, hhalts]

theorem keptIds (h : SameCycle s s') (ids : List Nat) : s.keptIds ids = s'.keptIds ids := by
  rw [Core.keptIds, Core.keptIds, h.flush, h.committing]

theorem departing (h : SameCycle s s') : s.departing.map RsEntry.shape = s'.departing.map RsEntry.shape := by
  have hselected : (ReservationStation.plan s.rs false).selectedIndex =
      (ReservationStation.plan s'.rs false).selectedIndex := by
    have hplan : (ReservationStation.plan s.rs false).shape = (ReservationStation.plan s'.rs false).shape := by
      rw [ReservationStation.plan_shape, ReservationStation.plan_shape, h.rs]
    exact (congrArg ReservationStation.RsDecision.selectedIndex hplan :)
  have hroom : FunctionalUnit.canAccept s.fu s.integerGranted = FunctionalUnit.canAccept s'.fu s'.integerGranted := by
    rw [h.integerGranted]
    exact (congrArg (FunctionalUnit.canAccept · s'.integerGranted) h.fu :)
  have hentry (i : Nat) : (s.rs.entries i).shape = (s'.rs.entries i).shape :=
    (congrArg (fun r : RsState => r.entries i) h.rs :)
  unfold Core.departing ReservationStation.departing
  rw [h.flush, hselected, hroom]
  split
  · rfl
  · split
    · rw [Option.map_some, Option.map_some, hentry]
    · rfl

theorem taken (h : SameCycle s s') : s.taken.map DataMemoryRequest.shape = s'.taken.map DataMemoryRequest.shape := by
  have hrequest : s.lsqDecision.outputs.memoryRequest.shape = s'.lsqDecision.outputs.memoryRequest.shape :=
    (congrArg (·.outputs.memoryRequest) h.queue :)
  have haccepted : (MemoryUnit.step s.memory s.port s.lsqDecision.outputs.memoryRequest).accepted =
      (MemoryUnit.step s'.memory s'.port s'.lsqDecision.outputs.memoryRequest).accepted := by
    rw [MemoryUnit.step_accepted s.memory .clear, MemoryUnit.step_accepted s'.memory .clear, h.port, hrequest]
  unfold Core.taken
  rw [h.status, haccepted]
  split
  · rw [Option.map_some, Option.map_some, hrequest]
  · rfl

theorem issuing (h : SameCycle s s') : s.issuing.isSome = s'.issuing.isSome := by
  rw [← issueEffective_iff, ← issueEffective_iff, h.issueEffective]

end SameCycle

/-! ## One cycle -/

/-- The cycle takes same shapes to same shapes. -/
theorem tick_shape (h : SameCycle s s') : s.tick.shape = s'.tick.shape := by
  by_cases hrun : s.status = .running
  · have hprefer : s.observe.cdb.nextPreferLoad = s'.observe.cdb.nextPreferLoad :=
      (congrArg CdbDecision.nextPreferLoad h.bus :)
    have hcycles : s.cycleCount = s'.cycleCount := (congrArg Core.cycleCount h.shape :)
    rw [tick_eq hrun, tick_eq (h.status ▸ hrun)]
    simp only [shape]
    rw [h.port_next, h.rat, h.rat_next.1, h.rat_next.2, outs_flush, outs_flush, h.rob_next, h.rs_next, h.lsq_next,
      h.fu_next, hprefer, h.predictor, h.training, h.pc_next, h.fetchStopped_next, h.status_next, hcycles,
      h.committedCount_next, h.flush]
  · rw [tick_of_stopped hrun, tick_of_stopped (h.status ▸ hrun), h.shape]

end Core

end TomasuloCpu
