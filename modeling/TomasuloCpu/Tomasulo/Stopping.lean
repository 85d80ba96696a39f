/-
  TomasuloCpu.Tomasulo.Stopping — how a running cycle ends.

  `status_event` reads the next status off the cycle: HALT commits, the queue's head gets
  a failed response, nothing is live and the fetch or the decoding fails, or the machine
  goes on. The allocation error does not occur.
-/
import TomasuloCpu.Tomasulo.Reachable

namespace TomasuloCpu

namespace Core

variable {s : Core}

/-- The queue's head gets a failed response in the cycle. -/
def memoryFails (s : Core) : Bool := s.lsqDecision.outputs.memoryError

theorem memoryFails_head (h : Inv s) (hf : s.memoryFails = true) :
    s.flush = false ∧ ∃ e rest, s.lsq.queue = e :: rest ∧
      LoadStoreQueue.matchingResponse e s.port.response = true ∧ s.port.response.success = false := by
  have hfl : s.flush = false := by
    by_contra hc
    rw [memoryFails, lsqDecision_flush (by simpa using hc)] at hf
    cases hf
  refine ⟨hfl, ?_⟩
  have hev := lsq_event h hfl
  unfold memoryFails at hf
  generalize s.lsqDecision = d at hev hf
  cases hev with
  | idle => cases hf
  | send => cases hf
  | loaded => cases hf
  | stored => cases hf
  | failed hq hm hs => exact ⟨_, _, hq, hm, hs⟩

/-- HALT commits in the cycle. -/
def halts (s : Core) : Bool := s.commit.halted

theorem halts_head (h : Inv s) (hh : s.halts = true) :
    ∃ x, s.rob.live.head? = some x ∧ x.ready = true ∧ x.op = .halt := by
  unfold halts commit at hh
  rw [outs_rob] at hh
  simp only [ReorderBuffer.plan, ReorderBuffer.front_eq h.rob] at hh
  cases hx : s.rob.live.head? with
  | none => rw [hx] at hh; cases hh
  | some x =>
    rw [hx] at hh
    simp only [ReorderBuffer.planCommit] at hh
    split at hh
    · rename_i hr
      exact ⟨x, rfl, hr, by simpa using hh⟩
    · cases hh

theorem halts_eq (h : Inv s) {x : RobEntry} (hx : s.rob.live.head? = some x) (hr : x.ready = true) :
    s.halts = (x.op == .halt) :=
  (commit_entry h.rob hx hr).2.2

/-- With nothing live every module has room. -/
theorem empty_modules (h : Inv s) (hl : s.rob.live = []) :
    ReorderBuffer.empty s.rob = true ∧ ReorderBuffer.full s.rob = false ∧ s.flush = false ∧ s.committing = false ∧
      s.lsq.queue = [] ∧ LoadStoreQueue.full s.lsq = false ∧ ReservationStation.available s.rs = true := by
  have hc : s.rob.count = 0 := by
    rw [← ReorderBuffer.length_live, hl]
    rfl
  have hcommit : s.committing = false := by
    by_contra hc
    obtain ⟨x, hx, -⟩ := (committing_iff h.rob).mp (by simpa using hc)
    rw [hl] at hx
    cases hx
  have hflush : s.flush = false := by
    by_contra hc
    rw [committing_of_flush (by simpa using hc)] at hcommit
    cases hcommit
  have hmem := h.mem
  have halu := h.alu
  rw [hl] at hmem halu
  have hq : s.lsq.queue.map (·.destination) = [] := (List.append_eq_nil_iff.mp hmem).2
  have hw : s.rs.waiting.map (·.destination) = [] := (List.append_eq_nil_iff.mp halu.eq_nil).1
  have hq : s.lsq.queue = [] := List.map_eq_nil_iff.mp hq
  have hw : s.rs.waiting = [] := List.map_eq_nil_iff.mp hw
  refine ⟨by simp [ReorderBuffer.empty, hc], by simp [ReorderBuffer.full, ReorderBuffer.kCapacity, hc], hflush, hcommit,
    hq, by simp [LoadStoreQueue.full_eq, hq], ?_⟩
  refine ReservationStation.available_iff.mpr ⟨0, by decide, ?_⟩
  by_contra hb
  have hm := ReservationStation.mem_waiting.mpr ⟨0, by decide, rfl, by simpa using hb⟩
  rw [hw] at hm
  cases hm

/-- Nothing is in flight in any module. -/
structure Drained (s : Core) : Prop where
  rob : ReorderBuffer.empty s.rob = true
  rs : ∀ i < ReservationStation.kCapacity, (s.rs.entries i).busy = false
  lsq : LoadStoreQueue.empty s.lsq = true
  fu : s.fu.valid = false
  loadResult : s.lsq.loadResult.valid = false

theorem drained (h : Inv s) (hl : s.rob.live = []) : Drained s := by
  have hmem := h.mem
  have halu := h.alu
  rw [hl] at hmem halu
  obtain ⟨hload, hqueue⟩ := List.append_eq_nil_iff.mp hmem
  obtain ⟨hstation, hunit⟩ := List.append_eq_nil_iff.mp halu.eq_nil
  have hnone : ∀ {r : FuResult}, holds r = [] → r.valid = false := by
    intro r hr
    by_contra hv
    rw [holds, if_pos (by simpa using hv)] at hr
    cases hr
  refine ⟨(empty_modules h hl).1, fun i hi => ?_, ?_, hnone hunit, hnone hload⟩
  · by_contra hb
    have hm := ReservationStation.mem_waiting.mpr ⟨i, hi, rfl, by simpa using hb⟩
    rw [List.map_eq_nil_iff.mp hstation] at hm
    cases hm
  · have hc : s.lsq.count = 0 := by
      rw [← LoadStoreQueue.length_queue, List.map_eq_nil_iff.mp hqueue]
      rfl
    simp [LoadStoreQueue.empty, hc]

/-! ## Fetch and issue -/

/-- The cycle looks at the word at the pc. -/
structure Fetching (s : Core) : Prop where
  noFlush : s.flush = false
  going : s.fetchStopped = false
  room : ReorderBuffer.full s.rob = false

/-- What the issue unit makes of a cycle. -/
inductive IssueEvent (s : Core) : Prop where
  | idle (hf : ¬ Fetching s) (he : s.outs.fetchError = false) (hs : s.outs.issue.status = .empty)
  | outOfBounds (hf : Fetching s) (hw : s.memory.readWord s.pc = none) (he : s.outs.fetchError = true)
      (hs : s.outs.issue.status = .empty)
  | invalid {w : InstructionBits} (hf : Fetching s) (hw : s.memory.readWord s.pc = some w)
      (hop : (Decoder.decode w).op = .invalid) (he : s.outs.fetchError = false)
      (hs : s.outs.issue.status = .invalidInstruction)
  | stalled {w : InstructionBits} (hf : Fetching s) (hw : s.memory.readWord s.pc = some w)
      (hroom : ((Decoder.decode w).op.isMemory = true ∧ LoadStoreQueue.full s.lsq = true) ∨
        ((Decoder.decode w).op.isAlu = true ∧ ReservationStation.available s.rs = false))
      (he : s.outs.fetchError = false) (hs : s.outs.issue.status = .unavailability)
  | issued {d : DecodePacket} (hd : s.issuing = some d) (he : s.outs.fetchError = false)
      (hs : s.outs.issue.status = .issued)

theorem issue_event (s : Core) : IssueEvent s := by
  have hstatus : s.outs.issue = (s.planIssue s.observe).2 := rfl
  have herror : s.outs.fetchError = (s.planIssue s.observe).1 := rfl
  by_cases hguard : (!s.observe.preview.flush && !s.fetchStopped && !ReorderBuffer.full s.rob) = true
  · have hnone : s.fetchAndDecoded = none → s.planIssue s.observe = (true, {}) := by
      intro hd
      rw [planIssue, if_pos hguard, hd]
    have hsome : ∀ d, s.fetchAndDecoded = some d →
        s.planIssue s.observe = (false, IssueUnit.plan (s.issueInputs s.observe d)) := by
      intro d hd
      rw [planIssue, if_pos hguard, hd]
    rw [observe_flush] at hguard
    have hfetched : s.fetched = s.fetchAndDecoded := by rw [fetched, if_pos hguard]
    simp only [Bool.and_eq_true, Bool.not_eq_true'] at hguard
    have hf : Fetching s := ⟨hguard.1.1, hguard.1.2, hguard.2⟩
    cases hd : s.fetchAndDecoded with
    | none =>
      have hplan := hnone hd
      exact .outOfBounds hf (fetchAndDecoded_none hd) (by rw [herror, hplan]) (by rw [hstatus, hplan])
    | some d =>
      have hplan := hsome d hd
      rw [hd] at hfetched
      have he : s.outs.fetchError = false := by rw [herror, hplan]
      have hissue : s.outs.issue = IssueUnit.plan (s.issueInputs s.observe d) := by rw [hstatus, hplan]
      obtain ⟨hv, -, ⟨w, hw, hdec⟩, -⟩ := fetchAndDecoded_some hd
      have hwell : WellDecoded d.decoded := by rw [hdec]; exact Decoder.decode_spec w
      have hmem : IssueUnit.isMemoryInstruction d.decoded = d.decoded.op.isMemory := by
        simp [IssueUnit.isMemoryInstruction, hwell.load, hwell.store, Op.isMemory]
      have htag : (ReorderBuffer.nextTag s.rob).valid = true := by simp [ReorderBuffer.nextTag, hf.room]
      by_cases hop : d.decoded.op = .invalid
      · refine .invalid hf hw (hdec ▸ hop) he ?_
        rw [hissue, IssueUnit.plan, if_neg (by simp [issueInputs, hv]),
          if_pos (show (s.issueInputs s.observe d).packet.decoded.op = .invalid from hop)]
      · have halu : (!d.decoded.op == .halt && !d.decoded.op.isMemory) = d.decoded.op.isAlu := by
          simp only [Op.isAlu]
          cases d.decoded.op.isMemory <;> simp [hop, bne]
        have hplan' := hissue
        unfold IssueUnit.plan at hplan'
        simp only [issueInputs, hv, hop, htag, hf.room, hmem, halu, Bool.true_eq_false, if_false, Bool.not_false,
          Bool.not_true, Bool.false_or] at hplan'
        split at hplan'
        · rename_i hroom
          simp only [Bool.or_eq_true, Bool.and_eq_true, Bool.not_not, Bool.not_eq_true'] at hroom
          exact .stalled hf hw (hdec ▸ hroom) he (by rw [hplan'])
        · have hs : s.outs.issue.status = .issued := by rw [hplan']
          refine .issued (d := d) ?_ he hs
          rw [issuing, hfetched, Option.filter_some, if_pos]
          rw [← hissue, IssueOutputs.issued, hs]
          rfl
  · have hplan : s.planIssue s.observe = (false, {}) := by rw [planIssue, if_neg hguard]
    refine .idle (fun hf => hguard ?_) (by rw [herror, hplan]) (by rw [hstatus, hplan])
    simp [observe_flush, hf.noFlush, hf.going, hf.room]

/-! ## The status -/

/-- The status after a running cycle, and why. -/
inductive StatusEvent (s : Core) : Prop where
  | running (hs : s.tick.status = .running) (hh : s.halts = false) (hm : s.memoryFails = false)
      (hl : s.rob.live = [] → s.fetchStopped = true ∨ ∃ d, s.issuing = some d)
  | halted (hs : s.tick.status = .halted) (hh : s.halts = true)
  | memory (hs : s.tick.status = .memoryOutOfBound) (hh : s.halts = false) (hm : s.memoryFails = true)
  | fetch (hs : s.tick.status = .fetchOutOfBound) (hl : s.rob.live = []) (hg : s.fetchStopped = false)
      (hw : s.memory.readWord s.pc = none)
  | invalid {w : InstructionBits} (hs : s.tick.status = .invalidInstruction) (hl : s.rob.live = [])
      (hg : s.fetchStopped = false) (hw : s.memory.readWord s.pc = some w) (hop : (Decoder.decode w).op = .invalid)

theorem status_event (h : Inv s) (hrun : s.status = .running) : StatusEvent s := by
  have hstatus : s.tick.status = s.nextStatus s.outs := by rw [tick_eq hrun]
  have hhalt : s.outs.rob.outputs.commit.halted = s.halts := rfl
  have hfail : s.outs.lsq.outputs.memoryError = s.memoryFails := rfl
  unfold nextStatus at hstatus
  rw [hhalt, hfail] at hstatus
  cases hh : s.halts with
  | true => exact .halted (by rw [hstatus, if_pos hh]) hh
  | false =>
    rw [if_neg (by simp [hh])] at hstatus
    cases hm : s.memoryFails with
    | true => exact .memory (by rw [hstatus, if_pos hm]) hh hm
    | false =>
      rw [if_neg (by simp [hm])] at hstatus
      have hempty : ReorderBuffer.empty s.rob = true ↔ s.rob.live = [] := by
        rw [ReorderBuffer.empty_eq]
        simp
      cases issue_event s with
      | idle hf he hi =>
        refine .running (by simp [hstatus, he, hi, hrun]) hh hm fun hl => ?_
        obtain ⟨-, hfull, hfl, -⟩ := empty_modules h hl
        exact Or.inl (by by_contra hc; exact hf ⟨hfl, by simpa using hc, hfull⟩)
      | outOfBounds hf hw he hi =>
        by_cases hl : s.rob.live = []
        · exact .fetch (by simp [hstatus, he, hi, hempty.mpr hl]) hl hf.going hw
        · have hne : ReorderBuffer.empty s.rob = false := by simpa [hl] using hempty
          exact .running (by simp [hstatus, hi, hne, hrun]) hh hm fun hc => absurd hc hl
      | invalid hf hw hop he hi =>
        by_cases hl : s.rob.live = []
        · exact .invalid (by simp [hstatus, hi, hempty.mpr hl]) hl hf.going hw hop
        · have hne : ReorderBuffer.empty s.rob = false := by simpa [hl] using hempty
          exact .running (by simp [hstatus, he, hi, hne, hrun]) hh hm fun hc => absurd hc hl
      | stalled hf hw hroom he hi =>
        refine .running (by simp [hstatus, he, hi, hrun]) hh hm fun hl => ?_
        obtain ⟨-, -, -, -, -, hlsq, hrs⟩ := empty_modules h hl
        rcases hroom with ⟨-, hc⟩ | ⟨-, hc⟩
        · rw [hlsq] at hc; cases hc
        · rw [hrs] at hc; cases hc
      | issued hd he hi => exact .running (by simp [hstatus, he, hi, hrun]) hh hm fun _ => Or.inr ⟨_, hd⟩

theorem halts_of_tick (h : Inv s) (hrun : s.status = .running) (hs : s.tick.status = .halted) : s.halts = true := by
  cases status_event h hrun with
  | running hs' => rw [hs] at hs'; cases hs'
  | halted _ hh => exact hh
  | memory hs' => rw [hs] at hs'; cases hs'
  | fetch hs' => rw [hs] at hs'; cases hs'
  | invalid hs' => rw [hs] at hs'; cases hs'

theorem halted_tick (h : Inv s) (hrun : s.status = .running) (hh : s.halts = true) : s.tick.status = .halted := by
  obtain ⟨x, hx, -⟩ := halts_head h hh
  have hl : s.rob.live ≠ [] := fun hnil => by rw [hnil] at hx; cases hx
  cases status_event h hrun with
  | running _ hh' => rw [hh] at hh'; cases hh'
  | halted hs' => exact hs'
  | memory _ hh' => rw [hh] at hh'; cases hh'
  | fetch _ hl' => exact absurd hl' hl
  | invalid _ hl' => exact absurd hl' hl

end Core

end TomasuloCpu
