/-
  TomasuloCpu.Tomasulo.Renaming — the rename table and the operands that wait.

  `rat_tick`: after a cycle the table again names the youngest live writer of each
  register, whatever of commit, flush and issue met in it. `operand_spec` says what an
  issuing instruction gets for a source register, and `awaits_tick` that a waiting
  operand either gets its broadcast or keeps an older producer that is still to finish.
-/
import TomasuloCpu.Tomasulo.MemoryPort

namespace TomasuloCpu

open Keyed

namespace Core

variable {s : Core}

/-! ## The rename table -/

theorem writesTo_finish (r : RegisterIndex) (x : RobEntry) : writesTo r (s.finish x) = writesTo r x := by
  obtain ⟨-, -, hrd, hw, -⟩ := ReorderBuffer.finish_frame s.completion s.storeDone x
  rw [writesTo, finish, hrd, hw]
  rfl

theorem latest_finish (r : RegisterIndex) (l : List RobEntry) :
    latest (·.tag) (writesTo r) (l.map s.finish) = latest (·.tag) (writesTo r) l :=
  latest_map (fun x => finish_tag x) fun x => writesTo_finish r x

/-- A live writer writes one of x1 to x31. -/
theorem writer_valid {e : RobEntry} (he : EntryOk e) (hw : e.writesRd = true) : validRegister e.rd = true := by
  refine validRegister_of_ne (fun h0 => ?_) he.rd_lt
  have h := he.writes
  rw [hw, h0] at h
  simp at h

theorem latest_zero {l : List RobEntry} (hl : ∀ e ∈ l, EntryOk e) : latest (·.tag) (writesTo 0) l = none := by
  cases h : latest (·.tag) (writesTo 0) l with
  | none => rfl
  | some t =>
    obtain ⟨e, he, hw, -⟩ := latest_some h
    simp only [writesTo, Bool.and_eq_true, beq_iff_eq] at hw
    have hv := writer_valid (hl e he) hw.1
    rw [hw.2] at hv
    exact absurd hv (by decide)

/-- The table after the commit of a cycle without a flush. -/
def committedRat (s : Core) : RegisterIndex → RobTag :=
  let commit := ratCommit s.outs
  if commit.valid && commit.tag.valid && validRegister commit.rd then
    if s.rat commit.rd = commit.tag then Function.update s.rat commit.rd {} else s.rat
  else s.rat

theorem ratCommit_eq : ratCommit s.outs =
    if s.commit.valid && s.commit.entry.writesRd then
      { rd := s.commit.entry.rd, tag := s.commit.entry.tag, valid := true }
    else {} := rfl

theorem ratWrite_eq : ratWrite s.outs =
    if s.outs.issue.rename.valid && issueEffective s.outs then
      { rd := s.outs.issue.rename.rd, tag := s.outs.issue.rename.tag, valid := true }
    else {} := rfl

theorem writesTo_of_latest (h : Inv s) {r : RegisterIndex} {x : RobEntry} (hx : x ∈ s.rob.live)
    (hlast : latest (·.tag) (writesTo r) s.rob.live = some x.tag) : writesTo r x = true := by
  obtain ⟨y, hy, hyw, hyt⟩ := latest_some hlast
  rwa [inj h.nodup hy hx hyt] at hyw

/-- The commit of a writer clears its register where the writer is the youngest. -/
theorem committedRat_written (h : Inv s) {x : RobEntry} (hx : x ∈ s.rob.live) (hvalid : s.commit.valid = true)
    (hentry : s.commit.entry = x) (hw : x.writesRd = true) (r : RegisterIndex) :
    s.committedRat r = if latest (·.tag) (writesTo r) s.rob.live = some x.tag then {} else s.rat r := by
  have hrc : ratCommit s.outs = { rd := x.rd, tag := x.tag, valid := true } := by
    rw [ratCommit_eq, hvalid, hentry, hw]
    rfl
  have hxv := writer_valid (h.entry x hx) hw
  have hxt := ReorderBuffer.live_tag_valid h.rob hx
  have hrat := h.rat r
  unfold committedRat
  simp only [hrc, hxt, hxv, Bool.and_self, if_true]
  by_cases hlast : latest (·.tag) (writesTo r) s.rob.live = some x.tag
  · have hrd : x.rd = r := by
      have hwr := writesTo_of_latest h hx hlast
      simp only [writesTo, Bool.and_eq_true, beq_iff_eq] at hwr
      exact hwr.2
    rw [hlast, Option.getD_some] at hrat
    rw [if_pos hlast, hrd, if_pos hrat, Function.update_self]
  · rw [if_neg hlast]
    by_cases e : r = x.rd
    · have hne : s.rat x.rd ≠ x.tag := by
        intro heq
        cases hk : latest (·.tag) (writesTo r) s.rob.live with
        | none =>
          have := latest_none hk x hx
          simp [writesTo, hw, e] at this
        | some k =>
          rw [hk] at hrat
          rw [← e, hrat] at heq
          exact hlast (by rw [hk, ← heq]; rfl)
      rw [if_neg hne]
    · split
      · exact Function.update_of_ne e _ _
      · rfl

theorem committedRat_eq (h : Inv s) (hfl : s.flush = false) (r : RegisterIndex) :
    s.committedRat r = (latest (·.tag) (writesTo r) s.survivors).getD {} := by
  rcases survivors_cases h.rob hfl with ⟨x, t, hl, hr, hc, hs⟩ | ⟨-, hc, hs⟩
  · rw [hs, latest_finish]
    have hx : x ∈ s.rob.live := by rw [hl]; exact List.mem_cons_self
    obtain ⟨hentry, hvalid, -⟩ := commit_entry h.rob (h := x) (by rw [hl]; rfl) hr
    have hn : ((x :: t).map (·.tag)).Nodup := hl ▸ h.nodup
    have htail := latest_tail (p := writesTo r) hn
    rw [← hl] at htail
    by_cases hw : x.writesRd = true
    · rw [committedRat_written h hx hvalid hentry hw, htail]
      split
      · rfl
      · exact h.rat r
    · have hrc : ratCommit s.outs = {} := by
        rw [ratCommit_eq, hvalid, hentry, if_neg (by simp [hw])]
      have hlast : latest (·.tag) (writesTo r) s.rob.live ≠ some x.tag := by
        intro hk
        have hwr := writesTo_of_latest h hx hk
        simp [writesTo, hw] at hwr
      rw [htail, if_neg hlast, ← h.rat r, committedRat, hrc]
      rfl
  · have hrc : ratCommit s.outs = {} := by
      have hc : s.commit.valid = false := hc
      rw [ratCommit_eq, hc]
      rfl
    rw [hs, latest_finish, ← h.rat r, committedRat, hrc]
    rfl

theorem ratWrite_none (hd : s.issuing = none) : ratWrite s.outs = {} := by
  rw [ratWrite_eq, (outs_issue_quiet hd).2.2.2]
  rfl

theorem ratWrite_some {d : DecodePacket} (hd : s.issuing = some d) :
    ratWrite s.outs =
      if (s.issuedRob d).writesRd then { rd := d.decoded.rd, tag := s.newTag, valid := true } else {} := by
  have heff : issueEffective s.outs = true := by rw [issueEffective_iff, hd]; rfl
  rw [ratWrite_eq, heff, (issuing_some hd).issue]
  by_cases hwr : (s.issuedRob d).writesRd = true <;> simp [hwr]

theorem rat_tick (h : Inv s) (hrun : s.status = .running) (r : RegisterIndex) :
    s.tick.rat r = (latest (·.tag) (writesTo r) s.tick.rob.live).getD {} := by
  have hrat : s.tick.rat =
      Function.update (RenameTable.step s.rat (ratWrite s.outs) (ratCommit s.outs) s.flush) 0 {} := by
    rw [tick_eq hrun, outs_flush]
  by_cases hr0 : r = 0
  · rw [hrat, hr0, Function.update_self, latest_zero (entry_tick h hrun)]; rfl
  · rw [hrat, Function.update_of_ne hr0]
    by_cases hfl : s.flush = true
    · rw [live_flush hrun h.rob hfl, hfl]; rfl
    · have hfl : s.flush = false := by simpa using hfl
      have hstep : RenameTable.step s.rat (ratWrite s.outs) (ratCommit s.outs) false r =
          (if (ratWrite s.outs).valid && (ratWrite s.outs).tag.valid && validRegister (ratWrite s.outs).rd then
            Function.update s.committedRat (ratWrite s.outs).rd (ratWrite s.outs).tag else s.committedRat) r := by
        unfold RenameTable.step
        simp only [Bool.false_eq_true, if_false]
        rw [Function.update_of_ne hr0]
        rfl
      rw [hfl, hstep, (tick_rob hrun h.rob).2, newRob]
      cases hd : s.issuing with
      | none =>
        rw [ratWrite_none hd, Option.map_none, Option.toList_none, List.append_nil, ← committedRat_eq h hfl]
        rfl
      | some d =>
        have hrd : (s.issuedRob d).rd = d.decoded.rd := rfl
        have htag : (s.issuedRob d).tag = s.newTag := rfl
        have hok := entry_tick h hrun (s.issuedRob d)
          (by rw [(tick_rob hrun h.rob).2, newRob, hd]; simp)
        rw [Option.map_some, Option.toList_some, ratWrite_some hd]
        by_cases hwr : (s.issuedRob d).writesRd = true
        · have hvr : validRegister d.decoded.rd = true := by rw [← hrd]; exact writer_valid hok hwr
          have hvt : s.newTag.valid = true := by
            simp [newTag, ReorderBuffer.nextTag, (issuing_some hd).room]
          simp only [hwr, hvr, hvt, Bool.and_self, if_true]
          by_cases e : r = d.decoded.rd
          · rw [e, Function.update_self, latest_append_of_pos (by simp [writesTo, hwr, hrd]), htag]; rfl
          · rw [Function.update_of_ne e, committedRat_eq h hfl, latest_append_of_neg]
            simp [writesTo, hrd, Ne.symm e]
        · rw [if_neg hwr, latest_append_of_neg (by simp [writesTo, hwr]), ← committedRat_eq h hfl]
          rfl

/-- `lookup` shows the table's tags. -/
theorem lookup_rat (h : Inv s) {r : RegisterIndex} (hr : r ≠ 0) (hlt : r.toNat < 32) :
    RenameTable.lookup s.rat r = (latest (·.tag) (writesTo r) s.rob.live).getD {} := by
  have hv : validRegister r = true := by
    have hpos : 0 < r.toNat := by
      by_contra hc
      exact hr (BitVec.eq_of_toNat_eq (by simpa using hc))
    simp [validRegister, hpos, kRegisterCount, hlt]
  unfold RenameTable.lookup
  rw [hv, Bool.true_and, h.rat r]
  split
  · rfl
  · rename_i hnv
    cases hk : latest (·.tag) (writesTo r) s.rob.live with
    | none => rfl
    | some t =>
      obtain ⟨e, he, -, rfl⟩ := latest_some hk
      rw [hk] at hnv
      exact absurd (ReorderBuffer.live_tag_valid h.rob he) hnv

/-! ## The broadcast -/

theorem broadcast_eq (h : Inv s) :
    s.broadcast.valid = s.completion.valid ∧
      (s.completion.valid = true → s.broadcast = ⟨s.completion.tag, s.completion.result, true⟩ ∧
        s.completion.tag.valid = true ∧ s.completion.tag ∈ RobState.tags s.rob.live) := by
  by_cases hfl : s.flush = true
  · obtain ⟨hc, hb, -⟩ := cdb_flush hfl
    rw [hc, hb]
    exact ⟨rfl, fun hc => by cases hc⟩
  · rcases cdb_cases (by simpa using hfl) with ⟨hc, hb, -⟩ | ⟨hc, hb, -, -, ho, -⟩ | ⟨hc, hb, -, -, ho, -⟩
    · rw [hc, hb]
      exact ⟨rfl, fun hc => by cases hc⟩
    · rw [h.offered_fu] at ho
      have hp := h.fu_pending ho
      rw [hc, hb, ho]
      exact ⟨rfl, fun _ => ⟨rfl, h.pending_valid hp, (pending_sublist _ _ _).subset hp⟩⟩
    · rw [h.offered_loadResult] at ho
      have hp := h.loadResult_pending ho
      rw [hc, hb, ho]
      exact ⟨rfl, fun _ => ⟨rfl, h.pending_valid hp, (pending_sublist _ _ _).subset hp⟩⟩

/-- The bus carries a result for the instruction tagged `t`. -/
def broadcasts (s : Core) (t : RobTag) : Bool := s.broadcast.valid && s.broadcast.tag == t

/-- An instruction with a destination finishes by its broadcast. -/
theorem finishes_writer (h : Inv s) {e : RobEntry} (he : e ∈ s.rob.live) (hw : e.writesRd = true) :
    s.finishes e.tag = s.broadcasts e.tag := by
  have hstore : (s.storeDone.valid && e.tag == s.storeDone.tag) = false := by
    by_contra hc
    simp only [Bool.not_eq_false, Bool.and_eq_true, beq_iff_eq] at hc
    obtain ⟨-, x, rest, hq, ht, hty, -⟩ := storeDone_head h hc.1
    have hx : x ∈ s.lsq.queue := by rw [hq]; exact List.mem_cons_self
    obtain ⟨y, hy, hyt, hyop, -⟩ := h.queued_entry hx
    have hey : e = y := inj h.nodup he hy (by rw [hc.2, ht, hyt])
    have hop : e.op.isStore = true := by rw [hey, hyop, (h.access x hx).store_op hty]
    have hwr := (h.entry e he).writes
    rw [hw, Op.writes_of_isStore hop] at hwr
    cases hwr
  obtain ⟨hv, hb⟩ := broadcast_eq h
  rw [finishes, hstore, Bool.or_false, broadcasts]
  cases hc : s.completion.valid with
  | false => rw [hv, hc]; rfl
  | true =>
    rw [(hb hc).1]
    simp [Bool.beq_comm]

theorem wake_broadcast (h : Inv s) {x : Operand} (hr : x.ready = false) (hv : x.tag.valid = true) :
    wakeOperand x s.broadcast =
      if s.broadcasts x.tag then IssueUnit.readyOperand s.broadcast.value else x := by
  obtain ⟨hbv, hb⟩ := broadcast_eq h
  unfold wakeOperand broadcasts
  cases hc : s.broadcast.valid with
  | false => simp
  | true =>
    obtain ⟨hbe, htv, -⟩ := hb (hbv ▸ hc)
    have htv' : s.broadcast.tag.valid = true := by rw [hbe]; exact htv
    by_cases ht : x.tag = s.broadcast.tag
    · simp [hr, htv', ht, IssueUnit.readyOperand]
    · simp [hr, hv, htv', ht, Ne.symm ht]

/-! ## Waiting operands -/

theorem survivors_before (h : Inv s) (hfl : s.flush = false) {a b : RobTag}
    (hb : Before (·.tag) s.rob.live a b) (ha : ∀ x, s.rob.live.head? = some x → x.ready = true → a ≠ x.tag) :
    Before (·.tag) s.survivors a b := by
  rcases survivors_cases h.rob hfl with ⟨x, t, hl, hr, -, hs⟩ | ⟨-, -, hs⟩
  · rw [hs]
    rw [hl] at hb ha
    exact (hb.tail (ha x rfl hr)).map fun y => finish_tag y
  · rw [hs]
    exact hb.map fun y => finish_tag y

/-- A waiting operand gets its broadcast, or its producer is still to finish. -/
theorem awaits_survivors (h : Inv s) (hfl : s.flush = false) {t : RobTag} {x : Operand}
    (hx : Awaits s.rob.live t x) : Awaits s.survivors t (wakeOperand x s.broadcast) := by
  rcases hx with hr | ⟨hb, e, he, het, hw, her⟩
  · exact Or.inl (wakeOperand_ready x _ hr)
  · by_cases hr : x.ready = true
    · exact Or.inl (wakeOperand_ready x _ hr)
    · have hr : x.ready = false := by simpa using hr
      have hv : x.tag.valid = true := by rw [← het]; exact ReorderBuffer.live_tag_valid h.rob he
      rw [wake_broadcast h hr hv]
      by_cases hbc : s.broadcasts x.tag = true
      · rw [if_pos hbc]
        exact Or.inl rfl
      · rw [if_neg hbc]
        refine Or.inr ⟨survivors_before h hfl hb fun y hy hyr hxy => ?_, s.finish e, survives h hfl he her,
          by rw [finish_tag, het], ?_, ?_⟩
        · rw [inj h.nodup he (List.mem_of_mem_head? hy) (het.trans hxy), hyr] at her
          cases her
        · rw [finish, (ReorderBuffer.finish_frame _ _ e).2.2.2.1]
          exact hw
        · rw [finish_ready h he, her, finishes_writer h he hw, het]
          simpa using hbc

theorem awaits_append {l : List RobEntry} {t : RobTag} {x : Operand} (h : Awaits l t x) (r : List RobEntry) :
    Awaits (l ++ r) t x := by
  rcases h with h | ⟨hb, e, he, h⟩
  · exact Or.inl h
  · exact Or.inr ⟨hb.append r, e, List.mem_append_left _ he, h⟩

/-- What an issuing instruction gets for a source register: x0, the committed value, this
    cycle's broadcast, the finished value of the youngest writer, or that writer's tag. -/
theorem operand_spec (h : Inv s) {r : RegisterIndex} (hlt : r.toNat < 32) :
    (r = 0 ∧ s.operand r = IssueUnit.readyOperand 0) ∨
      (r ≠ 0 ∧ latest (·.tag) (writesTo r) s.rob.live = none ∧
        s.operand r = IssueUnit.readyOperand (s.registers r)) ∨
      ∃ e ∈ s.rob.live, latest (·.tag) (writesTo r) s.rob.live = some e.tag ∧ writesTo r e = true ∧
        ((s.broadcasts e.tag = true ∧ s.operand r = IssueUnit.readyOperand s.broadcast.value) ∨
          (e.ready = true ∧ s.operand r = IssueUnit.readyOperand e.value) ∨
          (e.ready = false ∧ s.broadcasts e.tag = false ∧ s.operand r = { ready := false, tag := e.tag })) := by
  by_cases hr : r = 0
  · exact Or.inl ⟨hr, by rw [operand, IssueUnit.resolveRegister, if_pos hr]⟩
  · have hlook := lookup_rat h hr hlt
    have hpos : 0 < r.toNat := by
      by_contra hc
      exact hr (BitVec.eq_of_toNat_eq (by simpa using hc))
    refine Or.inr ?_
    cases hk : latest (·.tag) (writesTo r) s.rob.live with
    | none =>
      rw [hk, Option.getD_none] at hlook
      have hsrc : s.sourceState r = { architecturalValue := s.registers r } := by
        unfold sourceState
        rw [if_neg hr, hlook]
        simp [RegisterFile.read, validRegister, hpos, kRegisterCount, hlt]
      refine Or.inl ⟨hr, rfl, ?_⟩
      rw [operand, IssueUnit.resolveRegister, if_neg hr, hsrc]
      rfl
    | some t =>
      obtain ⟨e, he, hw, rfl⟩ := latest_some hk
      rw [hk, Option.getD_some] at hlook
      have hv := ReorderBuffer.live_tag_valid h.rob he
      refine Or.inr ⟨e, he, rfl, hw, ?_⟩
      have hsrc : (s.sourceState r).producer = e.tag ∧ (s.sourceState r).producerReady = e.ready ∧
          (e.ready = true → (s.sourceState r).producerValue = e.value) := by
        unfold sourceState
        rw [if_neg hr, hlook]
        simp only [hv, Bool.true_eq_false, if_false, ReorderBuffer.lookup_eq h.rob he]
        by_cases her : e.ready = true
        · rw [if_pos her]
          exact ⟨rfl, her.symm, fun _ => rfl⟩
        · rw [if_neg her]
          exact ⟨rfl, by simpa using her, fun hc => absurd hc her⟩
      obtain ⟨hp, hpr, hpv⟩ := hsrc
      rw [operand, IssueUnit.resolveRegister, if_neg hr, hp, if_neg (by simp [hv])]
      by_cases hb : s.broadcasts e.tag = true
      · have hb' := hb
        simp only [broadcasts, Bool.and_eq_true, beq_iff_eq] at hb'
        exact Or.inl ⟨hb, by rw [if_pos (by simp [hb'.1, hb'.2, hv])]⟩
      · have hcond : ¬ (s.broadcast.valid && s.broadcast.tag.valid && s.broadcast.tag == e.tag) = true := by
          intro hc
          simp only [Bool.and_eq_true] at hc
          exact hb (by simp [broadcasts, hc.1.1, hc.2])
        rw [if_neg hcond, hpr]
        by_cases her : e.ready = true
        · exact Or.inr (Or.inl ⟨her, by rw [if_pos her, hpv her]⟩)
        · exact Or.inr (Or.inr ⟨by simpa using her, by simpa using hb, by rw [if_neg her]⟩)

/-- An operand read at issue is there, or waits for an older live writer. -/
theorem operand_awaits (h : Inv s) {d : DecodePacket} (hd : s.issuing = some d) {r : RegisterIndex}
    (hlt : r.toNat < 32) : Awaits (s.survivors ++ s.newRob) s.newTag (s.operand r) := by
  have hfl := (issuing_some hd).noFlush
  rcases operand_spec h hlt with ⟨-, ho⟩ | ⟨-, -, ho⟩ | ⟨e, he, -, hw, ⟨-, ho⟩ | ⟨-, ho⟩ | ⟨her, hb, ho⟩⟩
  · rw [ho]; exact Or.inl rfl
  · rw [ho]; exact Or.inl rfl
  · rw [ho]; exact Or.inl rfl
  · rw [ho]; exact Or.inl rfl
  · simp only [writesTo, Bool.and_eq_true] at hw
    have hs := survives h hfl he her
    have hnew : s.newRob = [s.issuedRob d] := by rw [newRob, hd]; rfl
    rw [ho, hnew]
    refine Or.inr ⟨?_, s.finish e, List.mem_append_left _ hs, finish_tag e, ?_, ?_⟩
    · have hb : Before (·.tag) (s.survivors ++ [s.issuedRob d]) (s.finish e).tag (s.issuedRob d).tag := before_append hs
      rw [finish_tag] at hb
      exact hb
    · rw [finish, (ReorderBuffer.finish_frame _ _ e).2.2.2.1]
      exact hw.1
    · rw [finish_ready h he, her, finishes_writer h he hw.1, hb]
      rfl

theorem selectOperand_awaits {l : List RobEntry} {t : RobTag} {x : Operand} (h : Awaits l t x) (src : OperandSource)
    (imm : Word) (pc : Address) : Awaits l t (IssueUnit.selectOperand src x imm pc) := by
  cases src with
  | immediate => exact Or.inl rfl
  | register => exact h
  | programCounter => exact Or.inl rfl
  | zero => exact Or.inl rfl

theorem mem_newRs {e : RsEntry} (he : e ∈ s.newRs) :
    ∃ d, s.issuing = some d ∧ d.decoded.op.isAlu = true ∧ e = s.issuedRs d := by
  unfold newRs at he
  cases hd : s.issuing with
  | none => rw [hd] at he; cases he
  | some d =>
    by_cases ha : d.decoded.op.isAlu = true
    · exact ⟨d, rfl, ha, by simpa [hd, Option.filter, ha] using he⟩
    · simp [hd, Option.filter, ha] at he

/-- Each station entry of the next cycle is one that stays, woken, or the issued one. -/
theorem mem_tick_waiting (hrun : s.status = .running) {e : RsEntry} (he : e ∈ s.tick.rs.waiting) :
    s.flush = false ∧ ((∃ x ∈ s.rs.waiting, e = ReservationStation.wake s.broadcast x) ∨
      ∃ d, s.issuing = some d ∧ d.decoded.op.isAlu = true ∧ e = s.issuedRs d) := by
  by_cases hfl : s.flush = true
  · rw [tick_rs_flush hrun hfl] at he; cases he
  · have hfl : s.flush = false := by simpa using hfl
    refine ⟨hfl, ?_⟩
    obtain ⟨rest, hold, hnew⟩ := tick_rs hrun hfl
    rcases List.mem_append.mp (hnew.mem_iff.mp he) with he | he
    · exact Or.inr (mem_newRs he)
    · obtain ⟨x, hx, rfl⟩ := List.mem_map.mp he
      exact Or.inl ⟨x, hold.mem_iff.mpr (List.mem_append_right _ hx), rfl⟩

theorem rsOperands_tick (h : Inv s) (hrun : s.status = .running) : ∀ e ∈ s.tick.rs.waiting,
    Awaits s.tick.rob.live e.destination e.lhs ∧ Awaits s.tick.rob.live e.destination e.rhs := by
  intro e he
  rw [(tick_rob hrun h.rob).2]
  obtain ⟨hfl, ⟨x, hx, rfl⟩ | ⟨d, hd, -, rfl⟩⟩ := mem_tick_waiting hrun he
  · obtain ⟨hl, hr⟩ := h.rsOperands x hx
    exact ⟨awaits_append (awaits_survivors h hfl hl) _, awaits_append (awaits_survivors h hfl hr) _⟩
  · have hdec := (issuing_some hd).decoded
    exact ⟨selectOperand_awaits (operand_awaits h hd hdec.rs1_lt) _ _ _,
      selectOperand_awaits (operand_awaits h hd hdec.rs2_lt) _ _ _⟩

theorem lsqOperands_tick (h : Inv s) (hrun : s.status = .running) : ∀ e ∈ s.tick.lsq.queue,
    Awaits s.tick.rob.live e.destination e.base ∧
      (e.type = .store → Awaits s.tick.rob.live e.destination e.storeData) := by
  intro e he
  rw [(tick_rob hrun h.rob).2]
  have hcarried : s.flush = false → ∀ x ∈ s.lsq.queue, ∀ b,
      Awaits (s.survivors ++ s.newRob) (s.carried b x).destination (s.carried b x).base ∧
        ((s.carried b x).type = .store →
          Awaits (s.survivors ++ s.newRob) (s.carried b x).destination (s.carried b x).storeData) := by
    intro hfl x hx b
    obtain ⟨hb, hst⟩ := h.lsqOperands x hx
    obtain ⟨hdest, -, hty, -, -, hbase, hdata⟩ := carried_frame s b x
    rw [hdest, hty, hbase, hdata]
    refine ⟨awaits_append (awaits_survivors h hfl hb) _, fun ht => ?_⟩
    rw [if_pos ht]
    exact awaits_append (awaits_survivors h hfl (hst ht)) _
  obtain ⟨hfl, ⟨x, rest, hq, -, rfl⟩ | ⟨x, hx, rfl⟩ | ⟨d, hd, hm, rfl⟩⟩ := mem_tick_queue h hrun he
  · exact hcarried hfl x (by rw [hq]; exact List.mem_cons_self) _
  · exact hcarried hfl x (List.mem_of_mem_tail hx) _
  · have hdec := (issuing_some hd).decoded
    obtain ⟨hdest, -, hty, -, -, hbase, hdata⟩ := LoadStoreQueue.updateAddress_frame (s.issuedLsq d)
    rw [hdest, hty, hbase, hdata]
    refine ⟨operand_awaits h hd hdec.rs1_lt, fun ht => ?_⟩
    show Awaits _ _ (if d.decoded.isStore = true then s.operand d.decoded.rs2 else IssueUnit.readyOperand 0)
    split
    · exact operand_awaits h hd hdec.rs2_lt
    · exact Or.inl rfl

end Core

end TomasuloCpu
