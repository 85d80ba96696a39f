/-
  TomasuloCpu.Tomasulo.FetchStream — the pcs of the reorder buffer.

  The live entries form one path: each entry's pc is its predecessor's predicted next pc,
  and the fetch goes on behind the youngest. A flush restarts the path at the next pc of
  the committing instruction, so the path always starts where the committed program goes
  on (`head_tick`). Only HALT stops the fetch, and it is then the youngest entry.
-/
import TomasuloCpu.Tomasulo.InOrder
import TomasuloCpu.Tomasulo.Reachable

namespace TomasuloCpu

/-- Where the program goes on behind a finished entry. -/
def RobEntry.successor (e : RobEntry) : Address := if e.isBranch || e.isJump then e.actualNextPc else e.pc + 4

namespace Core

variable {s : Core} {i : Nat} {e : RobEntry} {pc : Address}

/-! ## The pcs after the edge -/

theorem finish_predicted (x : RobEntry) : (s.finish x).predictedNextPc = x.predictedNextPc := by
  unfold finish ReorderBuffer.finish ReorderBuffer.complete ReorderBuffer.storeComplete ReorderBuffer.completeEntry
  repeat' split
  all_goals rfl

/-- Where the next fetch goes. -/
theorem pc_tick (hrun : s.status = .running) (hfl : s.flush = false) :
    s.tick.pc = (s.issuing.map (·.predictedPc)).getD s.pc := by
  rw [tick_eq hrun]
  show s.nextPc s.outs = _
  rw [nextPc, outs_flush, hfl, if_neg (by simp), issueEffective_iff]
  cases hd : s.issuing with
  | none => rfl
  | some d =>
    rw [(issuing_some hd).issue]
    rfl

theorem pc_tick_flush (hrun : s.status = .running) (hw : s.rob.Wf) (hfl : s.flush = true) {x : RobEntry}
    (hx : s.rob.live.head? = some x) : s.tick.pc = x.actualNextPc := by
  obtain ⟨y, hy, hr, hcontrol, hne⟩ := (flush_iff hw).mp hfl
  obtain rfl := Option.some.inj (hx.symm.trans hy)
  rw [tick_eq hrun]
  show s.nextPc s.outs = _
  rw [nextPc, outs_flush, hfl, if_pos rfl, outs_rob]
  have hflush : (ReorderBuffer.plan s.rob).outputs.flush = true := by rw [← outs_rob, outs_flush, hfl]
  simp only [ReorderBuffer.plan, ReorderBuffer.front_eq hw, hx, ReorderBuffer.planCommit, hr, if_true] at hflush ⊢
  rw [if_pos hflush]

/-- Without a flush the pcs move up with the entries. -/
theorem pcAt_tick (hrun : s.status = .running) (hw : s.rob.Wf) (hfl : s.flush = false)
    (hle : i + s.shift ≤ s.rob.live.length) : s.tick.pcAt i = s.pcAt (i + s.shift) := by
  unfold pcAt
  rw [live_tick hrun hw hfl, pc_tick hrun hfl]
  cases hx : s.rob.live[i + s.shift]? with
  | some x => exact finish_pc x
  | none =>
    have hlen := List.getElem?_eq_none_iff.mp hx
    rw [if_pos (by omega)]
    cases hd : s.issuing with
    | none => rfl
    | some d => exact (issuing_some hd).pc

theorem chain_tick (h : ∀ i e, s.rob.live[i]? = some e → s.pcAt (i + 1) = e.predictedNextPc)
    (hrun : s.status = .running) (hw : s.rob.Wf)
    (he : s.tick.rob.live[i]? = some e) : s.tick.pcAt (i + 1) = e.predictedNextPc := by
  obtain ⟨hfl, ⟨x, hx, rfl⟩ | ⟨hlen, d, hd, rfl⟩⟩ := live_tick_cases hrun hw he
  · have hlt := (List.getElem?_eq_some_iff.mp hx).1
    rw [pcAt_tick hrun hw hfl (by omega), finish_predicted, ← h _ x hx]
    congr 1
    omega
  · have hend : s.tick.rob.live.length ≤ i + 1 := by
      refine List.getElem?_eq_none_iff.mp ?_
      rw [live_tick hrun hw hfl, List.getElem?_eq_none (by omega), if_neg (by omega)]
      rfl
    rw [pcAt_end hend, pc_tick hrun hfl, hd]
    rfl

theorem predicted_tick
    (h : ∀ e ∈ s.rob.live, (e.isBranch || e.isJump) = false → e.predictedNextPc = e.pc + 4)
    (hrun : s.status = .running) (hw : s.rob.Wf) (he : e ∈ s.tick.rob.live) (hc : (e.isBranch || e.isJump) = false) :
    e.predictedNextPc = e.pc + 4 := by
  rcases mem_tick_live hrun hw he with ⟨-, x, hx, rfl⟩ | ⟨d, hd, rfl⟩
  · obtain ⟨-, -, -, -, -, hbr, -, hju⟩ := ReorderBuffer.finish_frame s.completion s.storeDone x
    rw [finish, hbr, hju] at hc
    rw [finish_predicted, finish_pc, h x hx hc]
  · have hi := issuing_some hd
    have hc : (d.decoded.isBranch || d.decoded.isJump) = false := hc
    show d.predictedPc = d.pc + 4
    rw [Bool.or_eq_false_iff] at hc
    have hj : d.decoded.op ≠ .jal := by
      intro hj
      have := hc.2
      rw [hi.decoded.jump, hj] at this
      cases this
    rw [hi.predicted, predictedNextPc, if_neg (by simp [hc.1]), if_neg hj, hi.pc]
    rfl

/-! ## The stream -/

/-- Only an issued HALT stops the fetch, and a flush lets it go on. -/
theorem fetchStopped_eq (hrun : s.status = .running) :
    s.tick.fetchStopped = (!s.flush && (s.issuing.any (·.decoded.op == .halt) || s.fetchStopped)) := by
  have htick : s.tick.fetchStopped = s.nextFetchStopped s.outs := by rw [tick_eq hrun]
  rw [htick, nextFetchStopped, outs_flush, issueEffective_iff]
  cases s.flush with
  | true => rfl
  | false =>
    cases hd : s.issuing with
    | none => rfl
    | some d =>
      rw [(issuing_some hd).issue]
      show (if (true && d.decoded.op == .halt) = true then true else s.fetchStopped) = _
      by_cases hop : d.decoded.op = .halt
      · simp [hop]
      · simp [hop]

theorem fetchStopped_tick (hrun : s.status = .running) (hst : s.tick.fetchStopped = true) :
    s.flush = false ∧ (s.fetchStopped = true ∨ ∃ d, s.issuing = some d ∧ d.decoded.op = .halt) := by
  rw [fetchStopped_eq hrun, Bool.and_eq_true, Bool.not_eq_true', Bool.or_eq_true, Option.any_eq_true] at hst
  obtain ⟨hfl, ⟨d, hd, hop⟩ | hold⟩ := hst
  · exact ⟨hfl, Or.inr ⟨d, hd, by simpa using hop⟩⟩
  · exact ⟨hfl, Or.inl hold⟩

structure FetchStream (s : Core) : Prop where
  chain : ∀ i e, s.rob.live[i]? = some e → s.pcAt (i + 1) = e.predictedNextPc
  predicted : ∀ e ∈ s.rob.live, (e.isBranch || e.isJump) = false → e.predictedNextPc = e.pc + 4
  halt : ∀ i e, s.rob.live[i]? = some e → e.op = .halt → i + 1 = s.rob.live.length ∧ s.fetchStopped = true
  stopped : s.fetchStopped = true → ∃ e, s.rob.live.getLast? = some e ∧ e.op = .halt

/-- A stopped fetch issues nothing. -/
theorem issuing_stopped (hst : s.fetchStopped = true) : s.issuing = none := by
  cases hd : s.issuing with
  | none => rfl
  | some d =>
    have := (issuing_some hd).fetching
    rw [hst] at this
    cases this

theorem length_tick (hrun : s.status = .running) (hw : s.rob.Wf) (hfl : s.flush = false) :
    s.tick.rob.live.length = s.rob.live.length - s.shift + s.issuing.toList.length := by
  rw [(tick_rob hrun hw).2, List.length_append, length_survivors hfl]
  cases hd : s.issuing with
  | none => simp [newRob, hd]
  | some d => simp [newRob, hd]

theorem halt_tick (h : FetchStream s) (hrun : s.status = .running) (hw : s.rob.Wf)
    (he : s.tick.rob.live[i]? = some e) (hop : e.op = .halt) :
    i + 1 = s.tick.rob.live.length ∧ s.tick.fetchStopped = true := by
  obtain ⟨hfl, ⟨x, hx, rfl⟩ | ⟨hlen, d, hd, rfl⟩⟩ := live_tick_cases hrun hw he
  · rw [finish_op] at hop
    obtain ⟨hlast, hst⟩ := h.halt _ x hx hop
    rw [length_tick hrun hw hfl, issuing_stopped hst, fetchStopped_eq hrun, hfl, hst, Bool.or_true]
    refine ⟨?_, rfl⟩
    show i + 1 = s.rob.live.length - s.shift + 0
    omega
  · have hhalt : d.decoded.op = .halt := hop
    rw [length_tick hrun hw hfl, fetchStopped_eq hrun, hfl, hd]
    refine ⟨?_, by simp [hhalt]⟩
    show i + 1 = s.rob.live.length - s.shift + 1
    omega

theorem stopped_tick (h : FetchStream s) (hi : Inv s) (hrun : s.status = .running) (hh : s.halts = false)
    (hst : s.tick.fetchStopped = true) : ∃ e, s.tick.rob.live.getLast? = some e ∧ e.op = .halt := by
  obtain ⟨hfl, hold | ⟨d, hd, hop⟩⟩ := fetchStopped_tick hrun hst
  · obtain ⟨y, hy, hop⟩ := h.stopped hold
    have hnew : s.newRob = [] := by simp [newRob, issuing_stopped hold]
    refine ⟨s.finish y, ?_, by rw [finish_op, hop]⟩
    rw [(tick_rob hrun hi.rob).2, hnew, List.append_nil]
    rcases survivors_cases hi.rob hfl with ⟨z, t, hl, hr, -, hsurv⟩ | ⟨-, -, hsurv⟩
    · have hz : s.rob.live.head? = some z := by rw [hl]; rfl
      cases t with
      | nil =>
        -- the only entry commits: it would be the HALT
        rw [hl, List.getLast?_singleton, Option.some.injEq] at hy
        rw [halts_eq hi hz hr, hy, hop] at hh
        cases hh
      | cons a t =>
        rw [hl, List.getLast?_cons_cons] at hy
        rw [hsurv, List.getLast?_map, hy]
        rfl
    · rw [hsurv, List.getLast?_map, hy]
      rfl
  · refine ⟨s.issuedRob d, ?_, hop⟩
    rw [(tick_rob hrun hi.rob).2]
    simp [newRob, hd]

theorem FetchStream.tick (h : FetchStream s) (hi : Inv s) (hrun : s.status = .running) (hh : s.halts = false) :
    FetchStream s.tick where
  chain _ _ he := chain_tick h.chain hrun hi.rob he
  predicted _ he hc := predicted_tick h.predicted hrun hi.rob he hc
  halt _ _ he hop := halt_tick h hrun hi.rob he hop
  stopped hst := stopped_tick h hi hrun hh hst

theorem FetchStream.reset (image : MemoryImage) (status : Status) (predictor : PredictorState) :
    FetchStream { Core.reset image status with predictor := predictor } := by
  have hlive := (reset_empty image status).1
  refine ⟨fun i e he => ?_, fun e he => ?_, fun i e he => ?_, fun hst => ?_⟩
  · rw [hlive] at he; cases he
  · rw [hlive] at he; cases he
  · rw [hlive] at he; cases he
  · cases hst

/-- The stream starts where the committed program goes on. -/
theorem head_tick (hchain : ∀ i e, s.rob.live[i]? = some e → s.pcAt (i + 1) = e.predictedNextPc)
    (hpred : ∀ e ∈ s.rob.live, (e.isBranch || e.isJump) = false → e.predictedNextPc = e.pc + 4) (hi : Inv s)
    (hrun : s.status = .running) : s.tick.pcAt 0 = if s.committing then s.commit.entry.successor else s.pcAt 0 := by
  by_cases hc : s.committing = true
  · obtain ⟨x, hx, hr⟩ := (committing_iff hi.rob).mp hc
    have hx0 : s.rob.live[0]? = some x := by rw [← List.head?_eq_getElem?]; exact hx
    have hshift : s.shift = 1 := if_pos hc
    rw [if_pos hc, (commit_entry hi.rob hx hr).1]
    by_cases hfl : s.flush = true
    · obtain ⟨y, hy, -, hcontrol, -⟩ := (flush_iff hi.rob).mp hfl
      obtain rfl := Option.some.inj (hx.symm.trans hy)
      rw [pcAt_end (by rw [live_flush hrun hi.rob hfl]; exact Nat.le_refl 0), pc_tick_flush hrun hi.rob hfl hx,
        RobEntry.successor, if_pos hcontrol]
    · have hfl : s.flush = false := by simpa using hfl
      have hle := shift_le hi.rob
      rw [pcAt_tick hrun hi.rob hfl (by omega), hshift, hchain 0 x hx0, RobEntry.successor]
      by_cases hcontrol : (x.isBranch || x.isJump) = true
      · rw [if_pos hcontrol]
        by_contra hne
        have : s.flush = true := (flush_iff hi.rob).mpr ⟨x, hx, hr, hcontrol, hne⟩
        rw [hfl] at this
        cases this
      · rw [if_neg hcontrol, hpred x (List.mem_of_mem_head? hx) (by simpa using hcontrol)]
  · have hfl : s.flush = false := by
      by_contra hfl
      exact hc (committing_of_flush (by simpa using hfl))
    have hshift : s.shift = 0 := if_neg hc
    rw [if_neg hc, pcAt_tick hrun hi.rob hfl (by omega), hshift]

end Core

end TomasuloCpu
