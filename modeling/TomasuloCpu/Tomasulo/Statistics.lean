/-
  TomasuloCpu.Tomasulo.Statistics — the counters, from the commit log.

  The predictor is a fold over the committed entries (`predictor_follows`), so nothing that
  is squashed trains it or is counted. A flush commits a control instruction whose
  prediction was wrong: a branch adds to `branch_count` alone, a JAL is never one of them,
  for it is predicted to the target it computes (`JumpsPredicted`), and a JALR is one when
  it does not jump to its own fall-through.
-/
import TomasuloCpu.Tomasulo.CommitLog
import TomasuloCpu.Tomasulo.Retirement

namespace TomasuloCpu

open Keyed

/-- What a committed entry tells the predictor. -/
def RobEntry.training (e : RobEntry) : BranchPredictorUpdate :=
  if e.isBranch then
    { pc := e.pc, actualTaken := e.branchTaken, predictedNextPc := e.predictedNextPc
      actualNextPc := e.actualNextPc, valid := true }
  else {}

/-- The predictor after the entries of a log. -/
def BranchPredictor.trained (log : List RobEntry) : PredictorState :=
  log.foldl (fun s e => step s e.training) resetState

namespace BranchPredictor

/-- The same, from other contents. -/
def trainedFrom (s : PredictorState) (log : List RobEntry) : PredictorState :=
  log.foldl (fun s e => step s e.training) s

variable {log : List RobEntry}

theorem trainedFrom_append (s : PredictorState) (log : List RobEntry) (next : Option RobEntry) :
    trainedFrom s (log ++ next.toList) =
      (next.map fun e => step (trainedFrom s log) e.training).getD (trainedFrom s log) := by
  cases next with
  | none => simp
  | some e => simp [trainedFrom, List.foldl_append]

theorem step_training (s : PredictorState) (e : RobEntry) :
    (step s e.training).predictionCount = s.predictionCount + BitVec.ofNat 64 (if e.isBranch then 1 else 0) ∧
      (step s e.training).correctCount =
        s.correctCount + BitVec.ofNat 64 (if e.isBranch && e.predictedNextPc == e.actualNextPc then 1 else 0) := by
  cases hb : e.isBranch with
  | false => simp [RobEntry.training, hb, step]
  | true =>
    by_cases hc : e.predictedNextPc = e.actualNextPc
    · simp [RobEntry.training, hb, step, hc]
    · simp [RobEntry.training, hb, step, hc]

theorem trainedFrom_counts (s : PredictorState) (log : List RobEntry) :
    (trainedFrom s log).predictionCount = s.predictionCount + BitVec.ofNat 64 (log.countP (·.isBranch)) ∧
      (trainedFrom s log).correctCount = s.correctCount +
        BitVec.ofNat 64 (log.countP fun e => e.isBranch && e.predictedNextPc == e.actualNextPc) := by
  induction log using List.reverseRecOn with
  | nil => exact ⟨(BitVec.add_zero _).symm, (BitVec.add_zero _).symm⟩
  | append_singleton log e ih =>
    have happ := trainedFrom_append s log (some e)
    obtain ⟨hcount, hcorrect⟩ := step_training (trainedFrom s log) e
    simp only [Option.toList_some, Option.map_some, Option.getD_some] at happ
    rw [happ, List.countP_append, List.countP_append, List.countP_singleton, List.countP_singleton, hcount, hcorrect,
      ih.1, ih.2, BitVec.ofNat_add, BitVec.ofNat_add, BitVec.add_assoc, BitVec.add_assoc]
    exact ⟨rfl, rfl⟩

theorem trained_counts (log : List RobEntry) :
    (trained log).predictionCount = BitVec.ofNat 64 (log.countP (·.isBranch)) ∧
      (trained log).correctCount =
        BitVec.ofNat 64 (log.countP fun e => e.isBranch && e.predictedNextPc == e.actualNextPc) := by
  obtain ⟨hcount, hcorrect⟩ := trainedFrom_counts resetState log
  exact ⟨hcount.trans (BitVec.zero_add _), hcorrect.trans (BitVec.zero_add _)⟩

end BranchPredictor

namespace Core

variable {s : Core} {tr : Nat → Core} {n : Nat} {x : RobEntry}

/-! ## The counters follow the log -/

theorem predictor_tick (hrun : s.status = .running) :
    s.tick.predictor = (s.committed.map fun e => BranchPredictor.step s.predictor e.training).getD s.predictor := by
  have htick : s.tick.predictor = BranchPredictor.step s.predictor (predictorUpdate s.outs) := by rw [tick_eq hrun]
  have hupdate : predictorUpdate s.outs = if s.committing && s.commit.entry.isBranch then
      { pc := s.commit.entry.pc, actualTaken := s.commit.entry.branchTaken
        predictedNextPc := s.commit.entry.predictedNextPc, actualNextPc := s.commit.entry.actualNextPc, valid := true }
      else {} := rfl
  rw [htick, hupdate, committed]
  by_cases hc : s.committing = true
  · rw [if_pos (⟨hrun, hc⟩ : s.status = .running ∧ s.committing = true), hc, Bool.true_and]
    rfl
  · rw [if_neg (by simp [hc]), if_neg fun hr => hc hr.2]
    rfl

theorem predictor_follows (h : IsRun tr) (n : Nat) :
    (tr n).predictor = BranchPredictor.trainedFrom (tr 0).predictor (commitLog tr n) := by
  induction n with
  | zero => rfl
  | succ n ih =>
    rw [h.step, commitLog, BranchPredictor.trainedFrom_append]
    by_cases hrun : (tr n).status = .running
    · rw [predictor_tick hrun, ih]
    · rw [tick_of_stopped hrun, committed_none.mpr (Or.inl hrun), ih]
      rfl

theorem mem_commitLog (hx : x ∈ commitLog tr n) : ∃ k < n, (tr k).committed = some x := by
  induction n with
  | zero => cases hx
  | succ n ih =>
    rcases List.mem_append.mp hx with hx | hx
    · obtain ⟨k, hk, hc⟩ := ih hx
      exact ⟨k, Nat.lt_succ_of_lt hk, hc⟩
    · exact ⟨n, Nat.lt_succ_self n, by simpa using hx⟩

theorem length_commitLog_le (tr : Nat → Core) (n : Nat) : (commitLog tr n).length ≤ n := by
  induction n with
  | zero => exact Nat.le_refl 0
  | succ n ih =>
    rw [commitLog, List.length_append]
    have : (tr n).committed.toList.length ≤ 1 := by cases (tr n).committed <;> simp
    omega

/-- HALT does not count. -/
theorem retires_eq (h : Inv s) : s.retires = s.committed.toList.countP (·.op != .halt) := by
  by_cases hrun : s.status = .running
  · cases hc : s.committed with
    | none =>
      have hidle : s.committing = false := by
        rcases committed_none.mp hc with hs | hs
        · exact absurd hrun hs
        · exact hs
      rw [retires_idle hidle]
      rfl
    | some x =>
      obtain ⟨-, hcm, hx, hr⟩ := committed_some h hc
      by_cases hop : x.op = .halt
      · have hh : s.halts = true := by rw [halts_eq h hx hr, hop]; rfl
        rw [retires_halts hh]
        simp [hop]
      · have hh : s.halts = false := by rw [halts_eq h hx hr]; simpa using hop
        rw [retires_running hrun hh, shift, if_pos hcm]
        simp [hop]
  · rw [retires_stopped hrun, committed_none.mpr (Or.inl hrun)]
    rfl

theorem retired_eq (h : IsRun tr) (n : Nat) : retired tr n = (commitLog tr n).countP (·.op != .halt) := by
  induction n with
  | zero => rfl
  | succ n ih => rw [retired, commitLog, List.countP_append, ih, retires_eq (h.inv n)]

/-! ## Jumps -/

/-- A JAL is predicted to the target it computes, a JALR to its fall-through. -/
structure JumpsPredicted (s : Core) : Prop where
  station : ∀ e ∈ s.rs.waiting, e.op = .jal → ∀ x ∈ s.rob.live, x.tag = e.destination →
    x.predictedNextPc = e.pc + e.immediate
  unit : s.fu.valid = true → ∀ x ∈ s.rob.live, x.tag = s.fu.tag → x.op = .jal →
    s.fu.hasControlResult = true ∧ s.fu.actualNextPc = x.predictedNextPc
  entry : ∀ x ∈ s.rob.live, x.op = .jal → x.ready = true → x.actualNextPc = x.predictedNextPc
  jalr : ∀ x ∈ s.rob.live, x.op = .jalr → x.predictedNextPc = x.pc + 4

theorem jumps_station (h : JumpsPredicted s) (hi : Inv s) (hrun : s.status = .running) {e : RsEntry}
    (he : e ∈ s.tick.rs.waiting) (hop : e.op = .jal) (hx : x ∈ s.tick.rob.live) (ht : x.tag = e.destination) :
    x.predictedNextPc = e.pc + e.immediate := by
  obtain ⟨-, ⟨y, hy, rfl⟩ | ⟨d, hd, -, rfl⟩⟩ := mem_tick_waiting hrun he
  · obtain ⟨z, hz, hzt, -⟩ := hi.station_entry hy
    have hxz := mem_tick_old hi hrun hx hz (ht.trans hzt.symm)
    rw [hxz, finish_predicted]
    exact h.station y hy hop z hz hzt
  · have hop : d.decoded.op = .jal := hop
    have hiss := issuing_some hd
    rcases mem_tick_live hrun hi.rob hx with ⟨-, z, hz, rfl⟩ | ⟨d', hd', rfl⟩
    · have hmem : s.newTag ∈ RobState.tags s.rob.live := List.mem_map.mpr ⟨z, hz, by rw [← finish_tag]; exact ht⟩
      exact absurd hmem (newTag_fresh hi.rob (by rw [hd]; rfl))
    · rw [hd, Option.some.injEq] at hd'
      subst hd'
      show d.predictedPc = d.pc + d.decoded.immediate
      rw [hiss.predicted, predictedNextPc, if_neg (by simp [hiss.decoded.branch, hop, Op.isBranch]), if_pos hop, hiss.pc]

theorem jumps_unit (h : JumpsPredicted s) (hi : Inv s) (hrun : s.status = .running) (hv : s.tick.fu.valid = true)
    (hx : x ∈ s.tick.rob.live) (ht : x.tag = s.tick.fu.tag) (hop : x.op = .jal) :
    s.tick.fu.hasControlResult = true ∧ s.tick.fu.actualNextPc = x.predictedNextPc := by
  obtain ⟨-, ⟨hfu, heq⟩ | ⟨e, hd, heq⟩⟩ := fu_tick_cases hi hrun hv
  · rw [heq] at ht ⊢
    obtain ⟨z, hz, -, hzt⟩ := mem_pending.mp (hi.fu_pending hfu)
    have hxz := mem_tick_old hi hrun hx hz (ht.trans hzt.symm)
    rw [hxz, finish_op] at hop
    rw [hxz, finish_predicted]
    exact h.unit hfu z hz hzt hop
  · obtain ⟨he, -⟩ := departing_mem hd
    obtain ⟨-, hct, hctl⟩ := computed_spec (departing_alu hi hd)
    obtain ⟨z, hz, hzt, hzop, -⟩ := hi.station_entry he
    rw [heq] at ht ⊢
    rw [hct] at ht
    have hxz := mem_tick_old hi hrun hx hz (ht.trans hzt.symm)
    rw [hxz, finish_op, hzop] at hop
    rw [hxz, finish_predicted, h.station e he hop z hz hzt, hctl, hop]
    refine ⟨rfl, ?_⟩
    unfold computed
    rw [FunctionalUnit.executeInstruction, ReservationStation.makeExecute, hop]
    rfl

theorem jumps_entry (h : JumpsPredicted s) (hi : Inv s) (hrun : s.status = .running) (hx : x ∈ s.tick.rob.live)
    (hop : x.op = .jal) (hr : x.ready = true) : x.actualNextPc = x.predictedNextPc := by
  rcases mem_tick_live hrun hi.rob hx with ⟨-, z, hz, rfl⟩ | ⟨d, hd, rfl⟩
  · rw [finish_op] at hop
    cases hzr : z.ready with
    | true =>
      rw [finish_of_ready hi hz hzr]
      exact h.entry z hz hop hzr
    | false =>
      obtain ⟨hv, ht, hc⟩ := finished_by_unit hi hz (by rw [hop]; rfl) hzr hr
      obtain ⟨hctl, hpc⟩ := h.unit hv z hz ht hop
      have hcv : s.completion.valid = true := by rw [hc]; exact hv
      rw [(finish_completed hcv (by rw [hc]; exact ht)).2 (by rw [hc]; exact hctl), hc, finish_predicted, hpc]
  · have hready : (d.decoded.op == .halt) = true := hr
    have hop : d.decoded.op = .jal := hop
    rw [hop] at hready
    cases hready

theorem jumps_jalr (h : JumpsPredicted s) (hi : Inv s) (hrun : s.status = .running) (hx : x ∈ s.tick.rob.live)
    (hop : x.op = .jalr) : x.predictedNextPc = x.pc + 4 := by
  rcases mem_tick_live hrun hi.rob hx with ⟨-, z, hz, rfl⟩ | ⟨d, hd, rfl⟩
  · rw [finish_op] at hop
    rw [finish_predicted, finish_pc]
    exact h.jalr z hz hop
  · have hiss := issuing_some hd
    have hop : d.decoded.op = .jalr := hop
    show d.predictedPc = d.pc + 4
    rw [hiss.predicted, predictedNextPc, if_neg (by simp [hiss.decoded.branch, hop, Op.isBranch]),
      if_neg (by simp [hop]), hiss.pc]
    rfl

theorem JumpsPredicted.tick (h : JumpsPredicted s) (hi : Inv s) : JumpsPredicted s.tick := by
  by_cases hrun : s.status = .running
  · exact ⟨fun e he hop x hx ht => jumps_station h hi hrun he hop hx ht,
      fun hv x hx ht hop => jumps_unit h hi hrun hv hx ht hop, fun x hx hop hr => jumps_entry h hi hrun hx hop hr,
      fun x hx hop => jumps_jalr h hi hrun hx hop⟩
  · rw [tick_of_stopped hrun]
    exact h

theorem IsRun.jumps (h : IsRun tr) (n : Nat) : JumpsPredicted (tr n) := by
  induction n with
  | zero =>
    obtain ⟨counters, input, h0⟩ := h.start
    obtain ⟨hlive, hrs, -⟩ := reset_empty (MemoryImage.load input).2
      (if (MemoryImage.load input).1.ok then .running else .loadError)
    rw [h0, loadedWith, loaded]
    refine ⟨fun e he => ?_, fun hv => ?_, fun x hx => ?_, fun x hx => ?_⟩
    · rw [hrs] at he; cases he
    · cases hv
    · rw [hlive] at hx; cases hx
    · rw [hlive] at hx; cases hx
  | succ n ih =>
    rw [h.step]
    exact ih.tick (h.inv n)

/-! ## Redirects -/

/-- The cycle flushes. -/
def redirects (s : Core) : Bool := s.status == .running && s.flush

/-- A cycle flushes when it commits a control instruction with a wrong prediction. -/
theorem redirects_eq (h : Inv s) :
    s.redirects = s.committed.any fun x => (x.isBranch || x.isJump) && x.predictedNextPc != x.actualNextPc := by
  unfold redirects
  cases hc : s.committed with
  | none =>
    rw [Option.any_none, Bool.and_eq_false_iff]
    rcases committed_none.mp hc with hs | hs
    · exact Or.inl (by simpa using hs)
    · refine Or.inr ?_
      by_contra hfl
      rw [committing_of_flush (by simpa using hfl)] at hs
      cases hs
  | some x =>
    obtain ⟨hrun, -, hx, hr⟩ := committed_some h hc
    rw [hrun, Option.any_some, beq_self_eq_true, Bool.true_and, Bool.eq_iff_iff, flush_iff h.rob, Bool.and_eq_true,
      bne_iff_ne]
    constructor
    · rintro ⟨y, hy, -, hcontrol, hne⟩
      rw [hx, Option.some.injEq] at hy
      rw [hy]
      exact ⟨hcontrol, hne⟩
    · rintro ⟨hcontrol, hne⟩
      exact ⟨x, hx, hr, hcontrol, hne⟩

/-- The flush cycles of branches, counted in the log. -/
theorem branchRedirects_eq (h : IsRun tr) (n : Nat) :
    ((List.range n).countP fun k => (tr k).redirects && (tr k).commit.entry.isBranch) =
      (commitLog tr n).countP fun x => x.isBranch && x.predictedNextPc != x.actualNextPc := by
  induction n with
  | zero => rfl
  | succ n ih =>
    rw [List.range_succ, List.countP_append, ih, commitLog, List.countP_append, List.countP_singleton,
      redirects_eq (h.inv n)]
    congr 1
    cases hc : (tr n).committed with
    | none => rfl
    | some x =>
      have hentry : (tr n).commit.entry = x := by
        obtain ⟨-, -, hx, hr⟩ := committed_some (h.inv n) hc
        exact (commit_entry (h.inv n).rob hx hr).1
      rw [hentry, Option.any_some, Option.toList_some, List.countP_singleton]
      cases x.isBranch <;> simp

theorem countP_split (log : List RobEntry) :
    (log.countP (·.isBranch)) = (log.countP fun x => x.isBranch && x.predictedNextPc == x.actualNextPc) +
      log.countP fun x => x.isBranch && x.predictedNextPc != x.actualNextPc := by
  induction log with
  | nil => rfl
  | cons x log ih =>
    rw [List.countP_cons, List.countP_cons, List.countP_cons, ih]
    cases x.isBranch with
    | false => simp
    | true =>
      by_cases hc : x.predictedNextPc = x.actualNextPc
      · simp [hc]; omega
      · simp [hc]; omega

/-- The committing cycle's instruction was never squashed and never will be. -/
theorem committed_id (h : IsRun tr) {k : Nat} (hx : (tr k).committed = some x) :
    ∃ id, Commits tr k id ∧ tagOf tr id = x.tag ∧ ∀ j, ¬ Flushes tr j id := by
  obtain ⟨hrun, hc, hhead, -⟩ := committed_some (h.inv k) hx
  obtain ⟨id, hid, ht⟩ := head_id h hhead
  have hcommits : Commits tr k id := ⟨hrun, hc, hid⟩
  exact ⟨id, hcommits, ht, fun j hf => hcommits.not_flushes hf⟩

/-- What a flush commits besides a branch. -/
theorem redirects_jump (h : IsRun tr) {k : Nat} (hr : (tr k).redirects = true) :
    (tr k).commit.entry.op ≠ .jal ∧ ((tr k).commit.entry.isBranch = false →
      (tr k).commit.entry.op = .jalr ∧ (tr k).commit.entry.actualNextPc ≠ (tr k).commit.entry.pc + 4) := by
  have hi := h.inv k
  rw [redirects_eq hi, Option.any_eq_true] at hr
  obtain ⟨x, hx, hwrong⟩ := hr
  obtain ⟨-, -, hhead, hready⟩ := committed_some hi hx
  rw [(commit_entry hi.rob hhead hready).1]
  rw [Bool.and_eq_true, bne_iff_ne] at hwrong
  have hmem := List.mem_of_mem_head? hhead
  have hok := hi.entry x hmem
  have hjal : x.op ≠ .jal := fun hop => hwrong.2 ((h.jumps k).entry x hmem hop hready).symm
  refine ⟨hjal, fun hb => ?_⟩
  have hjump : x.op.isJump = true := by
    rw [← hok.jump]
    simpa [hb] using hwrong.1
  have hop : x.op = .jalr := by
    cases hop : x.op <;> simp [hop, Op.isJump] at hjump hjal
    rfl
  exact ⟨hop, fun hpc => hwrong.2 (by rw [(h.jumps k).jalr x hmem hop, hpc])⟩

end Core

namespace Cpu

open TomasuloCpu.Core

/-- The three counters and the predictor are what the committed instructions make them, the
    wrong branch predictions are the flush cycles of branches, and only a JALR can be the
    cause of another flush. -/
theorem statistics_consistent (cpu : Cpu) (input : Istream) (n : Nat) (hn : n < 2 ^ 64) :
    ((cpu.load input).2.cycles n).committedCount.toNat = (commitLog (cpu.history input) n).countP (·.op != .halt) ∧
    (cpu.history input n).predictor.predictionCount.toNat = (commitLog (cpu.history input) n).countP (·.isBranch) ∧
    (cpu.history input n).predictor.correctCount.toNat ≤ (cpu.history input n).predictor.predictionCount.toNat ∧
    (cpu.history input n).predictor.predictionCount.toNat ≤
      ((cpu.load input).2.cycles n).committedCount.toNat ∧
    (cpu.history input n).predictor.predictionCount.toNat - (cpu.history input n).predictor.correctCount.toNat =
      ((List.range n).countP fun k =>
        (cpu.history input k).redirects && (cpu.history input k).commit.entry.isBranch) ∧
    (∀ k, (cpu.history input k).redirects = true → (cpu.history input k).commit.entry.isBranch = false →
      (cpu.history input k).commit.entry.op = .jalr ∧
        (cpu.history input k).commit.entry.actualNextPc ≠ (cpu.history input k).commit.entry.pc + 4) ∧
    (∀ k, (cpu.history input k).redirects = true → (cpu.history input k).commit.entry.op ≠ .jal) ∧
    (cpu.history input n).predictor = BranchPredictor.trained (commitLog (cpu.history input) n) ∧
    ∀ k x, (cpu.history input k).committed = some x →
      ∃ id, Commits (cpu.history input) k id ∧ tagOf (cpu.history input) id = x.tag ∧
        ∀ j, ¬ Flushes (cpu.history input) j id := by
  have h := history_isRun cpu input
  have hlen := length_commitLog_le (cpu.history input) n
  have hsmall : ∀ p : RobEntry → Bool, (BitVec.ofNat 64 ((commitLog (cpu.history input) n).countP p)).toNat =
      (commitLog (cpu.history input) n).countP p := by
    intro p
    have hle : (commitLog (cpu.history input) n).countP p ≤ (commitLog (cpu.history input) n).length :=
      List.countP_le_length
    rw [BitVec.toNat_ofNat, Nat.mod_eq_of_lt (by omega)]
  obtain ⟨hbranches, hcorrect⟩ := BranchPredictor.trained_counts (commitLog (cpu.history input) n)
  have hcommitted : ((cpu.load input).2.cycles n).committedCount.toNat =
      (commitLog (cpu.history input) n).countP (·.op != .halt) := by
    rw [cycles_committedCount, committedCount_eq h, retired_eq h, hsmall]
  have hsplit := countP_split (commitLog (cpu.history input) n)
  have hpredictor : (cpu.history input n).predictor = BranchPredictor.trained (commitLog (cpu.history input) n) :=
    predictor_follows h n
  rw [hcommitted, hpredictor, hbranches, hcorrect, hsmall, hsmall, branchRedirects_eq h]
  refine ⟨rfl, rfl, by omega, ?_, by omega, fun k hr => (redirects_jump h hr).2, fun k hr => (redirects_jump h hr).1,
    rfl, fun k x hx => committed_id h hx⟩
  refine List.countP_mono_left fun x hx hb => ?_
  obtain ⟨k, -, hk⟩ := mem_commitLog hx
  obtain ⟨-, -, hhead, -⟩ := committed_some (h.inv k) hk
  have hok := (h.inv k).entry x (List.mem_of_mem_head? hhead)
  rw [hok.branch] at hb
  rw [bne_iff_ne]
  intro hop
  rw [hop] at hb
  cases hb

/-- `beq x0, x0, 8` over a word that is no instruction to HALT; first predicted not taken. -/
def branchImage : Istream := { text := "@0 63 04 00 00 00 00 00 00 13 05 f0 0f".toList }

theorem statistics_consistent_sample :
    ((List.range 12).countP fun k => ((new fun _ => baseOrders).history branchImage k).redirects &&
      ((new fun _ => baseOrders).history branchImage k).commit.entry.isBranch) = 1 := by
  have hcounts : ((loaded branchImage).after 12).predictor.predictionCount.toNat = 1 ∧
      ((loaded branchImage).after 12).predictor.correctCount.toNat = 0 := by decide +kernel
  obtain ⟨-, -, -, -, hsplit, -⟩ := statistics_consistent (new fun _ => baseOrders) branchImage 12 (by decide)
  rw [← hsplit, history_eq, hcounts.1, hcounts.2]

end Cpu

end TomasuloCpu
