/-
  TomasuloCpu.Tomasulo.BranchStreaks — how many branches a program mispredicts.

  Two steps that took their branches one way, on one counter and with no other way between,
  leave the counter predicting that way (`predicts_streak`). A branch is predicted from the
  counters of a step at most 32 back, so after such two steps it goes as predicted: the
  mispredicted ones are at most 34 for each time the direction on a counter turns in the
  sequential run (`mispredictions_bounded`).
-/
import TomasuloCpu.Lib.Streaks
import TomasuloCpu.Tomasulo.Prediction

namespace TomasuloCpu

open Keyed Rv32i Streaks

namespace Rv32i

/-- The branch of a step: its counter and whether it is taken. -/
def branchEvent (memory : Nat → Byte) (n : Nat) : Option (Nat × Bool) :=
  match run memory n with
  | some m => if m.instruction.op.isBranch then some (BranchPredictor.indexOf m.pc, m.takes) else none
  | none => none

/-- How often the direction on a counter turns in the first `n` steps; the first branch on a
    counter is a turn. -/
def branchTurns (memory : Nat → Byte) (n : Nat) : Nat := turns (branchEvent memory) n

/-- How many trainings a counter is away from saturation towards a direction. -/
def trainingLeft (taken : Bool) (counter : BitVec 8) : Nat :=
  if taken then 3 - counter.toNat else counter.toNat

variable {memory : Nat → Byte} {m m' : Machine} {i a b n : Nat} {taken : Bool}

theorem trainingLeft_train {counter : BitVec 8} (h : counter ≤ BranchPredictor.kStrongTaken) :
    trainingLeft taken (BranchPredictor.train counter taken) = trainingLeft taken counter - 1 := by
  unfold BranchPredictor.kStrongTaken at h
  unfold trainingLeft BranchPredictor.train BranchPredictor.kStrongTaken BranchPredictor.kStrongNotTaken
  cases taken with
  | true =>
    simp only [if_true]
    by_cases hlt : counter < 3
    · rw [if_pos hlt]
      bv_omega
    · rw [if_neg hlt]
      bv_omega
  | false =>
    simp only [Bool.false_eq_true, if_false]
    by_cases hlt : 0 < counter
    · rw [if_pos hlt]
      bv_omega
    · rw [if_neg hlt]
      bv_omega

/-- One training from saturation, a counter predicts the direction. -/
theorem predicts_of_trainingLeft {counter : BitVec 8} (h : counter ≤ BranchPredictor.kStrongTaken)
    (hleft : trainingLeft taken counter ≤ 1) : BranchPredictor.kWeakTaken ≤ counter ↔ taken = true := by
  unfold BranchPredictor.kStrongTaken at h
  unfold trainingLeft at hleft
  unfold BranchPredictor.kWeakTaken
  cases taken with
  | true =>
    rw [if_pos rfl] at hleft
    simp only [iff_true]
    bv_omega
  | false =>
    rw [if_neg (by decide)] at hleft
    simp only [Bool.false_eq_true, iff_false]
    bv_omega

theorem branchEvent_eq (hr : run memory n = some m) (hb : m.instruction.op.isBranch = true) :
    branchEvent memory n = some (BranchPredictor.indexOf m.pc, m.takes) := by
  rw [branchEvent, hr]
  exact if_pos hb

/-- A step brings a counter closer if it trains it that way, and leaves it otherwise. -/
theorem trainingLeft_succ (memory : Nat → Byte) (n i : Nat)
    (hway : ∀ u, branchEvent memory n = some (i, u) → u = taken) :
    trainingLeft taken (branchCounters memory (n + 1) i) =
      trainingLeft taken (branchCounters memory n i) -
        if branchEvent memory n = some (i, taken) then 1 else 0 := by
  rw [branchCounters]
  cases hr : run memory n with
  | none =>
    have hnone : branchEvent memory n = none := by rw [branchEvent, hr]
    rw [hnone]
    rfl
  | some m =>
    show trainingLeft taken (m.train (branchCounters memory n) i) = _
    unfold Machine.train
    by_cases hb : m.instruction.op.isBranch = true
    · have hevent := branchEvent_eq hr hb
      rw [if_pos hb, hevent]
      by_cases hi : i = BranchPredictor.indexOf m.pc
      · subst hi
        have htaken : m.takes = taken := hway _ hevent
        rw [Function.update_self, htaken, if_pos rfl]
        exact trainingLeft_train (branchCounters_le memory n _)
      · rw [Function.update_of_ne hi, if_neg fun hc => hi (congrArg Prod.fst (Option.some.inj hc)).symm]
        rfl
    · have hnone : branchEvent memory n = none := by
        rw [branchEvent, hr]
        exact if_neg hb
      rw [if_neg hb, hnone]
      rfl

theorem trainingLeft_le (hle : a ≤ n) (hway : ∀ k u, a ≤ k → k < n → branchEvent memory k = some (i, u) → u = taken) :
    trainingLeft taken (branchCounters memory n i) ≤ trainingLeft taken (branchCounters memory a i) := by
  induction hle with
  | refl => exact Nat.le_refl _
  | @step n hle ih =>
    rw [trainingLeft_succ memory n i fun u => hway n u hle (Nat.lt_succ_self n)]
    have hbefore := ih fun k u hak hkn => hway k u hak (Nat.lt_succ_of_lt hkn)
    omega

/-- After two steps one way the counter predicts that way, until a branch goes the other. -/
theorem predicts_streak (ha : branchEvent memory a = some (i, taken)) (hb : branchEvent memory b = some (i, taken))
    (hab : a < b) (hbn : b < n)
    (hway : ∀ k u, a ≤ k → k < n → branchEvent memory k = some (i, u) → u = taken) :
    BranchPredictor.kWeakTaken ≤ branchCounters memory n i ↔ taken = true := by
  refine predicts_of_trainingLeft (branchCounters_le memory n i) ?_
  have hstart : trainingLeft taken (branchCounters memory a i) ≤ 3 := by
    have hbits : branchCounters memory a i ≤ BranchPredictor.kStrongTaken := branchCounters_le memory a i
    unfold BranchPredictor.kStrongTaken at hbits
    unfold trainingLeft
    split
    · omega
    · bv_omega
  have hfirst := trainingLeft_succ memory a i fun u => hway a u (Nat.le_refl a) (by omega)
  have hsecond := trainingLeft_succ memory b i fun u => hway b u (by omega) hbn
  rw [if_pos ha] at hfirst
  rw [if_pos hb] at hsecond
  have hmid := trainingLeft_le (a := a + 1) (show a + 1 ≤ b by omega)
    fun k u hak hkb => hway k u (by omega) (by omega)
  have hlast := trainingLeft_le (a := b + 1) (show b + 1 ≤ n by omega)
    fun k u hbk hkn => hway k u (by omega) hkn
  omega

/-- A branch that the counters predict its way is predicted to where it goes. -/
theorem predicted_branch (hb : m.instruction.op.isBranch = true) (hm' : m.next = some m') {counters : Nat → BitVec 8}
    (hway : BranchPredictor.kWeakTaken ≤ counters (BranchPredictor.indexOf m.pc) ↔ m.takes = true) :
    m.predicted counters = m'.pc := by
  have htarget : m'.pc = if m.takes then m.pc + m.instruction.immediate else m.pc + 4 := by
    rw [Machine.next_pc hm', Machine.takes]
    cases hop : m.instruction.op <;> first | rfl | exact absurd (hop ▸ hb) (by decide)
  rw [Machine.predicted, if_pos hb, htarget]
  by_cases ht : m.takes = true
  · rw [if_pos (hway.mpr ht), if_pos ht]
  · rw [if_neg fun hc => ht (hway.mp hc), if_neg ht]

/-- A branch whose direction is not settled: no two steps one way, 32 steps before it. -/
def Unsettled (memory : Nat → Byte) (n : Nat) : Prop :=
  ∃ i taken, branchEvent memory n = some (i, taken) ∧ ∀ a b, ¬ Settled (branchEvent memory) 32 i taken n a b

end Rv32i

namespace Core

variable {tr : Nat → Core} {n id : Nat} {m : Machine}

/-- A branch that flushes is not settled. -/
theorem unsettled_of_flush (h : IsRun tr) (hs : ¬ ModifiesWithin ReorderBuffer.kCapacity (tr 0).memory.bytes)
    (hstart : (tr 0).predictor = BranchPredictor.resetState)
    (hc : Commits tr n id) (hm : run (tr 0).memory.bytes (retired tr n) = some m)
    (hb : m.instruction.op.isBranch = true) (hflush : (tr n).flush = true) :
    Unsettled (tr 0).memory.bytes (retired tr n) := by
  refine ⟨_, _, branchEvent_eq hm hb, fun a b hsettled => ?_⟩
  obtain ⟨m', hm', hne⟩ := (flush_iff_predicted h hs hstart hc hm).mp hflush
  refine hne (predicted_branch hb hm' ?_)
  -- both steps have trained the counters that the branch was predicted from
  have hback := retired_since_issue h hs hc
  have hmono := retired_mono tr (Nat.le_of_lt (ids_lt hc.mem))
  have hold := hsettled.old
  refine predicts_streak hsettled.streak.start hsettled.again hsettled.before (by omega) fun k u hak hkn => ?_
  exact hsettled.streak.same k u hak (by omega)

/-- Only branches that are not settled are mispredicted. -/
theorem mispredicted_le (h : IsRun tr) (hs : ¬ ModifiesWithin ReorderBuffer.kCapacity (tr 0).memory.bytes)
    (hstart : (tr 0).predictor = BranchPredictor.resetState) [DecidablePred (Unsettled (tr 0).memory.bytes)] (n : Nat) :
    ((commitLog tr n).countP fun x => x.isBranch && x.predictedNextPc != x.actualNextPc) ≤
      Nat.count (Unsettled (tr 0).memory.bytes) (retired tr n) := by
  induction n with
  | zero => exact Nat.zero_le _
  | succ n ih =>
    rw [commitLog, List.countP_append]
    cases hx : (tr n).committed with
    | none => exact ih.trans (Nat.count_monotone _ (retired_mono tr (Nat.le_succ n)))
    | some x =>
      rw [Option.toList_some, List.countP_singleton]
      by_cases hwrong : (x.isBranch && x.predictedNextPc != x.actualNextPc) = true
      · rw [if_pos hwrong]
        rw [Bool.and_eq_true, bne_iff_ne] at hwrong
        obtain ⟨id, hc, hxl, ht⟩ := commits_some h hx
        obtain ⟨-, -, hhead, hr⟩ := committed_some (h.inv n) hx
        obtain ⟨y, m, hp, -⟩ := commits_onPath h hs hc
        have hm : run (tr 0).memory.bytes (retired tr n) = some m := hp.step
        have hop : opOf tr id = m.instruction.op := op_of_commits h hs hc hm
        have hb : m.instruction.op.isBranch = true := by
          rw [← hop, ← op_of_id h hc.mem hxl ht, ← ((h.inv n).entry x hxl).branch]
          exact hwrong.1
        have hhalt : opOf tr id ≠ .halt := by
          intro hhalt
          rw [← hop, hhalt] at hb
          cases hb
        have hflush : (tr n).flush = true :=
          (flush_iff (h.inv n).rob).mpr ⟨x, hhead, hr, by rw [hwrong.1]; rfl, hwrong.2⟩
        have hunsettled := unsettled_of_flush h hs hstart hc hm hb hflush
        have hretired : retired tr (n + 1) = retired tr n + 1 := by
          rw [retired, retires_of_commits h hc hhalt]
        rw [hretired, Nat.count_succ, if_pos hunsettled]
        omega
      · rw [if_neg hwrong]
        exact ih.trans (Nat.count_monotone _ (retired_mono tr (Nat.le_succ n)))

/-- Fewer than 2^64 cycles commit so little that a counter of commits does not overflow. -/
theorem toNat_countP (hn : n < 2 ^ 64) (p : RobEntry → Bool) :
    (BitVec.ofNat 64 ((commitLog tr n).countP p)).toNat = (commitLog tr n).countP p := by
  have hlen := length_commitLog_le tr n
  have hle : (commitLog tr n).countP p ≤ (commitLog tr n).length := List.countP_le_length
  rw [BitVec.toNat_ofNat, Nat.mod_eq_of_lt (by omega)]

end Core

namespace Cpu

open TomasuloCpu.Core

/-- A branch that flushes is not settled: there are no two steps, more than 32 before it,
    since which the branches on its counter went its way. So at most 34 predictions are wrong
    for each time the direction on a counter turns in the sequential run, the first branch on
    it counted. -/
theorem mispredictions_bounded (cpu : Cpu) (input : Istream)
    (hs : ¬ ModifiesWithin ReorderBuffer.kCapacity (cpu.load input).2.memoryUnit.memory.bytes) :
    (∀ n id m, Commits (cpu.history input) n id →
      Rv32i.run (cpu.load input).2.memoryUnit.memory.bytes (retired (cpu.history input) n) = some m →
      m.instruction.op.isBranch = true → (cpu.history input n).flush = true →
      Unsettled (cpu.load input).2.memoryUnit.memory.bytes (retired (cpu.history input) n)) ∧
    ∀ n < 2 ^ 64, (cpu.history input n).predictor.predictionCount.toNat ≤
      (cpu.history input n).predictor.correctCount.toNat +
        34 * branchTurns (cpu.load input).2.memoryUnit.memory.bytes (retired (cpu.history input) n) := by
  have h := history_isRun cpu input
  have hstart : (cpu.history input 0).predictor = BranchPredictor.resetState := by rw [history_eq]; rfl
  refine ⟨fun n id m hc hm hb => unsettled_of_flush h hs hstart hc hm hb, fun n hn => ?_⟩
  obtain ⟨hbranches, hcorrect⟩ := BranchPredictor.trained_counts (commitLog (cpu.history input) n)
  have hpredictor : (cpu.history input n).predictor = BranchPredictor.trained (commitLog (cpu.history input) n) := by
    rw [predictor_follows h n, hstart]
    rfl
  have hsplit := countP_split (commitLog (cpu.history input) n)
  classical
  have hwrong := mispredicted_le h hs hstart n
  have hturns : Nat.count (Unsettled (cpu.load input).2.memoryUnit.memory.bytes) (retired (cpu.history input) n) ≤
      34 * turns (branchEvent (cpu.load input).2.memoryUnit.memory.bytes) (retired (cpu.history input) n) :=
    count_unsettled_le 32 (fun k hk => hk) _
  have hbound := hwrong.trans hturns
  rw [hpredictor, hbranches, hcorrect, toNat_countP hn, toNat_countP hn, branchTurns]
  omega

/-- The `beq` that flushes in cycle 3 is not settled, and the wrong prediction counts. -/
theorem mispredictions_bounded_sample :
    Unsettled (loaded branchImage).memory.bytes (retired ((new fun _ => baseOrders).history branchImage) 3) ∧
      1 ≤ 34 * branchTurns (loaded branchImage).memory.bytes
        (retired ((new fun _ => baseOrders).history branchImage) 12) := by
  have h := history_isRun (new fun _ => baseOrders) branchImage
  obtain ⟨hcommit, hflush, hcount⟩ : ((loaded branchImage).after 3).committed.isSome = true ∧
      ((loaded branchImage).after 3).flush = true ∧
      ((loaded branchImage).after 3).committedCount.toNat = 0 := by decide +kernel
  obtain ⟨hpredictions, hcorrect⟩ : ((loaded branchImage).after 12).predictor.predictionCount.toNat = 1 ∧
      ((loaded branchImage).after 12).predictor.correctCount.toNat = 0 := by decide +kernel
  have hbranch : (Rv32i.run (loaded branchImage).memory.bytes 0).any (·.instruction.op.isBranch) = true := by
    decide +kernel
  rw [← history_eq (new fun _ => baseOrders)] at hcommit hflush hcount hpredictions hcorrect
  rw [committedCount_toNat h (by decide)] at hcount
  obtain ⟨hunsettled, hbound⟩ := mispredictions_bounded (new fun _ => baseOrders) branchImage
    (not_modifiesWithin branch_code _)
  obtain ⟨x, hx⟩ := Option.isSome_iff_exists.mp hcommit
  obtain ⟨id, hc, -⟩ := commits_some h hx
  obtain ⟨m, hm, hb⟩ := (Option.any_eq_true _ _).mp hbranch
  have hwrong := hbound 12 (by decide)
  rw [hpredictions, hcorrect, Nat.zero_add, load_memory] at hwrong
  refine ⟨hunsettled 3 id m hc ?_ hb hflush, hwrong⟩
  rw [hcount]
  exact hm

end Cpu

end TomasuloCpu
