/-
  TomasuloCpu.Tomasulo.CycleBound — how many cycles a program takes at most.

  `Stage` bounds the wait of the instruction at the ROB head, and each stage is at most the
  farthest slot of the station away (`Stage.le_longest`). So a running machine commits or
  stops within 35 cycles (`commits_within`), and `n` commits take fewer than
  `36 * (n + 1)` cycles (`running_within`): the loop of `run` ends within 36 cycles for
  each step of the sequential run.
-/
import TomasuloCpu.Tomasulo.Progress

namespace TomasuloCpu

open Rv32i

namespace Core

variable {s : Core} {tr : Nat → Core} {x : RobEntry} {r n : Nat}

/-- The wait of an instruction in the station's farthest slot, the bus preferring loads. -/
def longestWait : Nat := 3 + 2 * 15 + 1

/-- The cycles that a commit takes at most: an empty buffer issues in the first, the head
    waits, and commits in the last. -/
def cyclesPerCommit : Nat := longestWait + 2

theorem pending_le (h : Inv s) {t : RobTag} {left : Nat} (hp : s.port.pending = some (t, left)) :
    left ≤ MemoryUnit.kDataLatency := by
  unfold DataPort.pending at hp
  split at hp
  · rename_i hv
    cases hp
    exact (h.port.busy hv).2
  · split at hp
    · cases hp
      exact Nat.zero_le _
    · cases hp

theorem Stage.le_longest (h : Inv s) (hstage : Stage s x r) : r ≤ longestWait := by
  have hlatency : MemoryUnit.kDataLatency ≤ 4 := by decide
  unfold longestWait
  cases hstage with
  | ready => omega
  | computed => split <;> omega
  | loaded => split <;> omega
  | sent _ _ _ hp =>
    have := pending_le h hp
    omega
  | unsent =>
    split
    · rename_i hv
      have := (h.port.busy hv).2
      omega
    · omega
  | station hd => split <;> omega

/-- Some cycle out of the next ones commits or finds the machine stopped. -/
theorem commits_within (h : Inv s) (hs : StopsForHalt s) (hrun : s.status = .running) :
    ∃ k ≤ longestWait + 1, (s.after k).status ≠ .running ∨ (s.after k).committing = true := by
  have hhead : ∀ {s : Core} {x : RobEntry}, Inv s → s.status = .running → s.rob.live.head? = some x →
      ∃ k ≤ longestWait, (s.after k).status ≠ .running ∨ (s.after k).committing = true := by
    intro s x h hrun hx
    obtain ⟨r, hstage⟩ := exists_stage h hrun hx
    obtain ⟨k, hk, hgoal⟩ := head_commits h hx hstage
    exact ⟨k, Nat.le_trans hk (hstage.le_longest h), hgoal⟩
  cases hx : s.rob.live.head? with
  | some x =>
    obtain ⟨k, hk, hgoal⟩ := hhead h hrun hx
    exact ⟨k, Nat.le_succ_of_le hk, hgoal⟩
  | none =>
    by_cases hrun' : s.tick.status = .running
    · obtain ⟨x, hx'⟩ := empty_tick h hs hrun (List.head?_eq_none_iff.mp hx) hrun'
      obtain ⟨k, hk, hgoal⟩ := hhead h.tick hrun' hx'
      exact ⟨k + 1, Nat.succ_le_succ hk, hgoal⟩
    · exact ⟨1, Nat.le_add_left 1 _, Or.inl hrun'⟩

/-- Behind the next 36 cycles the machine has stopped or made one more step. -/
theorem retires_within (h : IsRun tr) (n : Nat) :
    (tr (n + cyclesPerCommit)).status ≠ .running ∨ retired tr n < retired tr (n + cyclesPerCommit) := by
  by_cases hrun : (tr n).status = .running
  · obtain ⟨k, hk, hgoal⟩ := commits_within (h.inv n) (h.stopsForHalt n) hrun
    have hle : n + k + 1 ≤ n + cyclesPerCommit := by
      unfold cyclesPerCommit
      omega
    rw [h.after] at hgoal
    by_cases hstop : (tr (n + k)).status = .running
    · have hcommit : (tr (n + k)).committing = true := hgoal.resolve_left fun hc => hc hstop
      by_cases hnext : (tr (n + k + 1)).status = .running
      · right
        have hh : (tr (n + k)).halts = false := by
          by_contra hc
          rw [h.step, halted_tick (h.inv _) hstop (by simpa using hc)] at hnext
          cases hnext
        have hone : retired tr (n + k + 1) = retired tr (n + k) + 1 := by
          rw [retired, retires_running hstop hh, shift, if_pos hcommit]
        have hfirst := retired_mono tr (Nat.le_add_right n k)
        have hlast := retired_mono tr hle
        omega
      · left
        rw [h.frozen hnext hle]
        exact hnext
    · left
      rw [h.frozen hstop (by omega)]
      exact hstop
  · left
    rw [h.frozen hrun (Nat.le_add_right n _)]
    exact hrun

/-- Every further 36 cycles make one more step, until the machine stops. -/
theorem retires_many (h : IsRun tr) (n j : Nat) :
    (tr (n + cyclesPerCommit * j)).status ≠ .running ∨
      retired tr n + j ≤ retired tr (n + cyclesPerCommit * j) := by
  induction j with
  | zero => exact Or.inr (Nat.le_refl _)
  | succ j ih =>
    rw [Nat.mul_succ, ← Nat.add_assoc]
    rcases retires_within h (n + cyclesPerCommit * j) with hstop | hlt
    · exact Or.inl hstop
    · rcases ih with hstop | hle
      · left
        rw [h.frozen hstop (Nat.le_add_right _ _)]
        exact hstop
      · right
        omega

theorem retired_ge (h : IsRun tr) (j : Nat) :
    (tr (cyclesPerCommit * j)).status ≠ .running ∨ j ≤ retired tr (cyclesPerCommit * j) := by
  have hmany := retires_many h 0 j
  rw [Nat.zero_add, retired, Nat.zero_add] at hmany
  exact hmany

/-- While it runs, a machine that has made `retired` steps is in their cycles or in those
    of the next one. -/
theorem running_within (h : IsRun tr) (hrun : (tr n).status = .running) :
    n < cyclesPerCommit * (retired tr n + 1) := by
  by_contra hlt
  have hle : cyclesPerCommit * (retired tr n + 1) ≤ n := Nat.le_of_not_lt hlt
  rcases retired_ge h (retired tr n + 1) with hstop | hmany
  · rw [h.frozen hstop hle] at hrun
    exact hstop hrun
  · have := retired_mono tr hle
    omega

/-- A run stops within the cycles of the sequential run's steps. -/
theorem stops_within (h : IsRun tr) (hs : ¬ ModifiesWithin ReorderBuffer.kCapacity (tr 0).memory.bytes)
    {steps : Nat}
    (hstop : run (tr 0).memory.bytes steps = none) : (tr (cyclesPerCommit * steps)).status ≠ .running := by
  rcases retired_ge h steps with hdone | hle
  · exact hdone
  · obtain ⟨m, hm, -⟩ := registers_follow_far h hs (cyclesPerCommit * steps)
    obtain ⟨y, hy⟩ := run_of_le hle hm
    rw [hstop] at hy
    cases hy

end Core

namespace Cpu

open TomasuloCpu.Core

/-- Thirty-six cycles make a step of the program: a machine that still runs after `n` cycles
    has committed more than `n / 36 - 1` instructions, and when the sequential run stops within
    `steps` steps, `run` returns within `36 * steps` cycles. -/
theorem run_within_cycles (cpu : Cpu) (input : Istream) :
    (∀ n < 2 ^ 64, ((cpu.load input).2.cycles n).status = .running →
      n < 36 * (((cpu.load input).2.cycles n).committedCount.toNat + 1)) ∧
    (¬ ModifiesWithin ReorderBuffer.kCapacity (cpu.load input).2.memoryUnit.memory.bytes →
      ∀ steps, Rv32i.run (cpu.load input).2.memoryUnit.memory.bytes steps = none →
        ∃ result, ∀ fuel, 36 * steps ≤ fuel → (cpu.load input).2.run fuel = some result) := by
  have h := history_isRun cpu input
  refine ⟨fun n hn hrun => ?_, fun hs steps hstop => ?_⟩
  · have hcount : ((cpu.load input).2.cycles n).committedCount.toNat = retired (cpu.history input) n :=
      committedCount_toNat h hn
    rw [hcount]
    exact running_within h hrun
  · exact ⟨_, fun fuel hle => run_of_cycles hle (stops_within h hs hstop)⟩

theorem run_within_cycles_sample :
    3 < 36 * ((sample 3).committedCount.toNat + 1) ∧
      ∃ result, ∀ fuel, 180 ≤ fuel → ((new fun _ => baseOrders).load sampleImage).2.run fuel = some result := by
  have hstatus : (sample 3).status = .running := by
    rw [(sample_counts 3).2]
    decide +kernel
  have hstop : Rv32i.run (loaded sampleImage).memory.bytes 5 = none := by decide +kernel
  exact ⟨(run_within_cycles (new fun _ => baseOrders) sampleImage).1 3 (by decide) hstatus,
    (run_within_cycles (new fun _ => baseOrders) sampleImage).2
      (not_modifiesWithin sample_code _) 5 hstop⟩

end Cpu

end TomasuloCpu
