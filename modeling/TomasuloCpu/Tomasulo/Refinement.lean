/-
  TomasuloCpu.Tomasulo.Refinement — the machine refines the sequential one.

  `in_order_refinement` reads `follows` off at the public interface: registers and memory
  after `n` calls of `cycle` are those of the sequential run after `committed_count` steps,
  whatever the seed, and a halted run returns what the sequential machine halts with.
-/
import TomasuloCpu.Tomasulo.Retirement

namespace TomasuloCpu

open Rv32i

namespace Core

variable {s : Core} {tr : Nat → Core} {memory : Nat → Byte} {m : Machine} {c : Nat}

/-- When HALT commits, the sequential machine halts, with the same value. -/
theorem halted_step (hi : Inv s) (h : Sim memory c s) (hrun : s.status = .running) (hh : s.halts = true) :
    ∃ m, run memory c = some m ∧ s.tick.registers = m.registers ∧ m.step = .halted (m.read 10 &&& 0xff) ∧
      s.tick.exitCode = m.read 10 &&& 0xff := by
  obtain ⟨m, hm, hreg, -⟩ := h.committed
  obtain ⟨x, hx, hr, hop⟩ := halts_head hi hh
  have hentry := (commit_entry hi.rob hx hr).1
  obtain ⟨y, hp⟩ := h.head (by rw [← List.head?_eq_getElem?]; exact hx)
  obtain rfl := Option.some.inj (hm.symm.trans hp.step)
  have hw : x.writesRd = false := by
    rw [(hi.entry x hp.mem).writes, hop]
    rfl
  have hexit : s.tick.exitCode = s.nextExitCode s.outs := by rw [tick_eq hrun]
  refine ⟨m, hm, ?_, ?_, ?_⟩
  · rw [registers_tick hi hrun (by rw [hreg]; exact run_zero hm), hentry, hw, if_neg (by simp), hreg]
  · have hinstr : m.instruction.op = .halt := by rw [← (h.fetched 0 x m hp).op, hop]
    obtain ⟨bits, hf, hd⟩ := Machine.fetch_of_valid (m := m) (by simp [hinstr])
    rw [hd] at hinstr
    rw [Machine.step, hf]
    simp only [hinstr, reduceCtorEq, if_false, if_true]
  · have hhalt : s.outs.rob.outputs.commit.halted = true := hh
    rw [hexit, nextExitCode, if_pos hhalt, hreg, read_eq hm]
    rfl

theorem halted_run_far (h : IsRun tr) (hs : ¬ ModifiesWithin ReorderBuffer.kCapacity (tr 0).memory.bytes) {n : Nat}
    (hh : (tr n).status = .halted) :
    ∃ m, run (tr 0).memory.bytes (retired tr n) = some m ∧ (tr n).registers = m.registers ∧
      m.step = .halted (m.read 10 &&& 0xff) ∧ (tr n).exitCode = m.read 10 &&& 0xff := by
  induction n with
  | zero => exact absurd hh h.start_not_halted
  | succ n ih =>
    rw [h.step] at hh ⊢
    by_cases hrun : (tr n).status = .running
    · have hhalts : (tr n).halts = true := halts_of_tick (h.inv n) hrun hh
      rw [retired, retires_halts hhalts]
      exact halted_step (h.inv n) ((follows_far h hs n).1 (by simp [hrun])) hrun hhalts
    · rw [tick_of_stopped hrun] at hh ⊢
      rw [retired, retires_stopped hrun]
      exact ih hh

theorem halted_run (h : IsRun tr) (hs : ¬ SelfModifying (tr 0).memory.bytes) {n : Nat}
    (hh : (tr n).status = .halted) :
    ∃ m, run (tr 0).memory.bytes (retired tr n) = some m ∧ (tr n).registers = m.registers ∧
      m.step = .halted (m.read 10 &&& 0xff) ∧ (tr n).exitCode = m.read 10 &&& 0xff :=
  halted_run_far h (not_modifiesWithin hs _) hh

/-- The registers after the committed steps. -/
theorem registers_follow_far (h : IsRun tr) (hs : ¬ ModifiesWithin ReorderBuffer.kCapacity (tr 0).memory.bytes)
    (n : Nat) :
    ∃ m, run (tr 0).memory.bytes (retired tr n) = some m ∧ (tr n).registers = m.registers := by
  by_cases hh : (tr n).status = .halted
  · obtain ⟨m, hm, hreg, -⟩ := halted_run_far h hs hh
    exact ⟨m, hm, hreg⟩
  · obtain ⟨m, hm, hreg, -⟩ := ((follows_far h hs n).1 hh).committed
    exact ⟨m, hm, hreg⟩

theorem registers_follow (h : IsRun tr) (hs : ¬ SelfModifying (tr 0).memory.bytes) (n : Nat) :
    ∃ m, run (tr 0).memory.bytes (retired tr n) = some m ∧ (tr n).registers = m.registers :=
  registers_follow_far h (not_modifiesWithin hs _) n

end Core

namespace Cpu

open TomasuloCpu.Core

/-! ## The run loop -/

theorem cycle_of_stopped {cpu : Cpu} (h : cpu.status ≠ .running) : cpu.cycle = cpu := by
  rw [cycle, cycleWith, if_pos h]

theorem cycles_of_stopped {cpu : Cpu} (h : cpu.status ≠ .running) (n : Nat) : cpu.cycles n = cpu := by
  induction n with
  | zero => rfl
  | succ n ih => rw [cycles, Function.iterate_succ_apply, cycle_of_stopped h]; exact ih

theorem run_of_stopped {cpu : Cpu} (h : cpu.status ≠ .running) (fuel : Nat) :
    cpu.run fuel = some ⟨cpu.status, cpu.exitCode⟩ := by
  cases fuel with
  | zero => exact if_pos h
  | succ fuel => exact if_pos h

/-- The loop ends with the first cycle that stops. -/
theorem run_of_cycles {cpu : Cpu} {n fuel : Nat} (hle : n ≤ fuel) (h : (cpu.cycles n).status ≠ .running) :
    cpu.run fuel = some ⟨(cpu.cycles n).status, (cpu.cycles n).exitCode⟩ := by
  induction fuel generalizing cpu n with
  | zero =>
    obtain rfl := Nat.le_zero.mp hle
    exact run_of_stopped h 0
  | succ fuel ih =>
    by_cases hstop : cpu.status ≠ .running
    · rw [cycles_of_stopped hstop, run_of_stopped hstop]
    · cases n with
      | zero => exact absurd h hstop
      | succ n =>
        rw [run, if_neg hstop, cycles, Function.iterate_succ_apply]
        exact ih (Nat.le_of_succ_le_succ hle) (by rwa [cycles, Function.iterate_succ_apply] at h)

/-! ## The refinement -/

theorem registerValue_eq {cpu : Cpu} {memory : Nat → Byte} {m : Machine} {n : Nat} (hm : Rv32i.run memory n = some m)
    (hreg : cpu.core.registers = m.registers) (r : RegisterIndex) : cpu.registerValue r = m.read r := by
  have hreg : cpu.registerFile.registers = m.registers := hreg
  rw [registerValue, RegisterFile.read, hreg, read_eq hm]
  by_cases hv : validRegister r = true
  · rw [if_pos hv]
  · rw [if_neg hv]
    by_cases hlt : kRegisterCount ≤ r.toNat
    · exact (run_outside hm hlt).symm
    · have hr : r = 0 := by
        by_contra hne
        refine hv ?_
        simp only [validRegister, Bool.and_eq_true, decide_eq_true_eq]
        bv_omega
      rw [hr]
      exact (run_zero hm).symm

/-- After `n` cycles of a loaded image the machine has made `committed_count` steps of the
    sequential run, where a stopping word counts as executed: no step, the stopping one
    included, fetches a byte that an earlier one stored. The registers are those after
    these steps. So is the memory, but one step ahead while the head is a store that has
    written and not committed. When the machine is halted so is the sequential one, and
    `run` returns its value. -/
theorem in_order_refinement (cpu : Cpu) (input : Istream)
    (hs : ¬ SelfModifying (cpu.load input).2.memoryUnit.memory.bytes) (n : Nat) (hn : n < 2 ^ 64) :
    ∃ m, Rv32i.run (cpu.load input).2.memoryUnit.memory.bytes
        ((cpu.load input).2.cycles n).committedCount.toNat = some m ∧
      (∀ r, ((cpu.load input).2.cycles n).registerValue r = m.read r) ∧
      (¬ Latched (cpu.history input) n →
        ((cpu.load input).2.cycles n).memoryUnit.memory.bytes = m.memory) ∧
      (Latched (cpu.history input) n →
        (∃ x, ReorderBuffer.front ((cpu.load input).2.cycles n).core.rob = some x ∧ x.isStore = true) ∧
        ∃ m', m.next = some m' ∧ ((cpu.load input).2.cycles n).memoryUnit.memory.bytes = m'.memory) ∧
      (((cpu.load input).2.cycles n).status = .halted →
        m.step = .halted (m.read 10 &&& 0xff) ∧
        ∀ fuel, n ≤ fuel → (cpu.load input).2.run fuel = some ⟨.halted, m.read 10 &&& 0xff⟩) := by
  have h := history_isRun cpu input
  have hcount : ((cpu.load input).2.cycles n).committedCount.toNat = retired (cpu.history input) n :=
    committedCount_toNat h hn
  rw [hcount]
  obtain ⟨m, hm, hreg⟩ := registers_follow h hs n
  have hmem := (follows h hs n).2
  refine ⟨m, hm, registerValue_eq hm hreg, fun hno => ?_, fun hl => ⟨?_, ?_⟩, fun hh => ?_⟩
  · obtain ⟨y, hy, hbytes⟩ := hmem.settled hno
    obtain rfl := Option.some.inj (hm.symm.trans hy)
    exact hbytes
  · obtain ⟨x, hx, hst⟩ := hl.head h
    refine ⟨x, (ReorderBuffer.front_eq (h.inv n).rob).trans hx, ?_⟩
    rw [((h.inv n).entry x (List.mem_of_mem_head? hx)).store, hst]
  · obtain ⟨y, hy, hbytes⟩ := hmem.latched hl
    exact ⟨y, by rw [← run_succ hm, hy], hbytes⟩
  · obtain ⟨y, hy, -, hstep, hexit⟩ := halted_run h hs hh
    obtain rfl := Option.some.inj (hm.symm.trans hy)
    refine ⟨hstep, fun fuel hle => ?_⟩
    rw [run_of_cycles hle (by simp [hh]), hh]
    exact congrArg (fun v => some (⟨.halted, v⟩ : RunResult)) hexit

theorem sample_counts (n : Nat) : (sample n).committedCount = ((loaded sampleImage).after n).committedCount ∧
    (sample n).status = ((loaded sampleImage).after n).status :=
  ⟨congrArg (·.committedCount) (sample_core n), congrArg (·.status) (sample_core n)⟩

theorem sample_code : ¬ SelfModifying (loaded sampleImage).memory.bytes :=
  have hcode : everyStep (loaded sampleImage).memory.bytes 5 (codeBelow 64) = true := by decide +kernel
  not_selfModifying hcode

theorem in_order_refinement_sample :
    ∃ m, Rv32i.run ((new fun _ => baseOrders).load sampleImage).2.memoryUnit.memory.bytes 4 = some m ∧
      (sample 19).registerValue 3 = m.read 3 ∧ m.step = .halted (m.read 10 &&& 0xff) ∧
      ((new fun _ => baseOrders).load sampleImage).2.run 19 = some ⟨.halted, m.read 10 &&& 0xff⟩ := by
  obtain ⟨hcount, hstatus⟩ : ((loaded sampleImage).after 19).committedCount.toNat = 4 ∧
      ((loaded sampleImage).after 19).status = .halted := by
    decide +kernel
  rw [← (sample_counts 19).1] at hcount
  rw [← (sample_counts 19).2] at hstatus
  obtain ⟨m, hm, hreg, -, -, hhalt⟩ :=
    in_order_refinement (new fun _ => baseOrders) sampleImage sample_code 19 (by decide)
  obtain ⟨hstep, hrun⟩ := hhalt hstatus
  rw [← hcount]
  exact ⟨m, hm, hreg 3, hstep, hrun 19 (Nat.le_refl 19)⟩

end Cpu

end TomasuloCpu
