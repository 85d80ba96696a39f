/-
  TomasuloCpu.Tomasulo.Differential — the processor against the interpreter.

  A machine that halts, or that its fetch stops, is drained, and all that shows of it is
  what the sequential machine stops with (`stop_follows`). The interpreter stops with the
  same unless a comparison goes wrong, so the two programs end alike (`run_agrees`): same
  status and value, same registers, memory and count. The data faults are the exception,
  since the processor can raise one on a path it later leaves.
-/
import TomasuloCpu.Reference.SequentialRuns
import TomasuloCpu.Tomasulo.Assertions
import TomasuloCpu.Tomasulo.Progress

namespace TomasuloCpu

open Rv32i

namespace Core

variable {s : Core} {tr : Nat → Core} {m : Machine} {n : Nat}

/-! ## The last state -/

theorem exitCode_tick (s : Core) : s.tick.status = .halted ∨ s.tick.exitCode = s.exitCode := by
  by_cases hrun : s.status = .running
  · rw [tick_eq hrun]
    cases hh : s.outs.rob.outputs.commit.halted with
    | true => exact Or.inl (by simp [nextStatus, hh])
    | false => exact Or.inr (by simp [nextExitCode, hh])
  · exact Or.inr (by rw [tick_of_stopped hrun])

/-- Only HALT sets the exit code. -/
theorem exitCode_zero (h : IsRun tr) (hne : (tr n).status ≠ .halted) : (tr n).exitCode = 0 := by
  induction n with
  | zero =>
    obtain ⟨counters, input, h0⟩ := h.start
    rw [h0]
    rfl
  | succ n ih =>
    rw [h.step] at hne ⊢
    rcases exitCode_tick (tr n) with hh | heq
    · exact absurd hh hne
    · rw [heq]
      refine ih fun hh => hne ?_
      rw [tick_of_stopped (by simp [hh]), hh]

/-- HALT was the last instruction, so nothing is left when it commits. -/
theorem halted_empty (h : IsRun tr) (hh : (tr n).status = .halted) : (tr n).rob.live = [] := by
  obtain ⟨k, -, hrun, htr⟩ := h.stop (n := n) (by simp [hh]) (by simp [hh])
  rw [htr, h.step] at hh ⊢
  obtain ⟨x, hx, hr, hop⟩ := halts_head (h.inv k) (halts_of_tick (h.inv k) hrun hh)
  have hcommit : (tr k).committing = true := (committing_iff (h.inv k).rob).mpr ⟨x, hx, hr⟩
  have hstream := (stream_running h hrun).1
  obtain ⟨hlast, hstopped⟩ := hstream.halt 0 x (by rw [← List.head?_eq_getElem?]; exact hx) hop
  have hsurvivors : (tr k).survivors = [] := by
    rw [survivors, if_pos hcommit]
    split
    · rfl
    · rw [← List.length_eq_zero_iff, List.length_tail, List.length_map]
      omega
  rw [(tick_rob hrun (h.inv k).rob).2, hsurvivors, newRob, issuing_stopped hstopped]
  rfl

theorem fault_answer {status : Status} (h : FetchFault s status) (hpc : s.pc = m.pc)
    (hmem : s.memory.bytes = m.memory) :
    (status = .fetchOutOfBound ∧ m.step = .fetchOutOfBounds) ∨
      (status = .invalidInstruction ∧ m.step = .invalidInstruction) := by
  have hfetch : s.memory.readWord s.pc = m.fetch := by
    rw [hpc]
    exact Machine.fetch_image fun a _ _ => congrFun hmem a
  cases h with
  | fetchOutOfBound hw =>
    refine Or.inl ⟨rfl, ?_⟩
    rw [hfetch] at hw
    rw [Machine.step, hw]
  | invalidInstruction hw hop =>
    refine Or.inr ⟨rfl, ?_⟩
    rw [hfetch] at hw
    rw [Machine.step, hw]
    exact if_pos hop

end Core

/-- The interpreter's status for the processor's; it has none for an internal error. -/
def Status.counterpart : Status → Option InterpreterStatus
  | .notLoaded => some .notLoaded
  | .running => some .running
  | .halted => some .halted
  | .loadError => some .loadError
  | .fetchOutOfBound => some .fetchOutOfBounds
  | .invalidInstruction => some .invalidInstruction
  | .memoryOutOfBound => some .memoryOutOfBounds
  | .internalError => none

namespace Core

variable {tr : Nat → Core} {n : Nat}

/-- What the processor stops with, data faults apart, is what the sequential machine stops
    with: the registers, the memory, the number of steps and the answer. -/
theorem stop_follows (h : IsRun tr) (hs : ¬ ModifiesWithin ReorderBuffer.kCapacity (tr 0).memory.bytes)
    (hstop : (tr n).status = .halted ∨ (tr n).status = .fetchOutOfBound ∨ (tr n).status = .invalidInstruction) :
    ∃ m, run (tr 0).memory.bytes (retired tr n) = some m ∧ (tr n).registers = m.registers ∧
      (tr n).memory.bytes = m.memory ∧ ((tr n).status ≠ .halted → (tr n).pc = m.pc) ∧ m.next = none ∧
      (tr n).status.counterpart = some m.step.answer.status ∧ (tr n).exitCode = m.step.answer.value := by
  have hempty : (tr n).rob.live = [] := by
    rcases hstop with hh | hf
    · exact halted_empty h hh
    · exact (fault_run h hf).1
  have hlatched : ¬ Latched tr n := by
    intro hl
    obtain ⟨x, hx, -⟩ := hl.head h
    rw [hempty] at hx
    cases hx
  obtain ⟨m, hm, hmem⟩ := (follows_far h hs n).2.settled hlatched
  rcases hstop with hh | hf
  · obtain ⟨y, hy, hregs, hstep, hexit⟩ := halted_run_far h hs hh
    obtain rfl := Option.some.inj (hm.symm.trans hy)
    refine ⟨m, hm, hregs, hmem, fun hne => absurd hh hne, ?_, ?_, ?_⟩
    · rw [Machine.next, hstep]
    · rw [hh, hstep]
      rfl
    · rw [hexit, hstep]
      rfl
  · have hne : (tr n).status ≠ .halted := by
      rcases hf with hf | hf <;> rw [hf] <;> decide
    obtain ⟨y, hy, hregs, hpc⟩ := ((follows_far h hs n).1 hne).committed
    obtain rfl := Option.some.inj (hm.symm.trans hy)
    rw [pcAt_end (by rw [hempty]; exact Nat.le_refl 0)] at hpc
    have hanswer := fault_answer (fault_run h hf).2 hpc hmem
    refine ⟨m, hm, hregs, hmem, fun _ => hpc, ?_, ?_, ?_⟩
    · rcases hanswer with ⟨-, hstep⟩ | ⟨-, hstep⟩ <;> rw [Machine.next, hstep]
    · rcases hanswer with ⟨hst, hstep⟩ | ⟨hst, hstep⟩ <;> rw [hst, hstep] <;> rfl
    · rw [exitCode_zero h hne]
      rcases hanswer with ⟨-, hstep⟩ | ⟨-, hstep⟩ <;> rw [hstep] <;> rfl

/-- How a run can have stopped. -/
theorem stop_cases (h : IsRun tr) (hstop : (tr n).status ≠ .running) :
    (tr n = tr 0 ∧ (tr 0).status = .loadError) ∨
      (tr 0).status = .running ∧
        (((tr n).status = .halted ∨ (tr n).status = .fetchOutOfBound ∨ (tr n).status = .invalidInstruction) ∨
          (tr n).status = .memoryOutOfBound) := by
  induction n with
  | zero =>
    obtain ⟨counters, input, h0⟩ := h.start
    refine Or.inl ⟨rfl, ?_⟩
    rw [h0] at hstop ⊢
    unfold loadedWith loaded reset at hstop ⊢
    simp only at hstop ⊢
    split
    · rename_i hok
      exact absurd (if_pos hok) hstop
    · rfl
  | succ n ih =>
    by_cases hrun : (tr n).status = .running
    · right
      refine ⟨?_, ?_⟩
      · by_contra h0
        exact h0 (by rw [← h.frozen h0 (Nat.zero_le n), hrun])
      · rw [h.step] at hstop ⊢
        cases status_event (h.inv n) hrun with
        | running hs => exact absurd hs hstop
        | halted hs => exact Or.inl (Or.inl hs)
        | memory hs => exact Or.inr hs
        | fetch hs => exact Or.inl (Or.inr (Or.inl hs))
        | invalid hs => exact Or.inl (Or.inr (Or.inr hs))
    · rw [h.frozen hrun (Nat.le_succ n)]
      exact ih hrun

end Core

namespace Cpu

open TomasuloCpu.Core

/-- A loop that has ended shows the machine after any number of cycles it was given. -/
theorem run_cycles {cpu : Cpu} {fuel : Nat} {r : RunResult} (h : cpu.run fuel = some r) :
    (cpu.cycles fuel).status ≠ .running ∧ r = ⟨(cpu.cycles fuel).status, (cpu.cycles fuel).exitCode⟩ := by
  induction fuel generalizing cpu with
  | zero =>
    rw [run] at h
    split at h
    · rename_i hstop
      exact ⟨hstop, (Option.some.inj h).symm⟩
    · cases h
  | succ fuel ih =>
    rw [run] at h
    split at h
    · rename_i hstop
      rw [cycles_of_stopped hstop]
      exact ⟨hstop, (Option.some.inj h).symm⟩
    · rw [cycles, Function.iterate_succ_apply]
      exact ih h

/-- The processor and the interpreter show the same at the end. The pc of a halted
    processor is behind HALT. -/
structure EndsAlike (cpu : Cpu) (i : Interpreter) : Prop where
  status : cpu.status.counterpart = some i.status
  value : cpu.exitCode = i.exitCode
  registers : ∀ r, cpu.registerValue r = i.registers r
  memory : cpu.memoryUnit.memory.bytes = i.memory.bytes
  count : cpu.committedCount = i.instructionCount
  pc : cpu.status ≠ .halted → cpu.currentPc = i.pc

theorem memory_load (cpu : Cpu) (i : Interpreter) (input : Istream) :
    (i.load input).2.memory.bytes = (cpu.history input 0).memory.bytes := by
  rw [history_eq]
  rfl

theorem load_ok_of_running (cpu : Cpu) (i : Interpreter) {input : Istream}
    (hrun : (cpu.history input 0).status = .running) : (i.load input).1.ok = true := by
  rw [history_eq] at hrun
  by_contra hok
  have hfail : ((loaded input).after 0).status = .loadError := if_neg hok
  rw [hrun] at hfail
  cases hfail

/-- A text that does not load leaves both with the same error. -/
theorem endsAlike_failed (cpu : Cpu) (i : Interpreter) {input : Istream} {n : Nat}
    (hstuck : cpu.history input n = cpu.history input 0) (herror : (cpu.history input 0).status = .loadError)
    (fuel : Nat) :
    EndsAlike ((cpu.load input).2.cycles n) (i.load input).2 ∧
      (i.load input).2.run fuel = some ((i.load input).2.currentResult, (i.load input).2) := by
  have hcore : ((cpu.load input).2.cycles n).core = loaded input := by
    exact hstuck.trans (history_eq cpu input 0)
  have hok : ¬ (MemoryImage.load input).1.ok = true := by
    intro hok
    have hrun : ((loaded input).after 0).status = .running := if_pos hok
    rw [← history_eq cpu input 0, herror] at hrun
    cases hrun
  have hstatus : (i.load input).2.status = .loadError := if_neg hok
  refine ⟨⟨?_, ?_, fun r => ?_, ?_, ?_, fun _ => ?_⟩, if_pos ?_⟩
  · show (Core.status ((cpu.load input).2.cycles n).core).counterpart = _
    rw [hcore, hstatus]
    show (if (MemoryImage.load input).1.ok then Status.running else .loadError).counterpart = _
    rw [if_neg hok]
    rfl
  · exact congrArg (·.exitCode) hcore
  · have hregs : ((cpu.load input).2.cycles n).registerFile.registers = fun _ => 0 := congrArg (·.registers) hcore
    rw [registerValue, RegisterFile.read, hregs, ite_self]
    rfl
  · exact congrArg (·.memory.bytes) hcore
  · exact congrArg (·.committedCount) hcore
  · exact congrArg (·.pc) hcore
  · rw [hstatus]
    exact ⟨by decide, by decide⟩

/-- Halted, or stopped by the fetch, the processor ends as the interpreter does. -/
theorem endsAlike_stopped (cpu : Cpu) (i : Interpreter) {input : Istream} {n : Nat}
    (hs : ¬ ModifiesWithin ReorderBuffer.kCapacity (cpu.history input 0).memory.bytes)
    (halike : Interpreter.ComparesAlways (cpu.history input 0).memory.bytes)
    (hrun : (cpu.history input 0).status = .running)
    (hstop : (cpu.history input n).status = .halted ∨ (cpu.history input n).status = .fetchOutOfBound ∨
      (cpu.history input n).status = .invalidInstruction) :
    ∃ fuel j, (i.load input).2.run fuel = some (j.currentResult, j) ∧
      EndsAlike ((cpu.load input).2.cycles n) j := by
  obtain ⟨m, hm, hregs, hmem, hpc, hlast, hstatus, hexit⟩ := stop_follows (history_isRun cpu input) hs hstop
  have hstart := i.stands_load (load_ok_of_running cpu i hrun)
  rw [memory_load cpu] at hstart
  obtain ⟨j, hj, hends⟩ := Interpreter.run_stop hstart halike hm hlast (Nat.lt_succ_self _)
  have hanswer := hends.answer
  refine ⟨_, j, by rw [hj, hanswer], ?_, ?_, fun r => ?_, ?_, ?_, fun hne => ?_⟩
  · exact hstatus.trans (by rw [← hanswer]; rfl)
  · exact hexit.trans (by rw [← hanswer]; rfl)
  · rw [registerValue_eq hm hregs, read_eq hm, hends.registers]
  · exact hmem.trans hends.memory.symm
  · exact (committedCount_eq (history_isRun cpu input) n).trans hends.count.symm
  · exact (hpc hne).trans hends.pc.symm

/-- The two programs end alike on an image that modifies its code, if it does, more than 32
    instructions ahead and whose comparisons the interpreter gets right. The loop of one ends if and only if that of the
    other does, provided that the processor raises no data fault; and unless it ends with
    such a fault, the processor ends with the interpreter's answer and in its state. -/
theorem run_agrees (cpu : Cpu) (i : Interpreter) (input : Istream)
    (hs : ¬ ModifiesWithin ReorderBuffer.kCapacity (cpu.load input).2.memoryUnit.memory.bytes)
    (halike : Interpreter.ComparesAlways (cpu.load input).2.memoryUnit.memory.bytes) :
    ((∀ n, ((cpu.load input).2.cycles n).status ≠ .memoryOutOfBound) →
      ((∃ fuel r, (cpu.load input).2.run fuel = some r) ↔ ∃ fuel r, (i.load input).2.run fuel = some r)) ∧
    ∀ fuel r, (cpu.load input).2.run fuel = some r → r.status ≠ .memoryOutOfBound →
      ∃ fuel' j, (i.load input).2.run fuel' = some (j.currentResult, j) ∧
        r.status.counterpart = some j.status ∧ r.value = j.exitCode ∧
        EndsAlike ((cpu.load input).2.cycles fuel) j := by
  have h := history_isRun cpu input
  have hagree : ∀ fuel r, (cpu.load input).2.run fuel = some r → r.status ≠ .memoryOutOfBound →
      ∃ fuel' j, (i.load input).2.run fuel' = some (j.currentResult, j) ∧
        r.status.counterpart = some j.status ∧ r.value = j.exitCode ∧
        EndsAlike ((cpu.load input).2.cycles fuel) j := by
    intro fuel r hr hne
    obtain ⟨hstop, rfl⟩ := run_cycles hr
    rcases stop_cases h hstop with ⟨hstuck, herror⟩ | ⟨hrun, hstopped | hfault⟩
    · obtain ⟨halike, hi⟩ := endsAlike_failed cpu i hstuck herror 0
      exact ⟨0, _, hi, halike.status, halike.value, halike⟩
    · obtain ⟨fuel', j, hj, halike⟩ := endsAlike_stopped cpu i hs halike hrun hstopped
      exact ⟨fuel', j, hj, halike.status, halike.value, halike⟩
    · exact absurd hfault hne
  refine ⟨fun hfault => ⟨?_, ?_⟩, hagree⟩
  · rintro ⟨fuel, r, hr⟩
    obtain ⟨-, rfl⟩ := run_cycles hr
    obtain ⟨fuel', j, hj, -⟩ := hagree fuel _ hr (hfault fuel)
    exact ⟨fuel', _, hj⟩
  · rintro ⟨fuel, r, hr⟩
    have hstops : ∃ n, (cpu.history input n).status ≠ .running := by
      by_cases hrun : (cpu.history input 0).status = .running
      · have hdone : Rv32i.run (cpu.history input 0).memory.bytes fuel = none := by
          by_contra hgoing
          obtain ⟨m, hm⟩ := Option.ne_none_iff_exists'.mp hgoing
          have hstart := i.stands_load (load_ok_of_running cpu i hrun)
          rw [memory_load cpu] at hstart
          rw [Interpreter.run_going hstart halike hm] at hr
          cases hr
        exact run_stops_far h hs hdone
      · exact ⟨0, hrun⟩
    obtain ⟨n, hn⟩ := hstops
    exact ⟨n, _, run_of_cycles (Nat.le_refl n) hn⟩

theorem sample_compares : Interpreter.ComparesAlways (loaded sampleImage).memory.bytes :=
  have hsteps : everyStep (loaded sampleImage).memory.bytes 5
      (fun m => m.instruction.op != .slt && m.instruction.op != .sltu) = true := by decide +kernel
  Interpreter.comparesAlways hsteps

theorem run_agrees_sample :
    ∃ fuel j, (Interpreter.new.load sampleImage).2.run fuel = some (j.currentResult, j) ∧ j.status = .halted ∧
      (sample 19).registerValue 3 = j.registers 3 := by
  have hstatus : (sample 19).status = .halted := by
    rw [(sample_counts 19).2]
    decide +kernel
  have hrun : ((new fun _ => baseOrders).load sampleImage).2.run 19 = some ⟨(sample 19).status, (sample 19).exitCode⟩ :=
    run_of_cycles (Nat.le_refl 19) (show (sample 19).status ≠ .running by rw [hstatus]; decide)
  obtain ⟨fuel, j, hj, hst, -, halike⟩ :=
    (run_agrees (new fun _ => baseOrders) .new sampleImage (not_modifiesWithin sample_code _) sample_compares).2
      19 _ hrun (by rw [hstatus]; decide)
  refine ⟨fuel, j, hj, ?_, halike.registers 3⟩
  rw [hstatus] at hst
  exact (Option.some.inj hst).symm

end Cpu

end TomasuloCpu
