/-
  TomasuloCpu.Tomasulo.UnreadBytes — what a program does not read does not matter.

  The processor fetches and loads ahead of what it commits, and so looks at bytes that the
  sequential run never reads. They change neither the registers behind a commit nor, unless a
  data fault ends the run, its outcome (`unread_bytes`).
-/
import TomasuloCpu.Spec.Footprint
import TomasuloCpu.Tomasulo.Differential
import TomasuloCpu.Tomasulo.Prediction

namespace TomasuloCpu

open Rv32i

namespace Core

variable {tr tr' : Nat → Core} {n n' : Nat}

/-- The run has stopped, but not for a data access. -/
def Settles (s : Core) : Prop := s.status = .halted ∨ s.status = .fetchOutOfBound ∨ s.status = .invalidInstruction

theorem registers_unread (h : IsRun tr) (h' : IsRun tr')
    (hs : ¬ ModifiesWithin ReorderBuffer.kCapacity (tr 0).memory.bytes)
    (hagree : ∀ a, Footprint (tr 0).memory.bytes a → (tr' 0).memory.bytes a = (tr 0).memory.bytes a)
    (heq : retired tr n = retired tr' n') : (tr' n').registers = (tr n).registers := by
  obtain ⟨m, hm, hregs⟩ := registers_follow_far h hs n
  obtain ⟨m', hm', hregs'⟩ := registers_follow_far h' (not_modifiesWithin_alike hs hagree) n'
  obtain ⟨w', hw', halike⟩ := run_alike hagree hm
  rw [heq, hm', Option.some.injEq] at hw'
  subst hw'
  rw [hregs, hregs', halike.registers]

theorem settles_unread (h : IsRun tr) (h' : IsRun tr')
    (hs : ¬ ModifiesWithin ReorderBuffer.kCapacity (tr 0).memory.bytes)
    (hagree : ∀ a, Footprint (tr 0).memory.bytes a → (tr' 0).memory.bytes a = (tr 0).memory.bytes a)
    (hstop : (tr n).Settles) (hstop' : (tr' n').Settles) :
    (tr' n').status = (tr n).status ∧ (tr' n').exitCode = (tr n).exitCode ∧ retired tr' n' = retired tr n ∧
      (tr' n').registers = (tr n).registers ∧
      ∀ a, (tr' n').memory.bytes a = (tr n).memory.bytes a ∨
        ((tr n).memory.bytes a = (tr 0).memory.bytes a ∧ (tr' n').memory.bytes a = (tr' 0).memory.bytes a) := by
  obtain ⟨m, hm, hregs, hbytes, -, hnone, hstatus, hexit⟩ := stop_follows h hs hstop
  obtain ⟨m', hm', hregs', hbytes', -, hnone', hstatus', hexit'⟩ :=
    stop_follows h' (not_modifiesWithin_alike hs hagree) hstop'
  -- both sequential runs stop behind the same number of steps
  obtain ⟨w', hw', halike⟩ := run_alike hagree hm
  have hstep := (halike.alike hm hagree).stops hnone
  have hwnone : w'.next = none := by
    rw [Machine.next] at hnone ⊢
    rw [hstep]
    exact hnone
  have hsteps : retired tr' n' = retired tr n := by
    refine Nat.le_antisymm (Steps.after_stopped hw' hwnone hm') (Steps.after_stopped hm' hnone' hw')
  rw [hsteps, hw', Option.some.injEq] at hm'
  subst hm'
  refine ⟨?_, ?_, hsteps, ?_, fun a => ?_⟩
  · rw [hstep, ← hstatus] at hstatus'
    rcases hstop with hst | hst | hst <;> rcases hstop' with hst' | hst' | hst' <;> rw [hst, hst'] at hstatus' ⊢ <;>
      cases hstatus'
  · rw [hexit', hexit, hstep]
  · rw [hregs', hregs, halike.registers]
  · rw [hbytes', hbytes]
    exact (halike.memory a).imp_right fun hown => ⟨hown.1, hown.2.1⟩

end Core

namespace Cpu

open TomasuloCpu.Core

/-- Two loads that agree on the bytes that the sequential run of the first one reads, as they
    were before it: after the same number of commits the registers are the same, and two runs
    that stop, neither for a data access, stop alike: same status and exit code, same number
    of commits, same registers, and the same memory except for bytes that both left alone. -/
theorem unread_bytes (cpu cpu' : Cpu) (input input' : Istream)
    (hs : ¬ ModifiesWithin ReorderBuffer.kCapacity (cpu.load input).2.memoryUnit.memory.bytes)
    (hagree : ∀ a, Footprint (cpu.load input).2.memoryUnit.memory.bytes a →
      (cpu'.load input').2.memoryUnit.memory.bytes a = (cpu.load input).2.memoryUnit.memory.bytes a) :
    (∀ n n', retired (cpu.history input) n = retired (cpu'.history input') n' →
      (cpu'.history input' n').registers = (cpu.history input n).registers) ∧
    ∀ n n', (cpu.history input n).Settles → (cpu'.history input' n').Settles →
      (cpu'.history input' n').status = (cpu.history input n).status ∧
      (cpu'.history input' n').exitCode = (cpu.history input n).exitCode ∧
      retired (cpu'.history input') n' = retired (cpu.history input) n ∧
      (cpu'.history input' n').registers = (cpu.history input n).registers ∧
      ∀ a, (cpu'.history input' n').memory.bytes a = (cpu.history input n).memory.bytes a ∨
        ((cpu.history input n).memory.bytes a = (cpu.load input).2.memoryUnit.memory.bytes a ∧
          (cpu'.history input' n').memory.bytes a = (cpu'.load input').2.memoryUnit.memory.bytes a) := by
  have h := history_isRun cpu input
  have h' := history_isRun cpu' input'
  exact ⟨fun n n' heq => registers_unread h h' hs hagree heq,
    fun n n' hstop hstop' => settles_unread h h' hs hagree hstop hstop'⟩

/-- `branchImage` with an `addi` in the word that its branch jumps over. -/
def skippedImage : Istream := { text := "@0 63 04 00 00 13 05 10 00 13 05 f0 0f".toList }

theorem skipped_agrees (a : Nat) (ha : Footprint (loaded branchImage).memory.bytes a) :
    (loaded skippedImage).memory.bytes a = (loaded branchImage).memory.bytes a := by
  have hsteps : everyStep (loaded branchImage).memory.bytes 2
      (fun m => (m.pc == 0 || m.pc == 8) && !m.instruction.op.isLoad) = true := by decide +kernel
  have hsame : ∀ a < 12, a < 4 ∨ 8 ≤ a →
      (loaded skippedImage).memory.bytes a = (loaded branchImage).memory.bytes a := by decide +kernel
  obtain ⟨k, m, hm, hread, -⟩ := ha
  have hstep := everyStep_spec hsteps hm
  simp only [Bool.and_eq_true, Bool.or_eq_true, beq_iff_eq, Bool.not_eq_true'] at hstep
  rcases hread with ⟨-, hle, hlt⟩ | ⟨hload, -⟩
  · rcases hstep.1 with hpc | hpc
    · rw [hpc] at hle hlt
      have hlt : a < 4 := hlt
      exact hsame a (by omega) (Or.inl hlt)
    · rw [hpc] at hle hlt
      have hle : 8 ≤ a := hle
      have hlt : a < 12 := hlt
      exact hsame a hlt (Or.inr hle)
  · rw [hstep.2] at hload
    cases hload

theorem unread_bytes_skipped :
    ((new fun _ => baseOrders).history skippedImage 12).exitCode =
      ((new fun _ => baseOrders).history branchImage 12).exitCode := by
  have hstop : ((loaded branchImage).after 12).status = .halted ∧
      ((loaded skippedImage).after 12).status = .halted := by
    decide +kernel
  rw [← history_eq (new fun _ => baseOrders), ← history_eq (new fun _ => baseOrders)] at hstop
  have hboth := (unread_bytes (new fun _ => baseOrders) (new fun _ => baseOrders) branchImage skippedImage
    (not_modifiesWithin branch_code _) skipped_agrees).2 12 12 (Or.inl hstop.1) (Or.inl hstop.2)
  exact hboth.2.1

end Cpu

end TomasuloCpu
