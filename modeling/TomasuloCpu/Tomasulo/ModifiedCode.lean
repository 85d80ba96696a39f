/-
  TomasuloCpu.Tomasulo.ModifiedCode — programs that modify their code far ahead.

  At most 32 instructions are in flight, so a word is fetched after every store that is more
  than 32 instructions older has written. A program may then store into its own code, as long
  as the word is executed later than that: the machine still refines the sequential one
  (`far_stores_refinement`). `storesFar` checks such a program by computation.
-/
import TomasuloCpu.Tomasulo.Differential

namespace TomasuloCpu

open Rv32i

namespace Rv32i

variable {memory : Nat → Byte} {m m' : Machine}

/-- The store of `m` is to none of the bytes that `m'` fetches. -/
def storesApart (m m' : Machine) : Bool :=
  !m.instruction.op.isStore ||
    decide (m'.pc.toNat + 4 ≤ (m.address m.instruction).toNat ∨
      (m.address m.instruction).toNat + accessWidth m.instruction.op ≤ m'.pc.toNat)

theorem storesApart_spec (h : storesApart m m' = true) {a : Nat} (hst : m.Stores a) : ¬ m'.Fetches a := by
  rintro ⟨-, hlow, hhigh⟩
  obtain ⟨hop, hfrom, hto⟩ := hst
  rw [storesApart, hop, Bool.not_true, Bool.false_or, decide_eq_true_eq] at h
  omega

/-- The store of `m`, if it makes one, is to no word that one of the `distance` steps behind
    it fetches. -/
def storesFar (distance : Nat) (m : Machine) : Bool :=
  !m.instruction.op.isStore ||
    (List.range distance).all fun k => (Steps.after Machine.next m (k + 1)).all (storesApart m)

/-- A check by computation of a run that stops within `n` steps. -/
theorem not_modifiesWithin_of_storesFar {distance n : Nat} (h : everyStep memory n (storesFar distance) = true) :
    ¬ ModifiesWithin distance memory := by
  rintro ⟨i, j, a, m, m', hlt, hnear, hm, hm', hst, hfetch⟩
  obtain ⟨k, rfl⟩ := Nat.exists_eq_add_of_lt hlt
  have hfar := everyStep_spec h hm
  rw [storesFar, hst.1, Bool.not_true, Bool.false_or, List.all_eq_true] at hfar
  have hlater := hfar k (List.mem_range.mpr (by omega))
  have hafter : Steps.after Machine.next m (k + 1) = some m' := (Steps.after_add hm).symm.trans hm'
  rw [hafter] at hlater
  exact storesApart_spec hlater hst hfetch

end Rv32i

namespace Cpu

open TomasuloCpu.Core

/-- After `n` cycles of an image whose run fetches no byte that one of the 32 steps before
    stored, the registers are those after `committed_count` steps of the sequential run, and
    the memory too, or it is one step ahead. When HALT or the fetch has stopped the machine,
    the sequential one stops there with the same answer. -/
theorem far_stores_refinement (cpu : Cpu) (input : Istream)
    (hs : ¬ ModifiesWithin ReorderBuffer.kCapacity (cpu.load input).2.memoryUnit.memory.bytes)
    (n : Nat) (hn : n < 2 ^ 64) :
    ∃ m, Rv32i.run (cpu.load input).2.memoryUnit.memory.bytes
        ((cpu.load input).2.cycles n).committedCount.toNat = some m ∧
      (∀ r, ((cpu.load input).2.cycles n).registerValue r = m.read r) ∧
      (¬ Latched (cpu.history input) n →
        ((cpu.load input).2.cycles n).memoryUnit.memory.bytes = m.memory) ∧
      (Latched (cpu.history input) n →
        ∃ m', m.next = some m' ∧ ((cpu.load input).2.cycles n).memoryUnit.memory.bytes = m'.memory) ∧
      (((cpu.load input).2.cycles n).status = .halted ∨ ((cpu.load input).2.cycles n).status = .fetchOutOfBound ∨
          ((cpu.load input).2.cycles n).status = .invalidInstruction →
        m.next = none ∧ ((cpu.load input).2.cycles n).status.counterpart = some m.step.answer.status ∧
          ((cpu.load input).2.cycles n).exitCode = m.step.answer.value ∧
          ((cpu.load input).2.cycles n).memoryUnit.memory.bytes = m.memory) := by
  have h := history_isRun cpu input
  have hcount : ((cpu.load input).2.cycles n).committedCount.toNat = retired (cpu.history input) n :=
    committedCount_toNat h hn
  rw [hcount]
  obtain ⟨m, hm, hreg⟩ := registers_follow_far h hs n
  have hmem := (follows_far h hs n).2
  refine ⟨m, hm, registerValue_eq hm hreg, fun hno => ?_, fun hl => ?_, fun hstop => ?_⟩
  · obtain ⟨y, hy, hbytes⟩ := hmem.settled hno
    obtain rfl := Option.some.inj (hm.symm.trans hy)
    exact hbytes
  · obtain ⟨y, hy, hbytes⟩ := hmem.latched hl
    exact ⟨y, by rw [← run_succ hm, hy], hbytes⟩
  · obtain ⟨y, hy, -, hbytes, -, hlast, hstatus, hexit⟩ := stop_follows h hs hstop
    obtain rfl := Option.some.inj (hm.symm.trans hy)
    exact ⟨hlast, hstatus, hexit, hbytes⟩

/-- `lw x6, 36(x0)`, `sw x6, 24(x0)`, a loop of 32 instructions, `addi x5, x0, 1`,
    `addi x10, x0, 1`, HALT: the store makes the last `addi` load 7. -/
def patchedImage : Istream where
  text := ("@0 03 23 40 02 23 2c 60 00 93 03 00 01 93 83 f3 ff e3 9e 03 fe " ++
    "93 02 10 00 13 05 10 00 13 05 f0 0f 00 00 00 00 13 05 70 00").toList

theorem patched_code : ¬ ModifiesWithin ReorderBuffer.kCapacity
    ((new fun _ => baseOrders).load patchedImage).2.memoryUnit.memory.bytes := by
  have hcode : everyStep (loaded patchedImage).memory.bytes 38 (storesFar ReorderBuffer.kCapacity) = true := by
    decide +kernel
  rw [load_memory]
  exact not_modifiesWithin_of_storesFar hcode

theorem far_stores_refinement_sample :
    ∃ m, Rv32i.run ((new fun _ => baseOrders).load patchedImage).2.memoryUnit.memory.bytes
        (((new fun _ => baseOrders).load patchedImage).2.cycles 65).committedCount.toNat = some m ∧
      (((new fun _ => baseOrders).load patchedImage).2.cycles 65).registerValue 10 = m.read 10 := by
  obtain ⟨m, hm, hreg, -⟩ :=
    far_stores_refinement (new fun _ => baseOrders) patchedImage patched_code 65 (by decide)
  exact ⟨m, hm, hreg 10⟩

end Cpu

end TomasuloCpu
