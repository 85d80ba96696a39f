/-
  TomasuloCpu.Tomasulo.Datapath — the integer unit and the load path compute RV32I.

  Given the operands the decoder selects, `executeInstruction` returns the sequential
  machine's result and successor (`executeInstruction_spec`); the bytes of a load are
  extended as that machine extends them (`extendLoadResult_spec`).
-/
import TomasuloCpu.Common.Bits
import TomasuloCpu.Memory.MemoryProofs
import TomasuloCpu.Spec.Rv32i
import TomasuloCpu.Tomasulo.FunctionalUnit
import TomasuloCpu.Tomasulo.LoadStoreQueue

namespace TomasuloCpu

namespace FunctionalUnit

theorem shiftAmount (x : Word) : (x &&& kShiftMask).toNat = x.toNat % 32 := by
  rw [BitVec.toNat_and, show kShiftMask.toNat = 2 ^ 5 - 1 from rfl, Nat.and_two_pow_sub_one_eq_mod]

/-- The mask with ones above the shifted value is the sign. -/
theorem arithmeticShiftRight_eq (x : Word) (amount : Nat) :
    arithmeticShiftRight x amount = x.sshiftRight (amount % 32) := by
  have hlt : amount % 32 < 32 := Nat.mod_lt _ (by decide)
  unfold arithmeticShiftRight
  generalize amount % 32 = n at hlt
  simp only []
  have hsign : (x &&& 0x80000000 ≠ 0) ↔ x.msb = true := by
    rw [show (0x80000000 : Word) = BitVec.twoPow 32 31 from rfl, BitVec.and_twoPow, BitVec.msb_eq_getLsbD_last]
    cases x.getLsbD 31 <;> simp
  by_cases hn : n = 0
  · simp [hn]
  · rw [if_neg hn]
    apply BitVec.eq_of_getLsbD_eq
    intro i hi
    rw [BitVec.getLsbD_sshiftRight]
    by_cases hm : x.msb = true
    · rw [if_pos (hsign.mpr hm)]
      simp only [BitVec.getLsbD_or, BitVec.getLsbD_ushiftRight, BitVec.getLsbD_shiftLeft, BitVec.getLsbD_not,
        BitVec.getLsbD_zero, hm]
      by_cases hin : n + i < 32
      · simp [hin, hi, show i < 32 - n by omega, show ¬ 32 ≤ i by omega]
      · simp [hin, hi, show ¬ i < 32 - n by omega, show ¬ 32 ≤ i by omega, show i - (32 - n) < 32 by omega]
    · rw [if_neg fun hc => hm (hsign.mp hc), BitVec.getLsbD_ushiftRight]
      by_cases hin : n + i < 32
      · simp [hin, show ¬ 32 ≤ i by omega]
      · simp [hin, hm, BitVec.getLsbD_of_ge x (n + i) (by omega)]

theorem signedLessThan_eq (a b : Word) : signedLessThan a b = a.slt b := rfl

theorem signedGreaterEqual_eq (a b : Word) : signedGreaterEqual a b = !a.slt b := by
  rw [signedGreaterEqual, BitVec.slt, ← decide_not, decide_eq_decide, Int.not_lt]

theorem lessThan_eq (a b : Word) : decide (a < b) = a.ult b := rfl

theorem greaterEqual_eq (a b : Word) : decide (b ≤ a) = !a.ult b := by
  rw [BitVec.ult, ← decide_not, decide_eq_decide, BitVec.le_def, Nat.not_lt]

/-- The operand an instruction's source selects. -/
def selected (src : OperandSource) (pc register immediate : Word) : Word :=
  match src with
  | .immediate => immediate
  | .register => register
  | .programCounter => pc
  | .zero => 0

theorem executeInstruction_spec {e : Execute} (h : e.op.isAlu = true) {a b : Word}
    (hl : e.operand1 = selected e.op.lhsSource e.pc a e.immediate)
    (hr : e.operand2 = selected e.op.rhsSource e.pc b e.immediate) :
    (executeInstruction e).result = Rv32i.arithmetic e.op e.pc a b e.immediate ∧
      (executeInstruction e).actualNextPc = Rv32i.target e.op e.pc a b e.immediate := by
  obtain ⟨op, lhs, rhs, immediate, pc, tag, valid⟩ := e
  simp only at h hl hr ⊢
  subst hl hr
  unfold executeInstruction
  simp only [shiftAmount, arithmeticShiftRight_eq, signedLessThan_eq, signedGreaterEqual_eq, lessThan_eq, greaterEqual_eq,
    Nat.mod_mod]
  cases op <;> first
    | exact ⟨rfl, rfl⟩
    | exact ⟨BitVec.zero_add immediate, rfl⟩
    | exact absurd h (by decide)

/-- Every operation of the unit fills the packet's tag and says whether it transfers
    control. -/
theorem executeInstruction_frame {e : Execute} (h : e.op.isAlu = true) :
    (executeInstruction e).valid = true ∧ (executeInstruction e).tag = e.tag ∧
      (executeInstruction e).hasControlResult = (e.op.isBranch || e.op.isJump) := by
  unfold executeInstruction
  cases ho : e.op <;> first | exact ⟨rfl, rfl, rfl⟩ | (rw [ho] at h; cases h)

/-- A jump is taken, a branch when its comparison holds. -/
theorem executeInstruction_branchTaken {e : Execute} {a b : Word}
    (hl : e.operand1 = selected e.op.lhsSource e.pc a e.immediate)
    (hr : e.operand2 = selected e.op.rhsSource e.pc b e.immediate) :
    (executeInstruction e).branchTaken = (e.op.isJump || Rv32i.taken e.op a b) := by
  obtain ⟨op, lhs, rhs, immediate, pc, tag, valid⟩ := e
  simp only at hl hr ⊢
  subst hl hr
  unfold executeInstruction
  simp only [signedLessThan_eq, signedGreaterEqual_eq, lessThan_eq, greaterEqual_eq]
  cases op <;> rfl

end FunctionalUnit

/-! ## Loads -/

theorem width_eq {op : Op} (h : op.isMemory = true) :
    MemoryUnit.widthInBytes (LoadStoreQueue.memoryWidth op) = Rv32i.accessWidth op := by
  cases op <;> first | rfl | cases h

namespace LoadStoreQueue

/-- A load of `w` bytes has no bits above them. -/
theorem load_masked {mask : Word} {w : Nat} (bytes : Nat → Byte) (a : Nat)
    (hm : mask = BitVec.ofNat 32 (2 ^ (8 * w) - 1)) :
    (LittleEndian.load bytes a w : Word) &&& mask = LittleEndian.load bytes a w := by
  apply BitVec.eq_of_getLsbD_eq
  intro i hi
  rw [BitVec.getLsbD_and, hm, BitVec.getLsbD_ofNat, Nat.testBit_two_pow_sub_one]
  by_cases hw : i < 8 * w
  · simp [hi, hw]
  · rw [LittleEndian.load_high (by omega), Bool.false_and]

theorem extendLoadResult_spec {op : Op} (h : op.isLoad = true) (bytes : Nat → Byte) (a : Nat) :
    extendLoadResult op (LittleEndian.load bytes a (MemoryUnit.widthInBytes (memoryWidth op))) =
      Rv32i.extend op (LittleEndian.load bytes a (Rv32i.accessWidth op)) := by
  cases op with
  | lb => exact signExtend_eq _ (by decide) (by decide)
  | lh => exact signExtend_eq _ (by decide) (by decide)
  | lw => rfl
  | lbu => exact load_masked (w := 1) bytes a rfl
  | lhu => exact load_masked (w := 2) bytes a rfl
  | _ => cases h

end LoadStoreQueue

end TomasuloCpu
