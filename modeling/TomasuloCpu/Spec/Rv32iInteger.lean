/-
  TomasuloCpu.Spec.Rv32iInteger — the integer instructions in the integers.

  A register holds a number mod 2^32, read as signed or unsigned. `rdValue` and `nextPc`
  say in integers what an instruction writes and where it continues; the sequential
  machine's word operations compute them mod 2^32 (`arithmetic_eq`, `target_eq`).
-/
import TomasuloCpu.Spec.Rv32i

namespace TomasuloCpu.Rv32i

/-- What the instruction writes to `rd`, mod 2^32; `a` and `b` are the source registers. -/
def rdValue (op : Op) (pc a b immediate : Word) : Int :=
  match op with
  | .lui => immediate.toInt
  | .auipc => pc.toInt + immediate.toInt
  | .addi => a.toInt + immediate.toInt
  | .slti => if a.toInt < immediate.toInt then 1 else 0
  | .sltiu => if a.toNat < immediate.toNat then 1 else 0
  | .xori => (a.toNat ^^^ immediate.toNat : Nat)
  | .ori => (a.toNat ||| immediate.toNat : Nat)
  | .andi => (a.toNat &&& immediate.toNat : Nat)
  | .slli => a.toInt * (2 ^ (immediate.toNat % 32) : Nat)
  | .srli => (a.toNat / 2 ^ (immediate.toNat % 32) : Nat)
  | .srai => a.toInt.fdiv (2 ^ (immediate.toNat % 32) : Nat)
  | .add => a.toInt + b.toInt
  | .sub => a.toInt - b.toInt
  | .sll => a.toInt * (2 ^ (b.toNat % 32) : Nat)
  | .slt => if a.toInt < b.toInt then 1 else 0
  | .sltu => if a.toNat < b.toNat then 1 else 0
  | .xor => (a.toNat ^^^ b.toNat : Nat)
  | .srl => (a.toNat / 2 ^ (b.toNat % 32) : Nat)
  | .sra => a.toInt.fdiv (2 ^ (b.toNat % 32) : Nat)
  | .or => (a.toNat ||| b.toNat : Nat)
  | .and => (a.toNat &&& b.toNat : Nat)
  | .jal | .jalr => pc.toInt + 4
  | _ => 0

/-- The condition of a branch. -/
def holds (op : Op) (a b : Word) : Bool :=
  match op with
  | .beq => decide (a.toInt = b.toInt)
  | .bne => decide (a.toInt ≠ b.toInt)
  | .blt => decide (a.toInt < b.toInt)
  | .bge => decide (b.toInt ≤ a.toInt)
  | .bltu => decide (a.toNat < b.toNat)
  | .bgeu => decide (b.toNat ≤ a.toNat)
  | _ => false

/-- Where the program continues, mod 2^32. A JALR target is made even. -/
def nextPc (op : Op) (pc a b immediate : Word) : Int :=
  match op with
  | .jal => pc.toInt + immediate.toInt
  | .jalr => a.toInt + immediate.toInt - (a.toInt + immediate.toInt) % 2
  | _ => if holds op a b then pc.toInt + immediate.toInt else pc.toInt + 4

/-! ## Words and integers -/

theorem ofInt_add (x y : Word) : BitVec.ofInt 32 (x.toInt + y.toInt) = x + y := by
  rw [BitVec.ofInt_add, BitVec.ofInt_toInt, BitVec.ofInt_toInt]

theorem ofInt_sub (x y : Word) : BitVec.ofInt 32 (x.toInt - y.toInt) = x - y := by
  rw [Int.sub_eq_add_neg, BitVec.ofInt_add, BitVec.ofInt_neg, BitVec.ofInt_toInt, BitVec.ofInt_toInt,
    BitVec.sub_eq_add_neg]

theorem ofInt_next (pc : Word) : BitVec.ofInt 32 (pc.toInt + 4) = pc + 4 := ofInt_add pc 4

theorem ofInt_mul_pow (x : Word) (n : Nat) : BitVec.ofInt 32 (x.toInt * (2 ^ n : Nat)) = x <<< n := by
  have hpow : BitVec.ofNat 32 (2 ^ n) = BitVec.twoPow 32 n := by
    apply BitVec.eq_of_toNat_eq
    rw [BitVec.toNat_ofNat, BitVec.toNat_twoPow]
  rw [BitVec.ofInt_mul, BitVec.ofInt_toInt, BitVec.ofInt_natCast, hpow, BitVec.shiftLeft_eq_mul_twoPow]

/-- The shifted-in sign bits round down. -/
theorem ofInt_fdiv_pow (x : Word) (n : Nat) : BitVec.ofInt 32 (x.toInt.fdiv (2 ^ n : Nat)) = x.sshiftRight n := by
  rw [Int.fdiv_eq_ediv_of_nonneg _ (Int.natCast_nonneg _), ← Int.shiftRight_eq_div_pow, ← BitVec.toInt_sshiftRight,
    BitVec.ofInt_toInt]

theorem ofInt_div_pow (x : Word) (n : Nat) : BitVec.ofInt 32 (x.toNat / 2 ^ n : Nat) = x >>> n := by
  rw [BitVec.ofInt_natCast, ← Nat.shiftRight_eq_div_pow, ← BitVec.toNat_ushiftRight, BitVec.ofNat_toNat,
    BitVec.setWidth_eq]

/-- A number read from the bits of a word is the word. -/
theorem ofInt_bits (x : Word) : BitVec.ofInt 32 (x.toNat : Int) = x := by
  rw [BitVec.ofInt_natCast, BitVec.ofNat_toNat, BitVec.setWidth_eq]

/-- A word with bit 0 cleared is the even number below it. -/
theorem clear_bit_zero (x : Word) : x &&& ~~~1#32 = BitVec.ofInt 32 (x.toInt - x.toInt % 2) := by
  have hhalf : x.toInt - x.toInt % 2 = (x.sshiftRight 1).toInt * (2 ^ 1 : Nat) := by
    rw [BitVec.toInt_sshiftRight, Int.shiftRight_eq_div_pow]
    omega
  rw [hhalf, ofInt_mul_pow]
  apply BitVec.eq_of_getLsbD_eq
  intro i hi
  rw [BitVec.getLsbD_and, BitVec.getLsbD_not, BitVec.getLsbD_shiftLeft, BitVec.getLsbD_sshiftRight]
  cases i with
  | zero => simp
  | succ i =>
    simp [hi, Nat.add_comm]
    omega

/-- Taking a sum mod 2^32 first makes no difference to the even number below it. -/
theorem ofInt_even (x y : Word) : BitVec.ofInt 32 ((x + y).toInt - (x + y).toInt % 2) =
    BitVec.ofInt 32 (x.toInt + y.toInt - (x.toInt + y.toInt) % 2) := by
  obtain ⟨q, hq⟩ : ∃ q : Int, (x + y).toInt = x.toInt + y.toInt + 4294967296 * q := by
    rw [BitVec.toInt_add, Int.bmod_def]
    split
    · exact ⟨-((x.toInt + y.toInt) / 4294967296), by omega⟩
    · exact ⟨-((x.toInt + y.toInt) / 4294967296) - 1, by omega⟩
  have hwrap : (x + y).toInt - (x + y).toInt % 2 =
      x.toInt + y.toInt - (x.toInt + y.toInt) % 2 + 4294967296 * q := by omega
  have hzero : BitVec.ofInt 32 4294967296 = 0#32 := by decide
  rw [hwrap, BitVec.ofInt_add, BitVec.ofInt_mul, hzero, BitVec.zero_mul, BitVec.add_zero]

/-! ## The machine's operations -/

theorem slt_eq (x y : Word) :
    (if x.slt y then 1 else 0 : Word) = BitVec.ofInt 32 (if x.toInt < y.toInt then 1 else 0) := by
  by_cases h : x.toInt < y.toInt
  · simp [BitVec.slt, h]
  · simp [BitVec.slt, h]

theorem ult_eq (x y : Word) :
    (if x.ult y then 1 else 0 : Word) = BitVec.ofInt 32 (if x.toNat < y.toNat then 1 else 0) := by
  by_cases h : x.toNat < y.toNat
  · simp [BitVec.ult, h]
  · simp [BitVec.ult, h]

/-- The machine writes that value mod 2^32. -/
theorem arithmetic_eq (op : Op) (pc a b immediate : Word) :
    arithmetic op pc a b immediate = BitVec.ofInt 32 (rdValue op pc a b immediate) := by
  unfold arithmetic rdValue
  cases op <;> simp only [slt_eq, ult_eq, ofInt_add, ofInt_sub, ofInt_next, ofInt_mul_pow, ofInt_fdiv_pow, ofInt_div_pow,
    ← BitVec.toNat_xor, ← BitVec.toNat_or, ← BitVec.toNat_and, ofInt_bits, BitVec.ofInt_toInt] <;> rfl

theorem taken_eq (op : Op) (a b : Word) : taken op a b = holds op a b := by
  have hge : ∀ x y : Word, (!x.slt y) = decide (y.toInt ≤ x.toInt) := by
    intro x y
    rw [BitVec.slt, ← decide_not, decide_eq_decide, Int.not_lt]
  have hgeu : ∀ x y : Word, (!x.ult y) = decide (y.toNat ≤ x.toNat) := by
    intro x y
    rw [BitVec.ult, ← decide_not, decide_eq_decide, Nat.not_lt]
  unfold taken holds
  cases op with
  | beq => simp [BitVec.toInt_inj, beq_eq_decide]
  | bne => simp [BitVec.toInt_inj, bne, beq_eq_decide]
  | bge => exact hge a b
  | bgeu => exact hgeu a b
  | _ => rfl

theorem target_eq (op : Op) (pc a b immediate : Word) :
    target op pc a b immediate = BitVec.ofInt 32 (nextPc op pc a b immediate) := by
  have hbranch : ∀ taken : Bool, (if taken then pc + immediate else pc + 4) =
      BitVec.ofInt 32 (if taken then pc.toInt + immediate.toInt else pc.toInt + 4) := by
    intro taken
    cases taken with
    | true => exact (ofInt_add pc immediate).symm
    | false => exact (ofInt_next pc).symm
  unfold target nextPc
  rw [taken_eq]
  cases op with
  | jal => exact (ofInt_add pc immediate).symm
  | jalr => exact (clear_bit_zero _).trans (ofInt_even a immediate)
  | _ => exact hbranch _

end TomasuloCpu.Rv32i
