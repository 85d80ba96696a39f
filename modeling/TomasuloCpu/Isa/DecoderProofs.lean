/-
  TomasuloCpu.Isa.DecoderProofs — what `decode` guarantees.

  The flags, the operand sources and the destination of a decoded instruction follow
  from its operation (`decode_spec`); register numbers are below 32.
-/
import TomasuloCpu.Isa.Decoder

namespace TomasuloCpu

namespace Op

def isLoad : Op → Bool
  | .lb | .lh | .lw | .lbu | .lhu => true
  | _ => false

def isStore : Op → Bool
  | .sb | .sh | .sw => true
  | _ => false

def isBranch : Op → Bool
  | .beq | .bne | .blt | .bge | .bltu | .bgeu => true
  | _ => false

def isJump : Op → Bool
  | .jal | .jalr => true
  | _ => false

def isMemory (op : Op) : Bool := op.isLoad || op.isStore

/-- Operations that have a destination register. -/
def writes : Op → Bool
  | .sb | .sh | .sw | .beq | .bne | .blt | .bge | .bltu | .bgeu | .halt | .invalid => false
  | _ => true

def lhsSource : Op → OperandSource
  | .lui | .halt | .invalid => .zero
  | .auipc | .jal => .programCounter
  | _ => .register

def rhsSource : Op → OperandSource
  | .add | .sub | .and | .xor | .or | .sll | .slt | .sltu | .srl | .sra
  | .beq | .bne | .blt | .bge | .bltu | .bgeu => .register
  | .halt | .invalid => .zero
  | _ => .immediate

/-- The operations of the integer unit. -/
def isAlu (op : Op) : Bool := !op.isMemory && op != .halt && op != .invalid

theorem writes_of_isStore {op : Op} (h : op.isStore = true) : op.writes = false := by
  cases op <;> first | rfl | cases h

theorem isLoad_of_isStore {op : Op} (h : op.isStore = true) : op.isLoad = false := by
  cases op <;> first | rfl | cases h

theorem sequential_of_isMemory {op : Op} (h : op.isMemory = true) : (op.isBranch || op.isJump) = false := by
  cases op <;> first | rfl | cases h

theorem ne_halt_of_isStore {op : Op} (h : op.isStore = true) : op ≠ .halt := by
  rintro rfl
  cases h

end Op

/-- A decoded instruction whose fields follow from its operation. -/
structure WellDecoded (d : DecodedInstruction) : Prop where
  load : d.isLoad = d.op.isLoad
  store : d.isStore = d.op.isStore
  branch : d.isBranch = d.op.isBranch
  jump : d.isJump = d.op.isJump
  writes : d.writesRd = (d.op.writes && d.rd != 0)
  lhs : d.lhsSource = d.op.lhsSource
  rhs : d.rhsSource = d.op.rhsSource
  rd_lt : d.rd.toNat < 32
  rs1_lt : d.rs1.toNat < 32
  rs2_lt : d.rs2.toNat < 32

namespace Decoder

theorem decodeRegister_lt (bits : InstructionBits) {high low : Nat} (h : high = low + 4) (hlt : high < 32) :
    (decodeRegister bits high low).toNat < 32 := by
  have hmask : bitMask (high - low + 1) = 31#32 := by
    rw [show high - low + 1 = 5 by omega]; rfl
  have hle : ((bits >>> low) &&& 31#32).toNat ≤ 31 := by
    rw [BitVec.toNat_and]; exact Nat.and_le_right
  rw [decodeRegister, extractBits, if_neg (by simp; omega)]
  simp only [if_pos hlt, hmask, BitVec.toNat_setWidth]
  omega

/-- An instruction without that field has register 0 there. -/
theorem zero_lt : (0 : RegisterIndex).toNat < 32 := by decide

theorem wellDecoded_invalid : WellDecoded {} :=
  ⟨rfl, rfl, rfl, rfl, rfl, rfl, rfl, zero_lt, zero_lt, zero_lt⟩

theorem opOfRType_mem (funct3 funct7 : Word) :
    opOfRType funct3 funct7 ∈
      [Op.add, .sub, .sll, .slt, .sltu, .xor, .srl, .sra, .or, .and, .invalid] := by
  unfold opOfRType
  repeat' refine iteInduction (motive := (· ∈ _)) (fun _ => ?_) fun _ => ?_
  all_goals decide

theorem opOfRType_spec (funct3 funct7 : Word) (h : opOfRType funct3 funct7 ≠ .invalid) :
    let op := opOfRType funct3 funct7
    op.isLoad = false ∧ op.isStore = false ∧ op.isBranch = false ∧ op.isJump = false ∧ op.writes = true ∧
      op.lhsSource = .register ∧ op.rhsSource = .register := by
  have hall : ∀ op ∈ [Op.add, .sub, .sll, .slt, .sltu, .xor, .srl, .sra, .or, .and, .invalid], op ≠ .invalid →
      op.isLoad = false ∧ op.isStore = false ∧ op.isBranch = false ∧ op.isJump = false ∧ op.writes = true ∧
        op.lhsSource = .register ∧ op.rhsSource = .register := by
    decide
  exact hall _ (opOfRType_mem funct3 funct7) h

theorem decodeRType_spec (bits : InstructionBits) : WellDecoded (decodeRType bits) := by
  unfold decodeRType
  simp only []
  split
  · exact wellDecoded_invalid
  · rename_i h
    obtain ⟨hl, hs, hb, hj, hw, h1, h2⟩ := opOfRType_spec _ _ h
    refine ⟨hl.symm, hs.symm, hb.symm, hj.symm, ?_, h1.symm, h2.symm, ?_, ?_, ?_⟩
    · simp [hw, writeRegister]
    all_goals exact decodeRegister_lt bits rfl (by decide)

theorem opImmediate_spec {bits : InstructionBits} {op : Op} {imm : Word} (h : opImmediate bits = some (op, imm)) :
    op.isLoad = false ∧ op.isStore = false ∧ op.isBranch = false ∧ op.isJump = false ∧ op.writes = true ∧
      op.lhsSource = .register ∧ op.rhsSource = .immediate := by
  revert h
  unfold opImmediate
  repeat' refine iteInduction (motive := (· = some (op, imm) → _)) (fun _ => ?_) fun _ => ?_
  all_goals
    intro h
    cases h
  all_goals exact ⟨rfl, rfl, rfl, rfl, rfl, rfl, rfl⟩

theorem opOfLoad_spec {funct3 : Word} {op : Op} (h : opOfLoad funct3 = some op) :
    op.isLoad = true ∧ op.isStore = false ∧ op.isBranch = false ∧ op.isJump = false ∧ op.writes = true ∧
      op.lhsSource = .register ∧ op.rhsSource = .immediate := by
  unfold opOfLoad at h
  repeat' split at h
  all_goals first
    | (cases h; exact ⟨rfl, rfl, rfl, rfl, rfl, rfl, rfl⟩)
    | cases h

theorem decodeIType_spec (bits : InstructionBits) : WellDecoded (decodeIType bits) := by
  have hrd : (decodeRegister bits 11 7).toNat < 32 := decodeRegister_lt bits rfl (by decide)
  have hrs1 : (decodeRegister bits 19 15).toNat < 32 := decodeRegister_lt bits rfl (by decide)
  unfold decodeIType
  simp only []
  repeat' split
  case h_2 heq =>
    obtain ⟨hl, hs, hb, hj, hw, h1, h2⟩ := opImmediate_spec heq
    exact ⟨hl.symm, hs.symm, hb.symm, hj.symm, by simp [hw, writeRegister], h1.symm, h2.symm, hrd, hrs1, zero_lt⟩
  case h_2 heq =>
    obtain ⟨hl, hs, hb, hj, hw, h1, h2⟩ := opOfLoad_spec heq
    exact ⟨hl.symm, hs.symm, hb.symm, hj.symm, by simp [hw, writeRegister], h1.symm, h2.symm, hrd, hrs1, zero_lt⟩
  all_goals first
    | exact wellDecoded_invalid
    | exact ⟨rfl, rfl, rfl, rfl, by simp [Op.writes, writeRegister], rfl, rfl, hrd, hrs1, zero_lt⟩

theorem opOfStore_spec {funct3 : Word} {op : Op} (h : opOfStore funct3 = some op) :
    op.isLoad = false ∧ op.isStore = true ∧ op.isBranch = false ∧ op.isJump = false ∧ op.writes = false ∧
      op.lhsSource = .register ∧ op.rhsSource = .immediate := by
  unfold opOfStore at h
  repeat' split at h
  all_goals first
    | (cases h; exact ⟨rfl, rfl, rfl, rfl, rfl, rfl, rfl⟩)
    | cases h

theorem decodeSType_spec (bits : InstructionBits) : WellDecoded (decodeSType bits) := by
  have hrs1 : (decodeRegister bits 19 15).toNat < 32 := decodeRegister_lt bits rfl (by decide)
  have hrs2 : (decodeRegister bits 24 20).toNat < 32 := decodeRegister_lt bits rfl (by decide)
  unfold decodeSType
  split
  · exact wellDecoded_invalid
  · rename_i heq
    obtain ⟨hl, hs, hb, hj, hw, h1, h2⟩ := opOfStore_spec heq
    exact ⟨hl.symm, hs.symm, hb.symm, hj.symm, by simp [hw], h1.symm, h2.symm, zero_lt, hrs1, hrs2⟩

theorem opOfBranch_spec {funct3 : Word} {op : Op} (h : opOfBranch funct3 = some op) :
    op.isLoad = false ∧ op.isStore = false ∧ op.isBranch = true ∧ op.isJump = false ∧ op.writes = false ∧
      op.lhsSource = .register ∧ op.rhsSource = .register := by
  unfold opOfBranch at h
  repeat' split at h
  all_goals first
    | (cases h; exact ⟨rfl, rfl, rfl, rfl, rfl, rfl, rfl⟩)
    | cases h

theorem decodeBType_spec (bits : InstructionBits) : WellDecoded (decodeBType bits) := by
  have hrs1 : (decodeRegister bits 19 15).toNat < 32 := decodeRegister_lt bits rfl (by decide)
  have hrs2 : (decodeRegister bits 24 20).toNat < 32 := decodeRegister_lt bits rfl (by decide)
  unfold decodeBType
  split
  · exact wellDecoded_invalid
  · rename_i heq
    obtain ⟨hl, hs, hb, hj, hw, h1, h2⟩ := opOfBranch_spec heq
    exact ⟨hl.symm, hs.symm, hb.symm, hj.symm, by simp [hw], h1.symm, h2.symm, zero_lt, hrs1, hrs2⟩

theorem decodeUType_spec (bits : InstructionBits) : WellDecoded (decodeUType bits) := by
  have hrd : (decodeRegister bits 11 7).toNat < 32 := decodeRegister_lt bits rfl (by decide)
  unfold decodeUType
  simp only []
  repeat' split
  all_goals first
    | exact wellDecoded_invalid
    | exact ⟨rfl, rfl, rfl, rfl, by simp [Op.writes, writeRegister], rfl, rfl, hrd, zero_lt, zero_lt⟩

theorem decodeJType_spec (bits : InstructionBits) : WellDecoded (decodeJType bits) :=
  ⟨rfl, rfl, rfl, rfl, by simp [decodeJType, Op.writes, writeRegister], rfl, rfl,
    decodeRegister_lt bits rfl (by decide), zero_lt, zero_lt⟩

theorem decode_spec (bits : InstructionBits) : WellDecoded (decode bits) := by
  unfold decode
  simp only []
  repeat' split
  · exact ⟨rfl, rfl, rfl, rfl, rfl, rfl, rfl, zero_lt, zero_lt, zero_lt⟩
  · exact decodeRType_spec bits
  · exact decodeIType_spec bits
  · exact decodeSType_spec bits
  · exact decodeBType_spec bits
  · exact decodeUType_spec bits
  · exact decodeJType_spec bits
  · exact wellDecoded_invalid

theorem decodeRType_immediate (bits : InstructionBits) : (decodeRType bits).immediate = 0 := by
  unfold decodeRType
  simp only []
  split <;> rfl

theorem decodeIType_rhs (bits : InstructionBits) : (decodeIType bits).rhsSource ≠ .register := by
  unfold decodeIType
  simp only []
  repeat' split
  all_goals (intro hc; cases hc)

theorem decodeSType_rhs (bits : InstructionBits) : (decodeSType bits).rhsSource ≠ .register := by
  unfold decodeSType
  split <;> (intro hc; cases hc)

theorem decodeUType_rhs (bits : InstructionBits) : (decodeUType bits).rhsSource ≠ .register := by
  unfold decodeUType
  simp only []
  repeat' split
  all_goals (intro hc; cases hc)

/-- Only branches have two source registers and an immediate. -/
theorem immediate_of_registers (bits : InstructionBits) :
    (decode bits).rhsSource = .register → (decode bits).isBranch = false → (decode bits).immediate = 0 := by
  unfold decode
  simp only []
  repeat' split
  · intro hc; cases hc
  · exact fun _ _ => decodeRType_immediate bits
  · exact fun hr => absurd hr (decodeIType_rhs bits)
  · exact fun hr => absurd hr (decodeSType_rhs bits)
  · unfold decodeBType
    split
    · intro hc; cases hc
    · intro _ hc; cases hc
  · exact fun hr => absurd hr (decodeUType_rhs bits)
  · intro hc; cases hc
  · intro hc; cases hc

end Decoder

/-- Every operation but HALT and the invalid one goes to the memory queue or to the
    integer unit. -/
theorem Op.isAlu_of {op : Op} (hm : op.isMemory = false) (hh : op ≠ .halt) (hi : op ≠ .invalid) : op.isAlu = true := by
  simp [Op.isAlu, hm, hh, hi]

end TomasuloCpu
