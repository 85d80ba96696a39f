/-
  TomasuloCpu.Isa.DecoderExact — the decoder accepts RV32I's words and no others.

  An immediate is put together from slices of the word (`decodeBImmediate_eq` and the
  others). A word that matches a row of the opcode table decodes to that row's fields
  (`decodeFields_of_matches`), every word accepted matches a row
  (`matches_of_decodeFields`), and the fields of an encoded instruction are the ones
  encoded (`fieldsOf_encode`).
-/
import TomasuloCpu.Common.Bits
import TomasuloCpu.Spec.Encoding

namespace TomasuloCpu

namespace Decoder

open Rv32i

/-! ## Immediates as slices of the word -/

theorem decodeRegister_eq (w : InstructionBits) {high low : Nat} (h : high + 1 = low + 5) (hhigh : high < 32) :
    decodeRegister w high low = (w.extractLsb' low 5).setWidth 8 := by
  rw [decodeRegister, extractBits_eq w h (by decide) hhigh, BitVec.setWidth_setWidth_of_le _ (by decide)]

theorem decodeIImmediate_eq (w : InstructionBits) :
    decodeIImmediate w = (w.extractLsb' 20 12).signExtend 32 := by
  rw [decodeIImmediate, extractBits_eq (n := 12) w rfl (by decide) (by decide),
    signExtend_eq _ (by decide) (by decide), BitVec.setWidth_setWidth_of_le _ (by decide), BitVec.setWidth_eq]

theorem decodeSImmediate_eq (w : InstructionBits) :
    decodeSImmediate w = (w.extractLsb' 25 7 ++ w.extractLsb' 7 5).signExtend 32 := by
  have hfields := shiftLeft_or_shiftLeft (w.extractLsb' 25 7) (w.extractLsb' 7 5) 0
  rw [BitVec.shiftLeft_zero, BitVec.shiftLeft_zero] at hfields
  rw [decodeSImmediate, extractBits_eq (n := 7) w rfl (by decide) (by decide),
    extractBits_eq (n := 5) w rfl (by decide) (by decide), hfields, signExtend_eq _ (by decide) (by decide),
    BitVec.setWidth_setWidth_of_le _ (by decide), BitVec.setWidth_eq]

theorem decodeBImmediate_eq (w : InstructionBits) :
    decodeBImmediate w = (w.extractLsb' 31 1 ++ w.extractLsb' 7 1 ++ w.extractLsb' 25 6 ++ w.extractLsb' 8 4 ++
      0#1).signExtend 32 := by
  rw [decodeBImmediate, setBit_eq w _ (by decide), setBit_eq w _ (by decide), show (0 : Word) = 0#32 from rfl,
    BitVec.zero_or, extractBits_eq (n := 6) w rfl (by decide) (by decide),
    extractBits_eq (n := 4) w rfl (by decide) (by decide),
    shiftLeft_or_shiftLeft (w.extractLsb' 31 1) (w.extractLsb' 7 1) 11, shiftLeft_or_shiftLeft _ (w.extractLsb' 25 6) 5,
    shiftLeft_or_shiftLeft _ (w.extractLsb' 8 4) 1, shiftLeft_eq_append, signExtend_eq _ (by decide) (by decide),
    BitVec.setWidth_setWidth_of_le _ (by decide), BitVec.setWidth_eq]

theorem decodeJImmediate_eq (w : InstructionBits) :
    decodeJImmediate w = (w.extractLsb' 31 1 ++ w.extractLsb' 12 8 ++ w.extractLsb' 20 1 ++ w.extractLsb' 21 10 ++
      0#1).signExtend 32 := by
  rw [decodeJImmediate, setBit_eq w _ (by decide), setBit_eq w _ (by decide), show (0 : Word) = 0#32 from rfl,
    BitVec.zero_or, extractBits_eq (n := 8) w rfl (by decide) (by decide),
    extractBits_eq (n := 10) w rfl (by decide) (by decide),
    shiftLeft_or_shiftLeft (w.extractLsb' 31 1) (w.extractLsb' 12 8) 12,
    shiftLeft_or_shiftLeft _ (w.extractLsb' 20 1) 11, shiftLeft_or_shiftLeft _ (w.extractLsb' 21 10) 1,
    shiftLeft_eq_append, signExtend_eq _ (by decide) (by decide), BitVec.setWidth_setWidth_of_le _ (by decide),
    BitVec.setWidth_eq]

theorem decodeUImmediate_eq (w : InstructionBits) : decodeUImmediate w = w.extractLsb' 12 20 ++ 0#12 := by
  apply BitVec.eq_of_getLsbD_eq
  intro i hi
  have hmask : (0xfffff000 : Word) = BitVec.allOnes 20 ++ 0#12 := by decide
  rw [decodeUImmediate, hmask, BitVec.getLsbD_and, BitVec.getLsbD_append, BitVec.getLsbD_append]
  by_cases h : i < 12
  · simp [h]
  · rw [if_neg h, if_neg h, BitVec.getLsbD_allOnes, BitVec.getLsbD_extractLsb', decide_eq_true (by omega),
      Bool.and_true, Bool.true_and, show 12 + (i - 12) = i by omega]

/-! ## Fields of the word -/

theorem opcode_eq (w : InstructionBits) : extractBits w 6 0 = (w.extractLsb' 0 7).setWidth 32 :=
  extractBits_eq w rfl (by decide) (by decide)

theorem funct3_eq (w : InstructionBits) : extractBits w 14 12 = (w.extractLsb' 12 3).setWidth 32 :=
  extractBits_eq w rfl (by decide) (by decide)

theorem funct7_eq (w : InstructionBits) : extractBits w 31 25 = (w.extractLsb' 25 7).setWidth 32 :=
  extractBits_eq w rfl (by decide) (by decide)

theorem shamt_eq (w : InstructionBits) : extractBits w 24 20 = (w.extractLsb' 20 5).setWidth 32 :=
  extractBits_eq w rfl (by decide) (by decide)

theorem rd_eq (w : InstructionBits) : decodeRegister w 11 7 = (w.extractLsb' 7 5).setWidth 8 :=
  decodeRegister_eq w rfl (by decide)

theorem rs1_eq (w : InstructionBits) : decodeRegister w 19 15 = (w.extractLsb' 15 5).setWidth 8 :=
  decodeRegister_eq w rfl (by decide)

theorem rs2_eq (w : InstructionBits) : decodeRegister w 24 20 = (w.extractLsb' 20 5).setWidth 8 :=
  decodeRegister_eq w rfl (by decide)

/-- `decode` after the test for the stop marker. -/
def decodeFields (bits : InstructionBits) : DecodedInstruction :=
  let opcode := extractBits bits 6 0
  if opcode = kOpOpcode then decodeRType bits
  else if opcode = kLoadOpcode || opcode = kOpImmediateOpcode || opcode = kJalrOpcode then decodeIType bits
  else if opcode = kStoreOpcode then decodeSType bits
  else if opcode = kBranchOpcode then decodeBType bits
  else if opcode = kLuiOpcode || opcode = kAuipcOpcode then decodeUType bits
  else if opcode = kJalOpcode then decodeJType bits
  else {}

theorem decode_fields {w : InstructionBits} (h : w ≠ kHaltEncoding) : decode w = decodeFields w := if_neg h

/-! ## Decoding an encoded instruction -/

theorem writeRegister_eq (rd : BitVec 5) : writeRegister (rd.setWidth 8) = (rd != 0) := by
  have hzero : rd.setWidth 8 = 0#8 ↔ rd = 0#5 := by
    rw [← BitVec.toNat_inj, ← BitVec.toNat_inj, BitVec.toNat_setWidth_of_le (by decide)]
    rfl
  rw [writeRegister, Bool.eq_iff_iff, bne_iff_ne, bne_iff_ne]
  exact not_congr hzero

/-- The immediate that a word holds in a format. -/
def immediateOf (format : Format) (w : InstructionBits) : Word :=
  match format with
  | .r => 0
  | .i => (w.extractLsb' 20 12).signExtend 32
  | .shift => (w.extractLsb' 20 5).setWidth 32
  | .s => (w.extractLsb' 25 7 ++ w.extractLsb' 7 5).signExtend 32
  | .b =>
    (w.extractLsb' 31 1 ++ w.extractLsb' 7 1 ++ w.extractLsb' 25 6 ++ w.extractLsb' 8 4 ++ 0#1).signExtend 32
  | .u => w.extractLsb' 12 20 ++ 0#12
  | .j =>
    (w.extractLsb' 31 1 ++ w.extractLsb' 12 8 ++ w.extractLsb' 20 1 ++ w.extractLsb' 21 10 ++ 0#1).signExtend 32

/-- The fields that a word holds in a format. -/
def fieldsOf (op : Op) (format : Format) (w : InstructionBits) : DecodedInstruction :=
  { op := op
    rd := if format.hasRd then (w.extractLsb' 7 5).setWidth 8 else 0
    rs1 := if format.hasRs1 then (w.extractLsb' 15 5).setWidth 8 else 0
    rs2 := if format.hasRs2 then (w.extractLsb' 20 5).setWidth 8 else 0
    immediate := immediateOf format w
    lhsSource := op.lhsSource
    rhsSource := op.rhsSource
    usesRs1 := format.hasRs1
    usesRs2 := format.hasRs2
    writesRd := format.hasRd && w.extractLsb' 7 5 != 0
    isLoad := op.isLoad
    isStore := op.isStore
    isBranch := op.isBranch
    isJump := op.isJump }

/-- The word has the fixed fields of this row of the opcode table. -/
structure Matches (e : Encoding) (w : InstructionBits) : Prop where
  opcode : w.extractLsb' 0 7 = e.opcode
  funct3 : e.format.hasRs1 = true → w.extractLsb' 12 3 = e.funct3
  funct7 : e.format = .r ∨ e.format = .shift → w.extractLsb' 25 7 = e.funct7

/-- Each row of the table selects its own branch of the decoder. -/
theorem decodeFields_of_matches {op : Op} {e : Encoding} {w : InstructionBits} (h : encoding op = some e)
    (hm : Matches e w) : decodeFields w = fieldsOf op e.format w := by
  obtain ⟨hopcode, hfunct3, hfunct7⟩ := hm
  unfold decodeFields decodeRType decodeIType decodeSType decodeBType decodeUType decodeJType opImmediate
  simp only [opcode_eq, funct3_eq, funct7_eq, shamt_eq, rd_eq, rs1_eq, rs2_eq, decodeIImmediate_eq,
    decodeSImmediate_eq, decodeBImmediate_eq, decodeUImmediate_eq, decodeJImmediate_eq, writeRegister_eq, hopcode]
  cases op
  case halt | invalid => cases h
  case lui | auipc | jal =>
    cases h
    rfl
  case add | sub | sll | slt | sltu | xor | srl | sra | or | and =>
    cases h
    simp only [hfunct3 rfl, hfunct7 (.inl rfl)]
    rfl
  case slli | srli | srai =>
    cases h
    simp only [hfunct3 rfl, hfunct7 (.inr rfl)]
    rfl
  all_goals
    cases h
    simp only [hfunct3 rfl]
    rfl

/-! ## An accepted word matches a row -/

theorem opOfRType_encoding : ∀ (funct3 : BitVec 3) (funct7 : BitVec 7),
    opOfRType (funct3.setWidth 32) (funct7.setWidth 32) = .invalid ∨
      encoding (opOfRType (funct3.setWidth 32) (funct7.setWidth 32)) =
        some { format := .r, opcode := 0x33, funct3 := funct3, funct7 := funct7 } := by
  decide +kernel

theorem opOfLoad_encoding : ∀ funct3 : BitVec 3, ∀ op ∈ opOfLoad (funct3.setWidth 32),
    encoding op = some { format := .i, opcode := 0x03, funct3 := funct3 } := by
  decide

theorem opOfStore_encoding : ∀ funct3 : BitVec 3, ∀ op ∈ opOfStore (funct3.setWidth 32),
    encoding op = some { format := .s, opcode := 0x23, funct3 := funct3 } := by
  decide

theorem opOfBranch_encoding : ∀ funct3 : BitVec 3, ∀ op ∈ opOfBranch (funct3.setWidth 32),
    encoding op = some { format := .b, opcode := 0x63, funct3 := funct3 } := by
  decide

variable {w : InstructionBits}

/-- A row without a funct7 field. -/
theorem matches_of {format : Format} {opcode : BitVec 7} {funct3 : BitVec 3} (hr : format ≠ .r) (hs : format ≠ .shift)
    (hopcode : w.extractLsb' 0 7 = opcode) (hfunct3 : format.hasRs1 = true → w.extractLsb' 12 3 = funct3) :
    Matches { format := format, opcode := opcode, funct3 := funct3 } w := by
  refine ⟨hopcode, hfunct3, ?_⟩
  rintro (h | h)
  · exact absurd h hr
  · exact absurd h hs

theorem opImmediate_matches (hopcode : w.extractLsb' 0 7 = 0x13#7) (h : opImmediate w ≠ none) :
    ∃ op e, encoding op = some e ∧ Matches e w := by
  have hall : ∀ funct3 : BitVec 3, funct3 = 0 ∨ funct3 = 1 ∨ funct3 = 2 ∨ funct3 = 3 ∨ funct3 = 4 ∨ funct3 = 5 ∨
      funct3 = 6 ∨ funct3 = 7 := by
    decide
  have hrow : ∀ (op : Op) {funct3 : BitVec 3}, w.extractLsb' 12 3 = funct3 →
      encoding op = some { format := .i, opcode := 0x13, funct3 := funct3 } →
        ∃ op e, encoding op = some e ∧ Matches e w := by
    intro op funct3 h3 henc
    exact ⟨op, _, henc, matches_of (by decide) (by decide) hopcode fun _ => h3⟩
  have hshift : ∀ (op : Op) {funct3 : BitVec 3} (funct7 : BitVec 7), w.extractLsb' 12 3 = funct3 →
      extractBits w 31 25 = funct7.setWidth 32 →
      encoding op = some { format := .shift, opcode := 0x13, funct3 := funct3, funct7 := funct7 } →
        ∃ op e, encoding op = some e ∧ Matches e w := by
    intro op funct3 funct7 h3 h7 henc
    rw [funct7_eq] at h7
    exact ⟨op, _, henc, hopcode, fun _ => h3, fun _ => setWidth_injective (by decide) h7⟩
  rcases hall (w.extractLsb' 12 3) with h3 | h3 | h3 | h3 | h3 | h3 | h3 | h3
  · exact hrow .addi h3 rfl
  · by_cases h7 : extractBits w 31 25 = kBaseFunct7
    · exact hshift .slli 0x00 h3 h7 rfl
    · refine absurd ?_ h
      unfold opImmediate
      simp only [funct3_eq, h3]
      exact if_pos h7
  · exact hrow .slti h3 rfl
  · exact hrow .sltiu h3 rfl
  · exact hrow .xori h3 rfl
  · by_cases h7 : extractBits w 31 25 = kBaseFunct7
    · exact hshift .srli 0x00 h3 h7 rfl
    · by_cases h7' : extractBits w 31 25 = kAlternateFunct7
      · exact hshift .srai 0x20 h3 h7' rfl
      · refine absurd ?_ h
        unfold opImmediate
        simp only [funct3_eq, h3]
        exact (if_neg h7).trans (if_neg h7')
  · exact hrow .ori h3 rfl
  · exact hrow .andi h3 rfl

theorem rType_matches (hopcode : w.extractLsb' 0 7 = 0x33#7) (h : (decodeRType w).op ≠ .invalid) :
    ∃ op e, encoding op = some e ∧ Matches e w := by
  unfold decodeRType at h
  simp only [funct3_eq, funct7_eq] at h
  rcases opOfRType_encoding (w.extractLsb' 12 3) (w.extractLsb' 25 7) with hop | henc
  · rw [if_pos hop] at h
    exact absurd rfl h
  · exact ⟨_, _, henc, hopcode, fun _ => rfl, fun _ => rfl⟩

theorem load_matches (hopcode : w.extractLsb' 0 7 = 0x03#7) (h : opOfLoad (extractBits w 14 12) ≠ none) :
    ∃ op e, encoding op = some e ∧ Matches e w := by
  rw [funct3_eq] at h
  obtain ⟨op, hop⟩ := Option.ne_none_iff_exists'.mp h
  exact ⟨op, _, opOfLoad_encoding _ op hop, matches_of (by decide) (by decide) hopcode fun _ => rfl⟩

theorem sType_matches (hopcode : w.extractLsb' 0 7 = 0x23#7) (h : (decodeSType w).op ≠ .invalid) :
    ∃ op e, encoding op = some e ∧ Matches e w := by
  unfold decodeSType at h
  rw [funct3_eq] at h
  cases hop : opOfStore ((w.extractLsb' 12 3).setWidth 32) with
  | none =>
    rw [hop] at h
    exact absurd rfl h
  | some op => exact ⟨op, _, opOfStore_encoding _ op hop, matches_of (by decide) (by decide) hopcode fun _ => rfl⟩

theorem bType_matches (hopcode : w.extractLsb' 0 7 = 0x63#7) (h : (decodeBType w).op ≠ .invalid) :
    ∃ op e, encoding op = some e ∧ Matches e w := by
  unfold decodeBType at h
  rw [funct3_eq] at h
  cases hop : opOfBranch ((w.extractLsb' 12 3).setWidth 32) with
  | none =>
    rw [hop] at h
    exact absurd rfl h
  | some op => exact ⟨op, _, opOfBranch_encoding _ op hop, matches_of (by decide) (by decide) hopcode fun _ => rfl⟩

theorem slice_opcode {opcode : BitVec 7} (h : extractBits w 6 0 = opcode.setWidth 32) :
    w.extractLsb' 0 7 = opcode := by
  rw [opcode_eq] at h
  exact setWidth_injective (by decide) h

theorem iType_matches (h : (decodeIType w).op ≠ .invalid) : ∃ op e, encoding op = some e ∧ Matches e w := by
  revert h
  unfold decodeIType
  simp only []
  by_cases himm : extractBits w 6 0 = kOpImmediateOpcode
  · rw [if_pos himm]
    cases hop : opImmediate w with
    | none => exact fun h => absurd rfl h
    | some r => exact fun _ => opImmediate_matches (slice_opcode himm) (by rw [hop]; exact Option.some_ne_none r)
  · rw [if_neg himm]
    by_cases hload : extractBits w 6 0 = kLoadOpcode
    · rw [if_pos hload]
      cases hop : opOfLoad (extractBits w 14 12) with
      | none => exact fun h => absurd rfl h
      | some op => exact fun _ => load_matches (slice_opcode hload) (by rw [hop]; exact Option.some_ne_none op)
    · rw [if_neg hload]
      by_cases hjalr : extractBits w 6 0 = kJalrOpcode
      · rw [if_pos hjalr]
        by_cases h3 : extractBits w 14 12 = 0
        · intro _
          rw [funct3_eq] at h3
          exact ⟨.jalr, _, rfl, matches_of (by decide) (by decide) (slice_opcode hjalr) fun _ =>
            setWidth_injective (y := 0#3) (by decide) h3⟩
        · rw [if_pos h3]
          exact fun h => absurd rfl h
      · rw [if_neg hjalr]
        exact fun h => absurd rfl h

theorem matches_of_decodeFields (h : (decodeFields w).op ≠ .invalid) :
    ∃ op e, encoding op = some e ∧ Matches e w := by
  have hfixed : ∀ (op : Op) (opcode : BitVec 7) {format : Format}, extractBits w 6 0 = opcode.setWidth 32 →
      encoding op = some { format := format, opcode := opcode } → format = .u ∨ format = .j →
        ∃ op e, encoding op = some e ∧ Matches e w := by
    intro op opcode format hopcode henc hf
    refine ⟨op, _, henc, matches_of ?_ ?_ (slice_opcode hopcode) ?_⟩
    · rcases hf with rfl | rfl <;> decide
    · rcases hf with rfl | rfl <;> decide
    · rcases hf with rfl | rfl <;> exact fun hc => (by cases hc)
  revert h
  unfold decodeFields
  simp only []
  by_cases hop : extractBits w 6 0 = kOpOpcode
  · rw [if_pos hop]
    exact rType_matches (slice_opcode hop)
  rw [if_neg hop]
  split
  · exact iType_matches
  by_cases hstore : extractBits w 6 0 = kStoreOpcode
  · rw [if_pos hstore]
    exact sType_matches (slice_opcode hstore)
  rw [if_neg hstore]
  by_cases hbranch : extractBits w 6 0 = kBranchOpcode
  · rw [if_pos hbranch]
    exact bType_matches (slice_opcode hbranch)
  rw [if_neg hbranch]
  split
  · rename_i hupper
    intro _
    rw [Bool.or_eq_true, decide_eq_true_iff, decide_eq_true_iff] at hupper
    rcases hupper with hlui | hauipc
    · exact hfixed .lui 0x37 hlui rfl (.inl rfl)
    · exact hfixed .auipc 0x17 hauipc rfl (.inl rfl)
  by_cases hjal : extractBits w 6 0 = kJalOpcode
  · exact fun _ => hfixed .jal 0x6f hjal rfl (.inr rfl)
  · rw [if_neg hjal]
    exact fun h => absurd rfl h

/-! ## The fields of an encoded instruction -/

section

variable (e : Encoding) (rd rs1 rs2 : BitVec 5) (x : Word)

theorem encodeFields_matches : Matches e (encodeFields e rd rs1 rs2 x) := by
  obtain ⟨format, opcode, funct3, funct7⟩ := e
  refine ⟨?_, ?_, ?_⟩
  · cases format <;> exact BitVec.extractLsb'_append_eq_right
  · intro h
    cases format <;> first
      | (cases h; done)
      | simp (disch := omega) only [encodeFields, BitVec.extractLsb'_append_eq_of_le,
          BitVec.extractLsb'_append_eq_of_add_le, BitVec.extractLsb'_eq_self, Nat.reduceSub]
  · rintro (rfl | rfl) <;>
      simp (disch := omega) only [encodeFields, BitVec.extractLsb'_append_eq_of_le, BitVec.extractLsb'_eq_self,
        Nat.reduceSub]

theorem encodeFields_registers :
    (e.format.hasRd = true → (encodeFields e rd rs1 rs2 x).extractLsb' 7 5 = rd) ∧
      (e.format.hasRs1 = true → (encodeFields e rd rs1 rs2 x).extractLsb' 15 5 = rs1) ∧
      (e.format.hasRs2 = true → (encodeFields e rd rs1 rs2 x).extractLsb' 20 5 = rs2) := by
  obtain ⟨format, opcode, funct3, funct7⟩ := e
  refine ⟨?_, ?_, ?_⟩
  all_goals
    intro h
    cases format <;> first
      | (cases h; done)
      | simp (disch := omega) only [encodeFields, BitVec.extractLsb'_append_eq_of_le,
          BitVec.extractLsb'_append_eq_of_add_le, BitVec.extractLsb'_eq_self, Nat.reduceSub]

/-- The immediate of an encoded instruction is the one encoded. -/
theorem encodeFields_immediate (hfits : e.format.Fits x) (h : e.format.hasImmediate = true) :
    immediateOf e.format (encodeFields e rd rs1 rs2 x) = x := by
  obtain ⟨format, opcode, funct3, funct7⟩ := e
  cases format with
  | r => cases h
  | i =>
    obtain ⟨hlow, hhigh⟩ := hfits
    simp (disch := omega) only [encodeFields, immediateOf, BitVec.extractLsb'_append_eq_of_le,
      BitVec.extractLsb'_eq_self, Nat.reduceSub]
    exact signExtend_low (n := 11) (by decide) hlow hhigh
  | shift =>
    simp (disch := omega) only [encodeFields, immediateOf, BitVec.extractLsb'_append_eq_of_le,
      BitVec.extractLsb'_append_eq_of_add_le, BitVec.extractLsb'_eq_self, Nat.reduceSub]
    exact low_of_lt (n := 5) (by decide) hfits
  | s =>
    obtain ⟨hlow, hhigh⟩ := hfits
    simp (disch := omega) only [encodeFields, immediateOf, BitVec.extractLsb'_append_eq_of_le,
      BitVec.extractLsb'_append_eq_of_add_le, BitVec.extractLsb'_eq_self, Nat.reduceSub,
      BitVec.extractLsb'_append_extractLsb'_eq_extractLsb']
    exact signExtend_low (n := 11) (by decide) hlow hhigh
  | b =>
    obtain ⟨hlow, hhigh, heven⟩ := hfits
    simp (disch := omega) only [encodeFields, immediateOf, BitVec.extractLsb'_append_eq_of_le,
      BitVec.extractLsb'_append_eq_of_add_le, BitVec.extractLsb'_eq_self, Nat.reduceSub, ← (even_iff x).mp heven,
      BitVec.extractLsb'_append_extractLsb'_eq_extractLsb']
    exact signExtend_low (n := 12) (by decide) hlow hhigh
  | u =>
    simp (disch := omega) only [encodeFields, immediateOf, BitVec.extractLsb'_append_eq_of_le,
      BitVec.extractLsb'_eq_self, Nat.reduceSub, ← (low_zero_iff x 12).mp hfits, BitVec.extractLsb'_append_extractLsb']
  | j =>
    obtain ⟨hlow, hhigh, heven⟩ := hfits
    simp (disch := omega) only [encodeFields, immediateOf, BitVec.extractLsb'_append_eq_of_le,
      BitVec.extractLsb'_append_eq_of_add_le, BitVec.extractLsb'_eq_self, Nat.reduceSub, ← (even_iff x).mp heven,
      BitVec.extractLsb'_append_extractLsb'_eq_extractLsb']
    exact signExtend_low (n := 20) (by decide) hlow hhigh

theorem fits_immediateOf (format : Format) (w : InstructionBits) : format.Fits (immediateOf format w) := by
  have heven : ∀ {n : Nat} (y : BitVec n), n < 32 → ((y ++ 0#1).signExtend 32).toInt % 2 = 0 := by
    intro n y hn
    rw [even_iff, extractLsb'_signExtend _ (by omega) (by omega), BitVec.extractLsb'_append_eq_right]
  cases format with
  | r => trivial
  | i => exact signExtend_range (n := 11) _ (by decide)
  | shift =>
    show ((w.extractLsb' 20 5).setWidth 32).toNat < 32
    rw [BitVec.toNat_setWidth_of_le (by decide)]
    exact (w.extractLsb' 20 5).isLt
  | s => exact signExtend_range (n := 11) _ (by decide)
  | b =>
    obtain ⟨hlow, hhigh⟩ := signExtend_range (n := 12)
      (w.extractLsb' 31 1 ++ w.extractLsb' 7 1 ++ w.extractLsb' 25 6 ++ w.extractLsb' 8 4 ++ 0#1) (by decide)
    exact ⟨hlow, hhigh, heven _ (by decide)⟩
  | u =>
    show (w.extractLsb' 12 20 ++ 0#12).toNat % 4096 = 0
    exact (low_zero_iff _ 12).mpr BitVec.extractLsb'_append_eq_right
  | j =>
    obtain ⟨hlow, hhigh⟩ := signExtend_range (n := 20)
      (w.extractLsb' 31 1 ++ w.extractLsb' 12 8 ++ w.extractLsb' 20 1 ++ w.extractLsb' 21 10 ++ 0#1) (by decide)
    exact ⟨hlow, hhigh, heven _ (by decide)⟩

/-- A word that matches a row is made of its fields in that format. -/
theorem encodeFields_of_matches {w : InstructionBits} (h : Matches e w) :
    encodeFields e (w.extractLsb' 7 5) (w.extractLsb' 15 5) (w.extractLsb' 20 5) (immediateOf e.format w) = w := by
  obtain ⟨format, opcode, funct3, funct7⟩ := e
  obtain ⟨hopcode, hfunct3, hfunct7⟩ := h
  simp only at hopcode hfunct3 hfunct7 ⊢
  cases format with
  | r =>
    simp only [encodeFields, ← hopcode, ← hfunct3 rfl, ← hfunct7 (.inl rfl),
      BitVec.extractLsb'_append_extractLsb'_eq_extractLsb', BitVec.extractLsb'_eq_self]
  | i =>
    simp (disch := omega) only [encodeFields, immediateOf, extractLsb'_signExtend, BitVec.extractLsb'_eq_self,
      ← hopcode, ← hfunct3 rfl, BitVec.extractLsb'_append_extractLsb'_eq_extractLsb']
  | shift =>
    simp (disch := omega) only [encodeFields, immediateOf, BitVec.extractLsb'_setWidth_of_le,
      BitVec.extractLsb'_eq_self, ← hopcode, ← hfunct3 rfl, ← hfunct7 (.inr rfl),
      BitVec.extractLsb'_append_extractLsb'_eq_extractLsb']
  | s =>
    simp (disch := omega) only [encodeFields, immediateOf, extractLsb'_signExtend,
      BitVec.extractLsb'_append_eq_of_le, BitVec.extractLsb'_append_eq_of_add_le, BitVec.extractLsb'_eq_self,
      Nat.reduceSub, ← hopcode, ← hfunct3 rfl, BitVec.extractLsb'_append_extractLsb'_eq_extractLsb']
  | b =>
    simp (disch := omega) only [encodeFields, immediateOf, extractLsb'_signExtend,
      BitVec.extractLsb'_append_eq_of_le, BitVec.extractLsb'_append_eq_of_add_le, BitVec.extractLsb'_eq_self,
      Nat.reduceSub, ← hopcode, ← hfunct3 rfl, BitVec.extractLsb'_append_extractLsb'_eq_extractLsb']
  | u =>
    simp (disch := omega) only [encodeFields, immediateOf, BitVec.extractLsb'_append_eq_left, ← hopcode,
      BitVec.extractLsb'_append_extractLsb'_eq_extractLsb', BitVec.extractLsb'_eq_self]
  | j =>
    simp (disch := omega) only [encodeFields, immediateOf, extractLsb'_signExtend,
      BitVec.extractLsb'_append_eq_of_le, BitVec.extractLsb'_append_eq_of_add_le, BitVec.extractLsb'_eq_self,
      Nat.reduceSub, ← hopcode, BitVec.extractLsb'_append_extractLsb'_eq_extractLsb']

/-- The fields that a format has determine the word. -/
theorem encodeFields_congr {rd' rs1' rs2' : BitVec 5} {x' : Word} (hrd : e.format.hasRd = true → rd = rd')
    (hrs1 : e.format.hasRs1 = true → rs1 = rs1') (hrs2 : e.format.hasRs2 = true → rs2 = rs2')
    (himm : e.format.hasImmediate = true → x = x') : encodeFields e rd rs1 rs2 x = encodeFields e rd' rs1' rs2' x' := by
  obtain ⟨format, opcode, funct3, funct7⟩ := e
  cases format with
  | r => rw [hrd rfl, hrs1 rfl, hrs2 rfl]; rfl
  | i | shift => rw [hrd rfl, hrs1 rfl, himm rfl]; rfl
  | s | b => rw [hrs1 rfl, hrs2 rfl, himm rfl]; rfl
  | u | j => rw [hrd rfl, himm rfl]; rfl

end

/-! ## The decoder against the encodings -/

variable (ins : Instruction)

theorem fieldsOf_encode : fieldsOf ins.op ins.encoding.format ins.encode = ins.decoded := by
  obtain ⟨hrd, hrs1, hrs2⟩ := encodeFields_registers ins.encoding ins.rd ins.rs1 ins.rs2 ins.immediate
  have himm : immediateOf ins.encoding.format ins.encode =
      if ins.encoding.format.hasImmediate then ins.immediate else 0 := by
    split
    case isTrue h => exact encodeFields_immediate _ _ _ _ _ ins.fits h
    case isFalse h =>
      cases hf : ins.encoding.format <;> first
        | rfl
        | (rw [hf] at h; exact absurd rfl h)
  have hwrites : (ins.encoding.format.hasRd && ins.encode.extractLsb' 7 5 != 0) =
      (ins.encoding.format.hasRd && ins.rd != 0) := by
    cases hf : ins.encoding.format.hasRd with
    | false => rfl
    | true => rw [Instruction.encode, hrd hf]
  have hregister : ∀ {b : Bool} {r r' : BitVec 5}, (b = true → r = r') →
      (if b then r.setWidth 8 else 0 : RegisterIndex) = if b then r'.setWidth 8 else 0 := by
    intro b r r' h
    cases b with
    | false => rfl
    | true => rw [h rfl]
  unfold fieldsOf Instruction.decoded
  simp only [himm, hwrites]
  rw [Instruction.encode, hregister hrd, hregister hrs1, hregister hrs2]

theorem decodeFields_encode : decodeFields ins.encode = ins.decoded :=
  (decodeFields_of_matches ins.listed (encodeFields_matches _ _ _ _ _)).trans (fieldsOf_encode ins)

variable {ins}

theorem encoding_of_op {op : Op} {e : Encoding} (hop : ins.op = op) (h : encoding op = some e) : ins.encoding = e := by
  have hl := ins.listed
  rw [hop, h] at hl
  exact (Option.some.inj hl).symm

theorem supported : ins.op ≠ .halt ∧ ins.op ≠ .invalid := by
  have h := ins.listed
  constructor
  · intro hc
    rw [hc] at h
    cases h
  · intro hc
    rw [hc] at h
    cases h

/-- The decoded fields determine the word. -/
theorem encode_of_decoded {ins' : Instruction} (h : ins.decoded = ins'.decoded) : ins.encode = ins'.encode := by
  have hop : ins.op = ins'.op := congrArg (·.op) h
  have hrow : ins.encoding = ins'.encoding := encoding_of_op hop ins'.listed
  have hregister : ∀ {b : Bool} {r r' : BitVec 5},
      (if b then r.setWidth 8 else 0 : RegisterIndex) = (if b then r'.setWidth 8 else 0) → b = true → r = r' := by
    intro b r r' heq hb
    rw [if_pos hb, if_pos hb] at heq
    exact setWidth_injective (by decide) heq
  have hrd := congrArg (·.rd) h
  have hrs1 := congrArg (·.rs1) h
  have hrs2 := congrArg (·.rs2) h
  have himm := congrArg (·.immediate) h
  simp only [Instruction.decoded, ← hrow] at hrd hrs1 hrs2 himm
  rw [Instruction.encode, Instruction.encode, ← hrow]
  refine encodeFields_congr _ _ _ _ _ (hregister hrd) (hregister hrs1) (hregister hrs2) ?_
  intro hi
  rwa [if_pos hi, if_pos hi] at himm

theorem exists_encode {w : InstructionBits} (h : (decodeFields w).op ≠ .invalid) :
    ∃ ins : Instruction, ins.encode = w := by
  obtain ⟨op, e, hlisted, hm⟩ := matches_of_decodeFields h
  exact ⟨⟨op, e, _, _, _, _, hlisted, fits_immediateOf e.format w⟩, encodeFields_of_matches e hm⟩

theorem decode_accepts (w : InstructionBits) : (decode w).op ≠ .invalid ↔ ∃ ins : Instruction, ins.encode = w := by
  by_cases hw : w = kHaltEncoding
  · have hfields : (decodeFields w).op ≠ .invalid := by
      rw [hw]
      decide
    exact iff_of_true (by rw [hw]; decide) (exists_encode hfields)
  · rw [decode_fields hw]
    constructor
    · exact exists_encode
    · rintro ⟨ins, rfl⟩
      rw [decodeFields_encode]
      exact supported.2

theorem decode_halt (w : InstructionBits) : (decode w).op = .halt ↔ w = kHaltEncoding := by
  constructor
  · intro h
    by_cases hw : w = kHaltEncoding
    · exact hw
    · obtain ⟨ins, rfl⟩ := (decode_accepts w).mp (by rw [h]; decide)
      rw [decode_fields hw, decodeFields_encode] at h
      exact absurd h supported.1
  · rintro rfl
    rfl

/-- The stop marker is the encoding of `addi x10, x0, 255`. -/
theorem encode_marker : ins.encode = kHaltEncoding ↔
    ins.op = .addi ∧ ins.rd = 10 ∧ ins.rs1 = 0 ∧ ins.immediate = 255 := by
  constructor
  · intro h
    have hd := decodeFields_encode ins
    rw [h] at hd
    have hop : ins.op = .addi := (congrArg (·.op) hd).symm
    have hrow : ins.encoding = { format := .i, opcode := 0x13 } := encoding_of_op hop rfl
    have hrd := congrArg (·.rd) hd
    have hrs1 := congrArg (·.rs1) hd
    have himm := congrArg (·.immediate) hd
    simp only [Instruction.decoded, hrow] at hrd hrs1 himm
    exact ⟨hop, setWidth_injective (by decide) hrd.symm, setWidth_injective (by decide) hrs1.symm, himm.symm⟩
  · rintro ⟨hop, hrd, hrs1, himm⟩
    have hrow : ins.encoding = { format := .i, opcode := 0x13 } := encoding_of_op hop rfl
    rw [Instruction.encode, hrow, hrd, hrs1, himm]
    rfl

/-- The decoder accepts RV32I's words and no others, loses none of their bits, and reads
    the stop marker as nothing else. -/
theorem decode_exact :
    (∀ w, (decode w).op ≠ .invalid ↔ ∃ ins : Instruction, ins.encode = w) ∧
      (∀ ins : Instruction, ins.encode ≠ 0x0ff00513 → decode ins.encode = ins.decoded) ∧
      (∀ w, (decode w).op = .halt ↔ w = 0x0ff00513) ∧
      (∀ ins : Instruction, ins.encode = 0x0ff00513 ↔
        ins.op = .addi ∧ ins.rd = 10 ∧ ins.rs1 = 0 ∧ ins.immediate = 255) ∧
      ∀ w w', (decode w).op ≠ .invalid → decode w = decode w' → w = w' := by
  refine ⟨decode_accepts, ?_, decode_halt, fun ins => encode_marker, ?_⟩
  · intro ins h
    rw [decode_fields h, decodeFields_encode]
  · intro w w' h heq
    by_cases hw : w = kHaltEncoding
    · have hhalt : (decode w').op = .halt := by
        rw [← heq]
        exact (decode_halt w).mpr hw
      rw [hw, (decode_halt w').mp hhalt]
    · have hw' : w' ≠ kHaltEncoding := by
        intro hc
        exact hw ((decode_halt w).mp (by rw [heq]; exact (decode_halt w').mpr hc))
      have h' : (decode w').op ≠ .invalid := by
        rw [← heq]
        exact h
      obtain ⟨ins, rfl⟩ := (decode_accepts w).mp h
      obtain ⟨ins', rfl⟩ := (decode_accepts w').mp h'
      rw [decode_fields hw, decode_fields hw', decodeFields_encode, decodeFields_encode] at heq
      exact encode_of_decoded heq

end Decoder

end TomasuloCpu
