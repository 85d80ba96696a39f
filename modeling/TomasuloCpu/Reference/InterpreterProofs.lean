/-
  TomasuloCpu.Reference.InterpreterProofs — the interpreter against the integer path of
  the processor.

  `Cpu.integerPath` sends one word through the decoder, the issue unit, the packet of the
  reservation station and the functional unit, and writes the result back. Both sides
  compute the sequential machine's result and successor (`integerPath_eq`,
  `execute_spec`), except that the interpreter runs SLT and SLTU as SLTI and SLTIU
  (`executedAs`) with an immediate that the decoder leaves zero (`immediate_of_compare`).
-/
import TomasuloCpu.Reference.Interpreter
import TomasuloCpu.Spec.Rv32iProofs
import TomasuloCpu.Tomasulo.Datapath
import TomasuloCpu.Tomasulo.IssueUnit
import TomasuloCpu.Tomasulo.RegisterFile

namespace TomasuloCpu

open FunctionalUnit (selected)

namespace Cpu

/-! ## The integer path -/

/-- What the issue unit is given for `w` when no producer of a source is pending. -/
def issueInputsFor (registers : RegisterIndex → Word) (pc : Address) (w : InstructionBits) (tag : RobTag)
    (predictedPc : Address) (cdb : CdbMsg) : IssueInputs :=
  let decoded := Decoder.decode w
  { packet := { pc := pc, instruction := w, decoded := decoded, predictedPc := predictedPc, valid := true }
    allocatedTag := tag
    rs1 := { architecturalValue := RegisterFile.read registers decoded.rs1 }
    rs2 := { architecturalValue := RegisterFile.read registers decoded.rs2 }
    cdb := cdb
    robAvailable := true
    rsAvailable := true
    lsqAvailable := true }

/-- The next pc and the registers after `w` alone goes down the integer path. -/
def integerPath (registers : RegisterIndex → Word) (pc : Address) (w : InstructionBits) (tag : RobTag)
    (predictedPc : Address) (cdb : CdbMsg) : Address × (RegisterIndex → Word) :=
  let outputs := IssueUnit.plan (issueInputsFor registers pc w tag predictedPc cdb)
  let result := FunctionalUnit.executeInstruction (ReservationStation.makeExecute outputs.rsEntry)
  let entry := outputs.robEntry
  let write : RegisterWrite :=
    if entry.writesRd then { rd := entry.rd, value := result.result, valid := true } else {}
  (if entry.isBranch || entry.isJump then result.actualNextPc else pc + kInstructionWidth,
    ((RegisterFile.apply ⟨registers, {}⟩ write).latch).registers)

end Cpu

namespace IssueUnit

/-- A register without a pending producer is read at once. -/
theorem resolveRegister_settled {idx : RegisterIndex} {v : Word} (h0 : idx = 0 → v = 0) (cdb : CdbMsg) :
    resolveRegister idx { architecturalValue := v } cdb = readyOperand v := by
  unfold resolveRegister
  by_cases hi : idx = 0
  · rw [if_pos hi, h0 hi]
  · rw [if_neg hi]
    rfl

theorem selectOperand_ready (src : OperandSource) (v immediate : Word) (pc : Address) :
    (selectOperand src (readyOperand v) immediate pc).value = selected src pc v immediate := by
  cases src <;> rfl

theorem plan_alu (inputs : IssueInputs) (hv : inputs.packet.valid = true)
    (hd : WellDecoded inputs.packet.decoded) (hop : inputs.packet.decoded.op.isAlu = true)
    (ht : inputs.allocatedTag.valid = true) (hrob : inputs.robAvailable = true) (hrs : inputs.rsAvailable = true) :
    (plan inputs).robEntry = makeRobEntry inputs ∧
      (plan inputs).rsEntry = makeRsEntry inputs
        (resolveRegister inputs.packet.decoded.rs1 inputs.rs1 inputs.cdb)
        (resolveRegister inputs.packet.decoded.rs2 inputs.rs2 inputs.cdb) ∧
      (plan inputs).writeRs = true := by
  simp only [Op.isAlu, Bool.and_eq_true, Bool.not_eq_true', bne_iff_ne] at hop
  obtain ⟨⟨hmem, hhalt⟩, hinv⟩ := hop
  have hm : isMemoryInstruction inputs.packet.decoded = false := by
    rw [isMemoryInstruction, hd.load, hd.store]
    exact hmem
  have hh : (inputs.packet.decoded.op == .halt) = false := beq_eq_false_iff_ne.mpr hhalt
  unfold plan
  rw [if_neg (by rw [hv]; exact Bool.noConfusion), if_neg hinv, if_neg (by rw [ht]; exact Bool.noConfusion)]
  simp only [hm, hh, hrob, hrs, Bool.not_true, Bool.not_false, Bool.false_and, Bool.and_false, Bool.or_false,
    Bool.and_true, Bool.false_eq_true, if_false, if_true, and_self]

/-- The packet of ready operands, executed. -/
theorem execute_ready (inputs : IssueInputs) (hd : WellDecoded inputs.packet.decoded)
    (hop : inputs.packet.decoded.op.isAlu = true) (a b : Word) :
    let d := inputs.packet.decoded
    let result := FunctionalUnit.executeInstruction
      (ReservationStation.makeExecute (makeRsEntry inputs (readyOperand a) (readyOperand b)))
    result.result = Rv32i.arithmetic d.op inputs.packet.pc a b d.immediate ∧
      result.actualNextPc = Rv32i.target d.op inputs.packet.pc a b d.immediate := by
  refine FunctionalUnit.executeInstruction_spec
    (e := ReservationStation.makeExecute (makeRsEntry inputs (readyOperand a) (readyOperand b))) hop ?_ ?_
  · show (selectOperand inputs.packet.decoded.lhsSource _ _ _).value = _
    rw [selectOperand_ready, hd.lhs]
    rfl
  · show (selectOperand inputs.packet.decoded.rhsSource _ _ _).value = _
    rw [selectOperand_ready, hd.rhs]
    rfl

end IssueUnit

namespace Cpu

variable {registers : RegisterIndex → Word} {w : InstructionBits} {tag : RobTag}

theorem read_inside (hx0 : registers 0 = 0) {r : RegisterIndex} (hr : r.toNat < kRegisterCount) :
    RegisterFile.read registers r = registers r := by
  by_cases h0 : r = 0
  · rw [h0, hx0]
    rfl
  · exact if_pos (validRegister_of_ne h0 hr)

/-- The integer path computes the sequential machine's successor and result. -/
theorem integerPath_eq (hx0 : registers 0 = 0) (hop : (Decoder.decode w).op.isAlu = true) (htag : tag.valid = true)
    (pc predictedPc : Address) (cdb : CdbMsg) :
    integerPath registers pc w tag predictedPc cdb =
      let d := Decoder.decode w
      (Rv32i.target d.op pc (registers d.rs1) (registers d.rs2) d.immediate,
        if d.writesRd then
          Function.update registers d.rd
            (Rv32i.arithmetic d.op pc (registers d.rs1) (registers d.rs2) d.immediate)
        else registers) := by
  have hd := Decoder.decode_spec w
  obtain ⟨hrob, hrs, -⟩ := IssueUnit.plan_alu (issueInputsFor registers pc w tag predictedPc cdb) rfl hd hop
    htag rfl rfl
  have hsource : ∀ r : RegisterIndex, r.toNat < 32 →
      IssueUnit.resolveRegister r { architecturalValue := RegisterFile.read registers r } cdb =
        IssueUnit.readyOperand (registers r) := by
    intro r hr
    rw [read_inside hx0 hr]
    exact IssueUnit.resolveRegister_settled (fun h => by rw [h, hx0]) cdb
  have hfirst := hsource _ hd.rs1_lt
  have hsecond := hsource _ hd.rs2_lt
  have hresult := IssueUnit.execute_ready (issueInputsFor registers pc w tag predictedPc cdb) hd hop
    (registers (Decoder.decode w).rs1) (registers (Decoder.decode w).rs2)
  simp only [issueInputsFor] at hrob hrs hresult
  rw [hfirst, hsecond] at hrs
  unfold integerPath
  simp only [issueInputsFor, hrob, hrs]
  rw [hresult.1, hresult.2]
  generalize Decoder.decode w = d at hd hop
  refine Prod.ext ?_ ?_
  · -- An instruction that transfers no control continues behind itself.
    simp only [IssueUnit.makeRobEntry, hd.branch, hd.jump]
    split
    · rfl
    · rename_i hseq
      simp only [Bool.or_eq_true, not_or, Bool.not_eq_true] at hseq
      rw [Rv32i.Machine.target_sequential hseq.1 hseq.2]
      rfl
  · simp only [IssueUnit.makeRobEntry]
    have hwrites : (d.writesRd && d.rd != 0) = d.writesRd := by rw [hd.writes, Bool.and_assoc, Bool.and_self]
    refine (RegisterFile.latch_apply hx0 (d.writesRd && d.rd != 0) fun h => ?_).trans (by rw [hwrites])
    rw [Bool.and_eq_true, bne_iff_ne] at h
    exact validRegister_of_ne h.2 hd.rd_lt

end Cpu

namespace Interpreter

/-! ## The interpreter's step -/

/-- The operation whose result the `switch` computes. -/
def executedAs : Op → Op
  | .slt => .slti
  | .sltu => .sltiu
  | op => op

theorem execute_spec (i : Interpreter) {d : DecodedInstruction} (hop : d.op.isAlu = true) :
    i.execute d =
      .ok
        { memory := i.memory
          nextPc := Rv32i.target d.op i.pc (i.registers d.rs1) (i.registers d.rs2) d.immediate
          writebackValue :=
            Rv32i.arithmetic (executedAs d.op) i.pc (i.registers d.rs1) (i.registers d.rs2) d.immediate
          hasWriteback := d.op.writes } := by
  have hshift : ∀ x : Word, (x &&& kShiftMask).toNat = x.toNat % 32 := FunctionalUnit.shiftAmount
  have hsra : ∀ (x : Word) (n : Nat), arithmeticShiftRight x n = x.sshiftRight (n % 32) :=
    FunctionalUnit.arithmeticShiftRight_eq
  have hge : ∀ a b : Word, signedGreaterEqual a b = !a.slt b := FunctionalUnit.signedGreaterEqual_eq
  unfold execute
  simp only [hshift, hsra, hge, FunctionalUnit.lessThan_eq, FunctionalUnit.greaterEqual_eq, Nat.mod_mod]
  cases h : d.op <;> first
    | rfl
    | exact absurd hop (by rw [h]; decide)

/-- One step from a state whose pc holds the word `w`. -/
theorem step_alu {i : Interpreter} {w : InstructionBits} (hready : i.status = .ready ∨ i.status = .running)
    (hfetch : i.memory.readWord i.pc = some w) (hop : (Decoder.decode w).op.isAlu = true) (hx0 : i.registers 0 = 0) :
    let d := Decoder.decode w
    i.step.2.pc = Rv32i.target d.op i.pc (i.registers d.rs1) (i.registers d.rs2) d.immediate ∧
      i.step.2.registers =
        if d.writesRd then
          Function.update i.registers d.rd
            (Rv32i.arithmetic (executedAs d.op) i.pc (i.registers d.rs1) (i.registers d.rs2) d.immediate)
        else i.registers := by
  have hd := Decoder.decode_spec w
  have hgo : ¬ (i.status ≠ .ready ∧ i.status ≠ .running) := by
    rintro ⟨hnr, hnrun⟩
    exact hready.elim hnr hnrun
  have hne := hop
  simp only [Op.isAlu, Bool.and_eq_true, bne_iff_ne] at hne
  rw [step, if_neg hgo, hfetch]
  simp only [if_neg hne.1.2, if_neg hne.2, execute_spec i hop]
  generalize Decoder.decode w = d at hd
  refine ⟨rfl, ?_⟩
  simp only [finish, ← hd.writes]
  split
  · rename_i hw
    have hrd : d.rd ≠ 0 := by
      intro h0
      rw [hd.writes, h0] at hw
      simp at hw
    rw [← hx0, ← Function.update_of_ne hrd.symm (Rv32i.arithmetic _ _ _ _ _) i.registers, Function.update_eq_self]
  · rw [← hx0, Function.update_eq_self]

/-! ## Agreement -/

/-- Where SLT and SLTU do not show that the interpreter compares rs1 with zero: there is
    no register to write, or rs2 compares the same. -/
def ComparesAlike (d : DecodedInstruction) (a b : Word) : Prop :=
  d.rd ≠ 0 → (d.op = .slt → a.slt b = a.slt 0) ∧ (d.op = .sltu → a.ult b = false)

theorem word_inj {a b : Bool} : (if a then (1 : Word) else 0) = (if b then 1 else 0) ↔ b = a := by
  cases a <;> cases b <;> decide

theorem arithmetic_executedAs {op : Op} {immediate : Word} (himm : op = .slt ∨ op = .sltu → immediate = 0)
    (pc a b : Word) :
    Rv32i.arithmetic (executedAs op) pc a b immediate = Rv32i.arithmetic op pc a b immediate ↔
      (op = .slt → a.slt b = a.slt 0) ∧ (op = .sltu → a.ult b = false) := by
  cases op with
  | slt =>
    rw [himm (Or.inl rfl)]
    exact word_inj.trans ⟨fun h => ⟨fun _ => h, fun hc => by cases hc⟩, fun h => h.1 rfl⟩
  | sltu =>
    rw [himm (Or.inr rfl)]
    have hzero : a.ult 0 = false := decide_eq_false (Nat.not_lt_zero _)
    have hword : Rv32i.arithmetic .sltiu pc a b 0 = Rv32i.arithmetic .sltu pc a b 0 ↔ a.ult b = a.ult 0 :=
      word_inj (a := a.ult 0) (b := a.ult b)
    rw [hzero] at hword
    exact hword.trans ⟨fun h => ⟨fun hc => (by cases hc), fun _ => h⟩, fun h => h.2 rfl⟩
  | _ => exact ⟨fun _ => ⟨fun hc => (by cases hc), fun hc => (by cases hc)⟩, fun _ => rfl⟩

/-- The two agree on an instruction that is no load and no store exactly when its
    comparison, if it is SLT or SLTU, has the outcome of a comparison with zero. -/
theorem interpreter_agrees_iff {i : Interpreter} {w : InstructionBits}
    (hready : i.status = .ready ∨ i.status = .running) (hfetch : i.memory.readWord i.pc = some w)
    (hx0 : i.registers 0 = 0) (hinv : (Decoder.decode w).op ≠ .invalid) (hhalt : (Decoder.decode w).op ≠ .halt)
    (hload : (Decoder.decode w).isLoad = false) (hstore : (Decoder.decode w).isStore = false) {tag : RobTag}
    (htag : tag.valid = true) (predictedPc : Address) (cdb : CdbMsg) :
    (i.step.2.pc = (Cpu.integerPath i.registers i.pc w tag predictedPc cdb).1 ∧
        i.step.2.registers = (Cpu.integerPath i.registers i.pc w tag predictedPc cdb).2) ↔
      ComparesAlike (Decoder.decode w) (i.registers (Decoder.decode w).rs1) (i.registers (Decoder.decode w).rs2) := by
  have hd := Decoder.decode_spec w
  have hop : (Decoder.decode w).op.isAlu = true := by
    refine Op.isAlu_of ?_ hhalt hinv
    rw [Op.isMemory, ← hd.load, ← hd.store, hload, hstore]
    rfl
  have himm : (Decoder.decode w).op = .slt ∨ (Decoder.decode w).op = .sltu → (Decoder.decode w).immediate = 0 := by
    intro h
    refine Decoder.immediate_of_registers w ?_ ?_
    · rcases h with h | h <;> rw [hd.rhs, h] <;> rfl
    · rcases h with h | h <;> rw [hd.branch, h] <;> rfl
  obtain ⟨hpc, hregs⟩ := step_alu hready hfetch hop hx0
  rw [hpc, hregs, Cpu.integerPath_eq hx0 hop htag]
  generalize Decoder.decode w = d at hd himm
  simp only [true_and]
  by_cases hw : d.writesRd = true
  · have hrd : d.rd ≠ 0 := by
      intro h0
      rw [hd.writes, h0] at hw
      simp at hw
    rw [if_pos hw, if_pos hw, (Function.update_injective i.registers d.rd).eq_iff, arithmetic_executedAs himm]
    exact ⟨fun h _ => h, fun h => h hrd⟩
  · rw [if_neg hw, if_neg hw]
    refine ⟨fun _ hrd => ?_, fun _ => rfl⟩
    -- An instruction with a destination that writes none is neither comparison.
    have hwrites : d.op.writes = false := by
      rw [hd.writes, Bool.and_eq_true, bne_iff_ne, not_and] at hw
      exact Bool.eq_false_iff.mpr fun h => hw h hrd
    constructor <;> intro h <;> rw [h] at hwrites <;> cases hwrites

/-- `addi x1, x0, 1`, `slt x2, x0, x1`, `sltu x3, x1, x0`, HALT. -/
def compareImage : Istream := { text := "@0 93 00 10 00 33 21 10 00 b3 b1 00 00 13 05 f0 0f".toList }

/-- The interpreter after the first `n` steps of that program. -/
def comparing (n : Nat) : Interpreter := (new.load compareImage).2.steps n

theorem interpreter_slt_differs :
    (Decoder.decode 0x00102133).op = .slt ∧ (comparing 1).memory.readWord (comparing 1).pc = some 0x00102133 ∧
      (comparing 1).status = .running ∧ (comparing 1).registers 0 = 0 ∧
      (comparing 1).step.2.registers ≠
        (Cpu.integerPath (comparing 1).registers (comparing 1).pc 0x00102133 ⟨0, 0, true⟩ 8 {}).2 := by
  have hfacts : (comparing 1).memory.readWord (comparing 1).pc = some 0x00102133 ∧
      (comparing 1).status = .running ∧ (comparing 1).registers 0 = 0 ∧ (comparing 1).step.2.registers 2 = 0 ∧
      (Cpu.integerPath (comparing 1).registers (comparing 1).pc 0x00102133 ⟨0, 0, true⟩ 8 {}).2 2 = 1 := by
    decide +kernel
  obtain ⟨hfetch, hstatus, hx0, hfirst, hsecond⟩ := hfacts
  refine ⟨by decide, hfetch, hstatus, hx0, fun h => ?_⟩
  rw [h, hsecond] at hfirst
  exact absurd hfirst (by decide)

/-- On `sltu x3, x1, x0` they agree: nothing is below zero. -/
theorem interpreter_agrees_iff_sample :
    (comparing 2).step.2.pc =
        (Cpu.integerPath (comparing 2).registers (comparing 2).pc 0x0000b1b3 ⟨0, 0, true⟩ 12 {}).1 ∧
      (comparing 2).step.2.registers =
        (Cpu.integerPath (comparing 2).registers (comparing 2).pc 0x0000b1b3 ⟨0, 0, true⟩ 12 {}).2 := by
  have hfacts : (comparing 2).status = .running ∧
      (comparing 2).memory.readWord (comparing 2).pc = some 0x0000b1b3 ∧ (comparing 2).registers 0 = 0 ∧
      ((comparing 2).registers (Decoder.decode 0x0000b1b3).rs1).ult
        ((comparing 2).registers (Decoder.decode 0x0000b1b3).rs2) = false := by
    decide +kernel
  obtain ⟨hstatus, hfetch, hx0, hult⟩ := hfacts
  refine (interpreter_agrees_iff (Or.inr hstatus) hfetch hx0 (by decide) (by decide) (by decide) (by decide) rfl 12
    {}).mpr fun _ => ⟨fun h => ?_, fun _ => hult⟩
  exact absurd h (by decide)

end Interpreter

end TomasuloCpu
