/-
  TomasuloCpu.Tomasulo.IntegerDatapath — decoder, issue unit, packet and functional unit
  compute the integer instructions.

  The operands may come from any ready source; what the unit returns is the value and the
  successor that `Rv32i.rdValue` and `Rv32i.nextPc` give in integers (`datapath_rv32i`).
-/
import TomasuloCpu.Reference.InterpreterProofs
import TomasuloCpu.Spec.Rv32iInteger
import TomasuloCpu.Tomasulo.ReservationStation

namespace TomasuloCpu

/-- A unit with room takes a valid packet. -/
theorem FunctionalUnit.step_accepts {current : FuResult} {execute : Execute} {resultAccepted : Bool}
    (hv : execute.valid = true) (hcomputed : (executeInstruction execute).valid = true)
    (hroom : canAccept current resultAccepted = true) :
    step current execute false resultAccepted = (true, executeInstruction execute) := by
  simp [step, hv, hcomputed, hroom]

namespace IssueUnit

theorem selectOperand_ready_ready (src : OperandSource) (v immediate : Word) (pc : Address) :
    (selectOperand src (readyOperand v) immediate pc).ready = true := by
  cases src <;> rfl

/-- x0 supplies zero. -/
theorem resolveRegister_zero {idx : RegisterIndex} {src : SourceState} {msg : CdbMsg} {v : Word}
    (h : resolveRegister idx src msg = readyOperand v) (h0 : idx = 0) : v = 0 := by
  rw [resolveRegister, if_pos h0] at h
  exact (congrArg (·.value) h).symm

/-- A ready source supplies a value. -/
theorem resolveRegister_ready {idx : RegisterIndex} {src : SourceState} {msg : CdbMsg}
    (h : (resolveRegister idx src msg).ready = true) :
    resolveRegister idx src msg = readyOperand (resolveRegister idx src msg).value := by
  revert h
  unfold resolveRegister
  repeat' split
  all_goals intro h
  all_goals first
    | rfl
    | cases h

end IssueUnit

open FunctionalUnit IssueUnit in
/-- The integer path of the processor implements RV32I. -/
theorem datapath_rv32i (w : InstructionBits) (inputs : IssueInputs)
    (hop : (Decoder.decode w).op.isAlu = true) (hvalid : inputs.packet.valid = true)
    (hdecoded : inputs.packet.decoded = Decoder.decode w) (htag : inputs.allocatedTag.valid = true)
    (hrob : inputs.robAvailable = true) (hrs : inputs.rsAvailable = true)
    (hrs1 : (resolveRegister (Decoder.decode w).rs1 inputs.rs1 inputs.cdb).ready = true)
    (hrs2 : (resolveRegister (Decoder.decode w).rs2 inputs.rs2 inputs.cdb).ready = true) :
    let d := Decoder.decode w
    let pc := inputs.packet.pc
    let a := (resolveRegister d.rs1 inputs.rs1 inputs.cdb).value
    let b := (resolveRegister d.rs2 inputs.rs2 inputs.cdb).value
    let entry := (plan inputs).rsEntry
    let result := executeInstruction (ReservationStation.makeExecute entry)
    (plan inputs).writeRs = true ∧ ReservationStation.readyEntry entry = true ∧
      (d.rs1 = 0 → a = 0) ∧ (d.rs2 = 0 → b = 0) ∧
      (∀ current resultAccepted, canAccept current resultAccepted = true →
        step current (ReservationStation.makeExecute entry) false resultAccepted = (true, result)) ∧
      result.valid = true ∧ result.tag = inputs.allocatedTag ∧
      (d.op.writes = true → result.result = BitVec.ofInt 32 (Rv32i.rdValue d.op pc a b d.immediate)) ∧
      (result.hasControlResult = true ↔ d.op.isBranch = true ∨ d.op.isJump = true) ∧
      (d.op.isBranch = true ∨ d.op.isJump = true →
        result.actualNextPc = BitVec.ofInt 32 (Rv32i.nextPc d.op pc a b d.immediate)) := by
  intro d pc a b entry result
  have hwell : WellDecoded inputs.packet.decoded := by
    rw [hdecoded]
    exact Decoder.decode_spec w
  have hopd : inputs.packet.decoded.op.isAlu = true := by rw [hdecoded]; exact hop
  obtain ⟨-, hentry, hwrite⟩ := plan_alu inputs hvalid hwell hopd htag hrob hrs
  have ha := resolveRegister_ready hrs1
  have hb := resolveRegister_ready hrs2
  rw [hdecoded, ha, hb] at hentry
  obtain ⟨hvalue, htarget⟩ := execute_ready inputs hwell hopd a b
  rw [hdecoded, ← hentry] at hvalue htarget
  have hopEntry : entry.op = d.op := (congrArg (·.op) hentry).trans (congrArg (·.op) hdecoded)
  have hopAlu : entry.op.isAlu = true := by
    rw [hopEntry]
    exact hop
  have hready : ReservationStation.readyEntry entry = true := by
    show ReservationStation.readyEntry (plan inputs).rsEntry = true
    rw [hentry, ReservationStation.readyEntry]
    simp only [makeRsEntry, selectOperand_ready_ready, Bool.and_self]
  obtain ⟨hok, htagged, hcontrol⟩ :=
    executeInstruction_frame (e := ReservationStation.makeExecute entry) hopAlu
  refine ⟨hwrite, hready, resolveRegister_zero ha, resolveRegister_zero hb, ?_, hok, ?_, ?_, ?_, ?_⟩
  · exact fun current resultAccepted hfree => step_accepts rfl hok hfree
  · rw [htagged]
    show (plan inputs).rsEntry.destination = inputs.allocatedTag
    rw [hentry]
    rfl
  · intro _
    rw [← Rv32i.arithmetic_eq]
    exact hvalue
  · rw [hcontrol, Bool.or_eq_true]
    show entry.op.isBranch = true ∨ entry.op.isJump = true ↔ _
    rw [hopEntry]
  · intro _
    rw [← Rv32i.target_eq]
    exact htarget

/-- `sub x3, x1, x2` with 5 in the register file and 8 on the bus. -/
def subtraction : IssueInputs :=
  { packet := { pc := 64, instruction := 0x402081b3, decoded := Decoder.decode 0x402081b3, valid := true }
    allocatedTag := { index := 4, generation := 1, valid := true }
    rs1 := { architecturalValue := 5 }
    rs2 := { architecturalValue := 1, producer := { index := 3, generation := 1, valid := true } }
    cdb := { tag := { index := 3, generation := 1, valid := true }, value := 8, valid := true }
    robAvailable := true
    rsAvailable := true }

theorem datapath_rv32i_sub :
    let result := FunctionalUnit.executeInstruction (ReservationStation.makeExecute (IssueUnit.plan subtraction).rsEntry)
    result.valid = true ∧ result.tag = subtraction.allocatedTag ∧ result.result = BitVec.ofInt 32 (-3) := by
  obtain ⟨-, -, -, -, -, hok, htag, hvalue, -⟩ :=
    datapath_rv32i 0x402081b3 subtraction (by decide) rfl rfl rfl rfl rfl (by decide) (by decide)
  exact ⟨hok, htag, (hvalue (by decide)).trans (by decide)⟩

end TomasuloCpu
