/-
  TomasuloCpu.Reference.InterpreterRuns — what a step of the interpreter leaves alone.

  A step executes one instruction or stops (`step_cases`), and a stop changes the status
  only. After a stop every later call gives the same answer (`later_of_stopped`). An
  executed instruction writes at most `rd` and the bytes of its own store
  (`finish_registers`, `execute_changed`).
-/
import TomasuloCpu.Reference.InterpreterProofs

namespace TomasuloCpu

namespace Interpreter

variable {i i' : Interpreter} {d : DecodedInstruction}

/-- The address of a load or store. -/
def address (i : Interpreter) (d : DecodedInstruction) : Address := i.registers d.rs1 + d.immediate

/-- The access of a load or store stays inside the memory. -/
def inside (i : Interpreter) (d : DecodedInstruction) : Bool :=
  MemoryImage.inBounds (i.address d) (Rv32i.accessWidth d.op)

/-- An access that fails answers before anything is written. -/
theorem loadInto_map (i : Interpreter) (c : Bool) {α : Type} (f : α → Word) (value : α) :
    i.loadInto ((if c then some value else none).map f) =
      if c then .ok (i.writeback (f value)) else .error .memoryOutOfBounds := by
  cases c <;> rfl

/-- The load arms: what is read is taken as a word and extended by `f`. -/
theorem loadInto_read (i : Interpreter) (a : Address) (w : MemoryWidth) (f : Word → Word) :
    i.loadInto ((i.memory.read a w).map fun value => f (value.setWidth 32)) =
      if MemoryImage.inBounds a (MemoryUnit.widthInBytes w) then
        .ok (i.writeback (f (LittleEndian.load i.memory.bytes a.toNat (MemoryUnit.widthInBytes w))))
      else .error .memoryOutOfBounds := by
  rw [MemoryImage.read_spec, loadInto_map, LittleEndian.setWidth_load (Nat.le_refl _)]

theorem loadInto_readWord (i : Interpreter) (a : Address) :
    i.loadInto (i.memory.readWord a) =
      if MemoryImage.inBounds a 4 then .ok (i.writeback (LittleEndian.load i.memory.bytes a.toNat 4))
      else .error .memoryOutOfBounds := by
  rw [MemoryImage.readWord_spec]
  split <;> rfl

theorem execute_load (i : Interpreter) (h : d.op.isLoad = true) :
    i.execute d =
      if i.inside d then
        .ok (i.writeback (Rv32i.extend d.op
          (LittleEndian.load i.memory.bytes (i.address d).toNat (Rv32i.accessWidth d.op))))
      else .error .memoryOutOfBounds := by
  unfold execute inside address
  cases hop : d.op with
  | lb =>
    refine (loadInto_read i _ .byte fun x => signExtend x 8).trans ?_
    simp only [signExtend_eq _ (show 0 < 8 by decide) (by decide)]
    rfl
  | lh =>
    refine (loadInto_read i _ .half fun x => signExtend x 16).trans ?_
    simp only [signExtend_eq _ (show 0 < 16 by decide) (by decide)]
    rfl
  | lw => exact loadInto_readWord i _
  | lbu => exact loadInto_read i _ .byte fun x => x
  | lhu => exact loadInto_read i _ .half fun x => x
  | _ => exact absurd h (by rw [hop]; decide)

/-- The store arms write as the memory unit does. -/
theorem storeTo_write (i : Interpreter) (a : Address) (value : Word) (w : MemoryWidth) :
    i.storeTo (MemoryUnit.applyStoreWrite i.memory { address := a, valid := true, value := value, width := w }) =
      if MemoryImage.inBounds a (MemoryUnit.widthInBytes w) then
        .ok
          { memory :=
              { i.memory with
                bytes := LittleEndian.store i.memory.bytes a.toNat (MemoryUnit.widthInBytes w) value }
            nextPc := i.pc + kInstructionWidth }
      else .error .memoryOutOfBounds := by
  rw [MemoryUnit.applyStoreWrite_valid]
  split <;> rfl

theorem execute_store (i : Interpreter) (h : d.op.isStore = true) :
    i.execute d =
      if i.inside d then
        .ok
          { memory :=
              { i.memory with
                bytes :=
                  LittleEndian.store i.memory.bytes (i.address d).toNat (Rv32i.accessWidth d.op)
                    (i.registers d.rs2) }
            nextPc := i.pc + kInstructionWidth }
      else .error .memoryOutOfBounds := by
  unfold execute inside address
  cases hop : d.op with
  | sb => exact storeTo_write i _ _ .byte
  | sh => exact storeTo_write i _ _ .half
  | sw => exact storeTo_write i _ _ .word
  | _ => exact absurd h (by rw [hop]; decide)

/-- The two operations that are no instruction. -/
theorem execute_marker (i : Interpreter) (hm : d.op.isMemory = false) (ha : d.op.isAlu = false) :
    i.execute d = .error .invalidInstruction := by
  unfold execute
  cases hop : d.op <;> first
    | rfl
    | (rw [hop] at hm ha; exact absurd ha (by decide))
    | (rw [hop] at hm ha; exact absurd hm (by decide))

/-- What the `switch` may do: a store writes its bytes, every other arm keeps the memory, and
    an early return leaves no effect behind. -/
theorem execute_cases (i : Interpreter) (d : DecodedInstruction) :
    (d.op.isStore = true ∧ i.inside d = true ∧
      i.execute d =
        .ok
          { memory :=
              { i.memory with
                bytes :=
                  LittleEndian.store i.memory.bytes (i.address d).toNat (Rv32i.accessWidth d.op)
                    (i.registers d.rs2) }
            nextPc := i.pc + kInstructionWidth }) ∨
      (∃ e, i.execute d = .ok e ∧ e.memory = i.memory) ∨
      i.execute d = .error .memoryOutOfBounds ∨ i.execute d = .error .invalidInstruction := by
  by_cases hs : d.op.isStore = true
  · cases hin : i.inside d with
    | true => exact .inl ⟨hs, rfl, by rw [execute_store i hs, if_pos hin]⟩
    | false => exact .inr (.inr (.inl (by rw [execute_store i hs, hin]; rfl)))
  · by_cases hl : d.op.isLoad = true
    · cases hin : i.inside d with
      | true => exact .inr (.inl ⟨_, by rw [execute_load i hl, if_pos hin], rfl⟩)
      | false => exact .inr (.inr (.inl (by rw [execute_load i hl, hin]; rfl)))
    · by_cases ha : d.op.isAlu = true
      · exact .inr (.inl ⟨_, execute_spec i ha, rfl⟩)
      · exact .inr (.inr (.inr (execute_marker i (by simp [Op.isMemory, hs, hl]) (by simpa using ha))))

theorem execute_memory {e : Effect} (h : i.execute d = .ok e) :
    e.memory = i.memory ∨
      d.op.isStore = true ∧ i.inside d = true ∧
        e.memory =
          { i.memory with
            bytes :=
              LittleEndian.store i.memory.bytes (i.address d).toNat (Rv32i.accessWidth d.op)
                (i.registers d.rs2) } := by
  rcases execute_cases i d with ⟨hs, hin, he⟩ | ⟨e', he, hm⟩ | he | he
  · rw [he] at h
    cases h
    exact Or.inr ⟨hs, hin, rfl⟩
  · rw [he] at h
    cases h
    exact Or.inl hm
  · rw [he] at h
    cases h
  · rw [he] at h
    cases h

theorem execute_error {status : InterpreterStatus} (h : i.execute d = .error status) :
    status = .memoryOutOfBounds ∨ status = .invalidInstruction := by
  rcases execute_cases i d with ⟨-, -, he⟩ | ⟨e, he, -⟩ | he | he
  · rw [he] at h
    cases h
  · rw [he] at h
    cases h
  · rw [he] at h
    cases h
    exact Or.inl rfl
  · rw [he] at h
    cases h
    exact Or.inr rfl

/-! ## One step -/

/-- What a step does: nothing once the program has stopped, a stop, or one instruction. -/
theorem step_cases (i : Interpreter) :
    (i.status ≠ .ready ∧ i.status ≠ .running ∧ i.step = (i.currentResult, i)) ∨
      (∃ status, status ≠ .ready ∧ status ≠ .running ∧ status ≠ .halted ∧ i.step = i.stop status) ∨
      i.step = stop { i with exitCode := i.registers 10 &&& 0xff } .halted ∨
      ∃ w e, i.memory.readWord i.pc = some w ∧ i.execute (Decoder.decode w) = .ok e ∧
        i.step = ((i.finish (Decoder.decode w) e).currentResult, i.finish (Decoder.decode w) e) := by
  unfold step
  split
  · rename_i h
    exact Or.inl ⟨h.1, h.2, rfl⟩
  · right
    cases hf : i.memory.readWord i.pc with
    | none => exact Or.inl ⟨.fetchOutOfBounds, by decide, by decide, by decide, rfl⟩
    | some w =>
      simp only []
      split
      · exact Or.inr (Or.inl rfl)
      · split
        · exact Or.inl ⟨.invalidInstruction, by decide, by decide, by decide, rfl⟩
        · cases he : i.execute (Decoder.decode w) with
          | error status =>
            refine Or.inl ⟨status, ?_, ?_, ?_, rfl⟩ <;>
              rcases execute_error he with rfl | rfl <;> decide
          | ok e => exact Or.inr (Or.inr ⟨w, e, rfl, he, rfl⟩)

/-- A running interpreter executes the instruction at the pc or stops with its error. -/
theorem step_decoded {w : InstructionBits} (hready : i.status = .ready ∨ i.status = .running)
    (hfetch : i.memory.readWord i.pc = some w) (hh : (Decoder.decode w).op ≠ .halt)
    (hi : (Decoder.decode w).op ≠ .invalid) :
    (∀ e, i.execute (Decoder.decode w) = .ok e →
      i.step = ((i.finish (Decoder.decode w) e).currentResult, i.finish (Decoder.decode w) e)) ∧
      ∀ status, i.execute (Decoder.decode w) = .error status → i.step = i.stop status := by
  have hgo : ¬ (i.status ≠ .ready ∧ i.status ≠ .running) := by
    rintro ⟨hr, hn⟩
    exact hready.elim hr hn
  unfold step
  rw [if_neg hgo]
  constructor
  · intro e he
    simp only [hfetch, if_neg hh, if_neg hi, he]
  · intro status he
    simp only [hfetch, if_neg hh, if_neg hi, he]

/-- The step of an instruction whose `switch` arm gets through. -/
theorem step_ok {w : InstructionBits} {e : Effect} (hready : i.status = .ready ∨ i.status = .running)
    (hfetch : i.memory.readWord i.pc = some w) (he : i.execute (Decoder.decode w) = .ok e) :
    i.step = ((i.finish (Decoder.decode w) e).currentResult, i.finish (Decoder.decode w) e) := by
  have hop : (Decoder.decode w).op ≠ .halt ∧ (Decoder.decode w).op ≠ .invalid := by
    constructor <;> intro hc <;> rw [execute_marker i (by rw [hc]; rfl) (by rw [hc]; rfl)] at he <;> cases he
  exact (step_decoded hready hfetch hop.1 hop.2).1 e he

/-- The step of an access outside the memory. -/
theorem step_outside {w : InstructionBits} (hready : i.status = .ready ∨ i.status = .running)
    (hfetch : i.memory.readWord i.pc = some w) (hop : (Decoder.decode w).op.isMemory = true)
    (hin : i.inside (Decoder.decode w) = false) :
    i.step = i.stop .memoryOutOfBounds := by
  have he : i.execute (Decoder.decode w) = .error .memoryOutOfBounds := by
    cases hl : (Decoder.decode w).op.isLoad with
    | true => rw [i.execute_load hl, hin]; rfl
    | false =>
      have hs : (Decoder.decode w).op.isStore = true := by simpa [Op.isMemory, hl] using hop
      rw [i.execute_store hs, hin]
      rfl
  have hne : (Decoder.decode w).op ≠ .halt ∧ (Decoder.decode w).op ≠ .invalid := by
    constructor <;> intro hc <;> rw [hc] at hop <;> cases hop
  exact (step_decoded hready hfetch hne.1 hne.2).2 _ he

theorem finish_writeback (hrd : d.rd ≠ 0) (value : Word) : (i.finish d (i.writeback value)).registers d.rd = value := by
  have hcond : ((i.writeback value).hasWriteback && d.rd != 0) = true := by
    rw [Bool.and_eq_true, bne_iff_ne]
    exact ⟨rfl, hrd⟩
  unfold finish
  simp only [if_pos hcond]
  rw [Function.update_of_ne hrd, Function.update_self]
  rfl

/-- A load inside the memory keeps it and writes the extended value back. -/
theorem step_load {w : InstructionBits} (hready : i.status = .ready ∨ i.status = .running)
    (hfetch : i.memory.readWord i.pc = some w) (hop : (Decoder.decode w).op.isLoad = true)
    (hin : i.inside (Decoder.decode w) = true) :
    i.step.1.status = .running ∧ i.step.2.memory = i.memory ∧
      ∃ e, i.execute (Decoder.decode w) = .ok e ∧ e.hasWriteback = true ∧
        e.writebackValue =
          Rv32i.extend (Decoder.decode w).op
            (LittleEndian.load i.memory.bytes (i.address (Decoder.decode w)).toNat
              (Rv32i.accessWidth (Decoder.decode w).op)) ∧
        ((Decoder.decode w).rd ≠ 0 → i.step.2.registers (Decoder.decode w).rd = e.writebackValue) := by
  have he := i.execute_load hop
  rw [if_pos hin] at he
  rw [step_ok hready hfetch he]
  exact ⟨rfl, rfl, _, he, rfl, rfl, fun hrd => finish_writeback hrd _⟩

/-- A store inside the memory writes its bytes. -/
theorem step_store {w : InstructionBits} (hready : i.status = .ready ∨ i.status = .running)
    (hfetch : i.memory.readWord i.pc = some w) (hop : (Decoder.decode w).op.isStore = true)
    (hin : i.inside (Decoder.decode w) = true) :
    i.step.1.status = .running ∧
      i.step.2.memory =
        { i.memory with
          bytes :=
            LittleEndian.store i.memory.bytes (i.address (Decoder.decode w)).toNat
              (Rv32i.accessWidth (Decoder.decode w).op) (i.registers (Decoder.decode w).rs2) } := by
  have he := i.execute_store hop
  rw [if_pos hin] at he
  rw [step_ok hready hfetch he]
  exact ⟨rfl, rfl⟩

/-! ## Calls -/

/-- One call of `step` or `run` on `i`: its answer and the interpreter after it. -/
inductive Call (i : Interpreter) : StepResult → Interpreter → Prop where
  | step : Call i i.step.1 i.step.2
  | run {fuel : Nat} {r : StepResult} {i' : Interpreter} (h : i.run fuel = some (r, i')) : Call i r i'

/-- `i'` is `i` after any number of calls. -/
inductive Later (i : Interpreter) : Interpreter → Prop where
  | refl : Later i i
  | call {i' i'' : Interpreter} {r : StepResult} (h : Later i i') (hc : Call i' r i'') : Later i i''

inductive Reachable : Interpreter → Prop where
  | new : Reachable new
  | load {i : Interpreter} (h : Reachable i) (input : Istream) : Reachable (i.load input).2
  | call {i i' : Interpreter} {r : StepResult} (h : Reachable i) (hc : Call i r i') : Reachable i'

/-- x0 stays 0, and a halted interpreter answers with x10. -/
structure Sound (i : Interpreter) : Prop where
  zero : i.registers 0 = 0
  exit : i.status = .halted → i.exitCode = i.registers 10 &&& 0xff

theorem Sound.step (h : Sound i) : Sound i.step.2 := by
  rcases step_cases i with ⟨-, -, hs⟩ | ⟨status, -, -, hne, hs⟩ | hs | ⟨w, e, -, -, hs⟩ <;> rw [hs]
  · exact h
  · exact ⟨h.zero, fun hc => absurd hc hne⟩
  · exact ⟨h.zero, fun _ => rfl⟩
  · refine ⟨?_, ?_⟩
    · simp [finish]
    · intro hc
      cases hc

/-- The loop of `run` makes steps and nothing else. -/
theorem Sound.runLoop {fuel : Nat} (h : Sound i) {r : StepResult} (hr : i.runLoop fuel = some (r, i')) : Sound i' := by
  induction fuel generalizing i with
  | zero => cases hr
  | succ fuel ih =>
    unfold Interpreter.runLoop at hr
    split at hr
    · exact ih h.step hr
    · have hi : i' = i.step.2 := by rw [Option.some.inj hr]
      rw [hi]
      exact h.step

theorem Sound.call {r : StepResult} (h : Sound i) (hc : Call i r i') : Sound i' := by
  cases hc with
  | step => exact h.step
  | run hr =>
    unfold Interpreter.run at hr
    split at hr
    · cases hr
      exact h
    · exact h.runLoop hr

theorem Reachable.sound (h : Reachable i) : Sound i := by
  induction h with
  | new => exact ⟨rfl, by intro hc; cases hc⟩
  | load _ input ih =>
    refine ⟨rfl, fun hc => ?_⟩
    simp only [Interpreter.load] at hc
    split at hc <;> cases hc
  | call _ hc ih => exact ih.call hc

/-! ## After a stop -/

/-- An interpreter that answers anything but running answers the same for ever. -/
theorem later_of_stopped (hr : i.status ≠ .ready) (hn : i.status ≠ .running) (h : Later i i') : i' = i := by
  induction h with
  | refl => rfl
  | call _ hc ih =>
    subst ih
    cases hc with
    | step => rw [Interpreter.step, if_pos ⟨hr, hn⟩]
    | run hrun =>
      rw [Interpreter.run, if_pos ⟨hr, hn⟩] at hrun
      cases hrun
      rfl

/-- A step that does not answer running has changed nothing but the status and, where it
    halts, the exit code. -/
theorem step_stopped (h : Sound i) (hs : i.step.1.status ≠ .running) :
    i.step.2.pc = i.pc ∧ i.step.2.registers = i.registers ∧ i.step.2.memory = i.memory ∧
      i.step.2.instructionCount = i.instructionCount ∧
      (i.step.1.status = .halted → i.step.1.value = i.registers 10 &&& 0xff) ∧
      i.step.2.status ≠ .ready ∧ i.step.2.status ≠ .running ∧ i.step = (i.step.2.currentResult, i.step.2) := by
  rcases step_cases i with ⟨hr, hn, he⟩ | ⟨status, hr, hn, hh, he⟩ | he | ⟨w, e, -, -, he⟩
  · rw [he]
    exact ⟨rfl, rfl, rfl, rfl, h.exit, hr, hn, rfl⟩
  · rw [he]
    exact ⟨rfl, rfl, rfl, rfl, fun hc => absurd hc hh, hr, hn, rfl⟩
  · rw [he]
    refine ⟨rfl, rfl, rfl, rfl, fun _ => rfl, ?_, ?_, rfl⟩
    · intro hc
      cases hc
    · intro hc
      cases hc
  · rw [he] at hs
    exact absurd rfl hs

/-- A step that answers running has executed the word at the pc. -/
theorem step_running (hs : i.step.1.status = .running) :
    ∃ w e, i.memory.readWord i.pc = some w ∧ i.execute (Decoder.decode w) = .ok e ∧
      i.step.2 = i.finish (Decoder.decode w) e := by
  rcases step_cases i with ⟨hr, hn, he⟩ | ⟨status, hr, hn, hh, he⟩ | he | ⟨w, e, hf, hx, he⟩
  · rw [he] at hs
    exact absurd hs hn
  · rw [he] at hs
    exact absurd hs hn
  · rw [he] at hs
    cases hs
  · rw [he]
    exact ⟨w, e, hf, hx, rfl⟩

/-- An executed instruction writes at most `rd`, x0 apart. -/
theorem finish_registers (hx0 : i.registers 0 = 0) (d : DecodedInstruction) (e : Effect) {r : RegisterIndex}
    (hr : r ≠ d.rd) : (i.finish d e).registers r = i.registers r := by
  by_cases h0 : r = 0
  · rw [h0, hx0]
    simp [finish]
  · simp only [finish, Function.update_of_ne h0]
    split
    · exact Function.update_of_ne hr _ _
    · rfl

/-- It writes at most the bytes of its store, and these are inside the memory. -/
theorem execute_changed {e : Effect} (h : i.execute d = .ok e) {a : Nat} (ha : e.memory.bytes a ≠ i.memory.bytes a) :
    d.op.isStore = true ∧ (i.address d).toNat ≤ a ∧ a < (i.address d).toNat + Rv32i.accessWidth d.op ∧
      (i.address d).toNat + Rv32i.accessWidth d.op ≤ kMemorySize := by
  rcases execute_memory h with hm | ⟨hs, hin, hm⟩
  · rw [hm] at ha
    exact absurd rfl ha
  · have hw : Rv32i.accessWidth d.op ≤ kMemorySize := by
      cases d.op <;> decide
    have hb := (MemoryImage.inBounds_iff hw).mp hin
    rw [hm] at ha
    by_contra hc
    refine ha (LittleEndian.store_outside _ ?_)
    by_contra hlt
    exact hc ⟨hs, by omega, by omega, hb⟩

/-- Steps are atomic, and stopping is final. -/
theorem step_atomic (h : Reachable i) :
    (i.step.1.status ≠ .running →
      i.step.2.pc = i.pc ∧ i.step.2.registers = i.registers ∧ i.step.2.memory = i.memory ∧
        i.step.2.instructionCount = i.instructionCount ∧
        (i.step.1.status = .halted → i.step.1.value = i.registers 10 &&& 0xff) ∧
        ∀ i', Later i.step.2 i' →
          i' = i.step.2 ∧ i'.step = (i.step.1, i.step.2) ∧ ∀ fuel, i'.run fuel = some (i.step.1, i.step.2)) ∧
    (i.step.1.status = .running →
      i.step.2.instructionCount = i.instructionCount + 1 ∧ i.step.2.registers 0 = 0 ∧
        ∃ w, i.memory.readWord i.pc = some w ∧
          (∀ r, r ≠ (Decoder.decode w).rd → i.step.2.registers r = i.registers r) ∧
          ∀ a, i.step.2.memory.bytes a ≠ i.memory.bytes a →
            (Decoder.decode w).op.isStore = true ∧ (i.address (Decoder.decode w)).toNat ≤ a ∧
              a < (i.address (Decoder.decode w)).toNat + Rv32i.accessWidth (Decoder.decode w).op ∧
              (i.address (Decoder.decode w)).toNat + Rv32i.accessWidth (Decoder.decode w).op ≤ kMemorySize) := by
  constructor
  · intro hs
    obtain ⟨hpc, hregs, hmem, hcount, hexit, hr, hn, he⟩ := step_stopped h.sound hs
    refine ⟨hpc, hregs, hmem, hcount, hexit, fun i' hl => ?_⟩
    obtain rfl := later_of_stopped hr hn hl
    have hresult : i.step.1 = i.step.2.currentResult := by rw [he]
    refine ⟨rfl, ?_, fun fuel => ?_⟩
    · rw [Interpreter.step, if_pos ⟨hr, hn⟩, hresult]
    · rw [Interpreter.run, if_pos ⟨hr, hn⟩, hresult]
  · intro hs
    obtain ⟨w, e, hf, hx, he⟩ := step_running hs
    rw [he]
    refine ⟨rfl, by simp [finish], w, hf, fun r hr => finish_registers h.sound.zero _ e hr, fun a ha => ?_⟩
    exact execute_changed hx ha

/-- `addi x10, x0, 7` and HALT. -/
def haltImage : Istream := { text := "@0 13 05 70 00 13 05 f0 0f".toList }

/-- The interpreter in front of that HALT. -/
def beforeHalt : Interpreter := (new.load haltImage).2.step.2

theorem step_atomic_halt : beforeHalt.step.2.step = (⟨.halted, 7⟩, beforeHalt.step.2) := by
  have hreach : Reachable beforeHalt := (Reachable.new.load haltImage).call .step
  have hstep : beforeHalt.step.1 = ⟨.halted, 7⟩ := by decide +kernel
  have hfinal := ((step_atomic hreach).1 (by rw [hstep]; decide)).2.2.2.2.2 beforeHalt.step.2 .refl
  rw [hfinal.2.1, hstep]

end Interpreter

end TomasuloCpu
