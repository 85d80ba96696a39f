/-
  TomasuloCpu.Reference.SequentialRuns — the interpreter's whole runs against the
  sequential machine's.

  `Stands` ties an interpreter to the machine after `n` steps. Standing there, its next step
  answers as the machine's does (`Stands.answer`) and differs at most in what an SLT or an
  SLTU writes (`Stands.next`). So a run follows the machine for ever exactly when every such
  comparison it executes has the outcome of a comparison with zero (`run_follows_iff`), and
  then `run` returns if and only if the machine stops, with what it stops with
  (`run_outcome`). The image may modify its own code.
-/
import TomasuloCpu.Reference.InterpreterRuns

namespace TomasuloCpu

open Rv32i

/-- What `step` answers when the sequential machine makes this step. -/
def Rv32i.Outcome.answer : Outcome → StepResult
  | .next _ => { status := .running }
  | .halted value => { status := .halted, value := value }
  | .invalidInstruction => { status := .invalidInstruction }
  | .fetchOutOfBounds => { status := .fetchOutOfBounds }
  | .memoryOutOfBounds => { status := .memoryOutOfBounds }

/-- What an image holds at the pc is what the step fetches, if their bytes agree there. -/
theorem Rv32i.Machine.fetch_image {image : MemoryImage} {m : Machine}
    (hb : ∀ a, m.pc.toNat ≤ a → a < m.pc.toNat + 4 → image.bytes a = m.memory a) : image.readWord m.pc = m.fetch := by
  have hin : MemoryImage.inBounds m.pc 4 = true ↔ m.pc.toNat + 4 ≤ kMemorySize :=
    MemoryImage.inBounds_iff (by decide)
  rw [MemoryImage.readWord_spec, Machine.fetch, LittleEndian.load_congr hb]
  simp only [hin]

namespace Interpreter

variable {i : Interpreter} {m m' : Machine} {n : Nat} {d : DecodedInstruction} {memory : Nat → Byte}

/-- The interpreter is where the machine is after `n` steps, and may go on. -/
structure Stands (i : Interpreter) (m : Machine) (n : Nat) : Prop where
  pc : i.pc = m.pc
  registers : i.registers = m.registers
  zero : i.registers 0 = 0
  memory : i.memory.bytes = m.memory
  count : i.instructionCount = BitVec.ofNat 64 n
  exit : i.exitCode = 0
  going : i.status = .ready ∨ i.status = .running

/-- The instruction whose result the `switch` computes. -/
def executed (d : DecodedInstruction) : DecodedInstruction := { d with op := executedAs d.op }

/-- SLT and SLTU, if `m` executes one, do not show that the interpreter compares with zero. -/
def Alike (m : Machine) : Prop :=
  ComparesAlike m.instruction (m.read m.instruction.rs1) (m.read m.instruction.rs2)

theorem Stands.read (h : Stands i m n) (r : RegisterIndex) : m.read r = i.registers r := by
  unfold Machine.read
  split
  · rename_i hr
    rw [hr, h.zero]
  · rw [h.registers]

theorem Stands.fetch (h : Stands i m n) : i.memory.readWord i.pc = m.fetch := by
  rw [h.pc]
  exact Machine.fetch_image fun a _ _ => congrFun h.memory a

theorem Stands.address (h : Stands i m n) (d : DecodedInstruction) : i.address d = m.address d := by
  rw [Interpreter.address, Machine.address, h.read]

theorem Stands.inside (h : Stands i m n) (d : DecodedInstruction) : i.inside d = m.inBounds d := by
  have hw : accessWidth d.op ≤ kMemorySize := by cases d.op <;> decide
  rw [Bool.eq_iff_iff, Interpreter.inside, h.address, MemoryImage.inBounds_iff hw, Machine.inBounds,
    decide_eq_true_eq]

/-! ## One instruction -/

/-- The effect that takes `i` where `m` goes with `d`. -/
def following (i : Interpreter) (m : Machine) (d : DecodedInstruction) : Effect :=
  { memory := { i.memory with bytes := (m.execute d).memory }
    nextPc := (m.execute d).pc
    writebackValue := m.result (executed d)
    hasWriteback := d.op.writes }

theorem executedAs_memory {op : Op} (h : op.isMemory = true) : executedAs op = op := by
  cases op <;> first | rfl | cases h

theorem executedAs_isLoad (op : Op) : (executedAs op).isLoad = op.isLoad := by
  cases op <;> rfl

/-- A load or store continues behind itself. -/
theorem Stands.memory_pc (h : Stands i m n) (hm : d.op.isMemory = true) :
    (m.execute d).pc = i.pc + kInstructionWidth := by
  have hseq := Op.sequential_of_isMemory hm
  rw [Bool.or_eq_false_iff] at hseq
  show target d.op m.pc _ _ _ = _
  rw [Machine.target_sequential hseq.1 hseq.2, h.pc]
  rfl

theorem Stands.memory_kept (h : Stands i m n) (hs : d.op.isStore = false) :
    { i.memory with bytes := (m.execute d).memory } = i.memory := by
  have hmem : (m.execute d).memory = m.memory := if_neg (by rw [hs]; exact Bool.false_ne_true)
  rw [hmem, ← h.memory]

theorem Stands.execute_load (h : Stands i m n) (hl : d.op.isLoad = true) :
    i.execute d = if m.inBounds d then .ok (following i m d) else .error .memoryOutOfBounds := by
  have hm : d.op.isMemory = true := by rw [Op.isMemory, hl]; rfl
  have hs : d.op.isStore = false := by
    by_contra hc
    rw [Op.isLoad_of_isStore (by simpa using hc)] at hl
    cases hl
  have hresult : m.result (executed d) =
      extend d.op (LittleEndian.load m.memory (m.address d).toNat (accessWidth d.op)) := by
    rw [Machine.result, executed, executedAs_memory hm, if_pos hl]
  have hwrites : d.op.writes = true := by
    cases hop : d.op <;> first | rfl | (rw [hop] at hl; cases hl)
  rw [Interpreter.execute_load i hl, h.inside, h.address, h.memory, following, h.memory_kept hs, h.memory_pc hm,
    hresult, hwrites]
  rfl

theorem Stands.execute_store (h : Stands i m n) (hs : d.op.isStore = true) :
    i.execute d = if m.inBounds d then .ok (following i m d) else .error .memoryOutOfBounds := by
  have hm : d.op.isMemory = true := by rw [Op.isMemory, hs, Bool.or_true]
  have hresult : m.result (executed d) = 0 := by
    rw [Machine.result, executed, executedAs_memory hm,
      if_neg (by rw [Op.isLoad_of_isStore hs]; exact Bool.false_ne_true)]
    cases hop : d.op <;> first | rfl | (rw [hop] at hs; cases hs)
  have hmem : (m.execute d).memory =
      LittleEndian.store m.memory (m.address d).toNat (accessWidth d.op) (m.read d.rs2) := if_pos hs
  rw [Interpreter.execute_store i hs, h.inside, h.address, h.memory, ← h.read, following, h.memory_pc hm, hmem,
    hresult, Op.writes_of_isStore hs]

theorem Stands.execute_alu (h : Stands i m n) (ha : d.op.isAlu = true) : i.execute d = .ok (following i m d) := by
  have hm : d.op.isMemory = false := by
    simp only [Op.isAlu, Bool.and_eq_true, Bool.not_eq_true'] at ha
    exact ha.1.1
  rw [Op.isMemory, Bool.or_eq_false_iff] at hm
  have hresult : m.result (executed d) =
      arithmetic (executedAs d.op) m.pc (m.read d.rs1) (m.read d.rs2) d.immediate :=
    if_neg (by rw [executed, executedAs_isLoad, hm.1]; exact Bool.false_ne_true)
  have hpc : (m.execute d).pc = target d.op m.pc (m.read d.rs1) (m.read d.rs2) d.immediate := rfl
  rw [execute_spec i ha, following, h.memory_kept hm.2, hresult, hpc, h.read, h.read, h.pc]

/-- What the `switch` does with an instruction, in the terms of the sequential machine. -/
theorem Stands.execute (h : Stands i m n) (hinv : d.op ≠ .invalid) (hhalt : d.op ≠ .halt) :
    i.execute d = if d.op.isMemory && !m.inBounds d then .error .memoryOutOfBounds else .ok (following i m d) := by
  cases hl : d.op.isLoad with
  | true =>
    rw [h.execute_load hl, Op.isMemory, hl, Bool.true_or, Bool.true_and]
    cases m.inBounds d <;> rfl
  | false =>
    cases hs : d.op.isStore with
    | true =>
      rw [h.execute_store hs, Op.isMemory, hs, Bool.or_true, Bool.true_and]
      cases m.inBounds d <;> rfl
    | false =>
      have hm : d.op.isMemory = false := by rw [Op.isMemory, hl, hs]; rfl
      rw [h.execute_alu (Op.isAlu_of (by simpa using hm) hhalt hinv), hm]
      rfl

/-- `finish` writes the destination and leaves x0 at zero. -/
theorem finish_writes (hx0 : i.registers 0 = 0) (d : DecodedInstruction) (e : Effect) :
    (i.finish d e).registers =
      if e.hasWriteback && d.rd != 0 then Function.update i.registers d.rd e.writebackValue else i.registers := by
  simp only [finish]
  split
  · rename_i hw
    rw [Bool.and_eq_true, bne_iff_ne] at hw
    rw [← hx0, ← Function.update_of_ne (Ne.symm hw.2) e.writebackValue i.registers, Function.update_eq_self]
  · rw [← hx0, Function.update_eq_self]

/-- The register written is the machine's exactly when the comparison does not show. -/
theorem result_executed (hinv : m.instruction.op ≠ .invalid) (hrd : m.instruction.rd ≠ 0) :
    m.result (executed m.instruction) = m.result m.instruction ↔ Alike m := by
  obtain ⟨w, -, hi⟩ := Machine.fetch_of_valid hinv
  have hd := Machine.instruction_spec m
  have himm : m.instruction.op = .slt ∨ m.instruction.op = .sltu → m.instruction.immediate = 0 := by
    intro h
    rw [hi] at h hd ⊢
    refine Decoder.immediate_of_registers w ?_ ?_
    · rcases h with h | h <;> rw [hd.rhs, h] <;> rfl
    · rcases h with h | h <;> rw [hd.branch, h] <;> rfl
  have halike : Alike m ↔
      (m.instruction.op = .slt → (m.read m.instruction.rs1).slt (m.read m.instruction.rs2) =
        (m.read m.instruction.rs1).slt 0) ∧
      (m.instruction.op = .sltu → (m.read m.instruction.rs1).ult (m.read m.instruction.rs2) = false) :=
    ⟨fun h => h hrd, fun h _ => h⟩
  rw [halike, Machine.result, Machine.result, executed, executedAs_isLoad]
  split
  · -- a load is no comparison
    rename_i hl
    rw [executedAs_memory (by rw [Op.isMemory, hl]; rfl)]
    refine ⟨fun _ => ⟨fun hc => ?_, fun hc => ?_⟩, fun _ => rfl⟩
    · rw [hc] at hl
      cases hl
    · rw [hc] at hl
      cases hl
  · exact arithmetic_executedAs himm m.pc _ _

/-! ## One step -/

/-- The next step answers as the machine's. -/
theorem Stands.answer (h : Stands i m n) : i.step.1 = m.step.answer := by
  have hgo : ¬ (i.status ≠ .ready ∧ i.status ≠ .running) := by
    rintro ⟨hr, hn⟩
    exact h.going.elim hr hn
  have hstop : ∀ status, (i.stop status).1 = { status := status } := by
    intro status
    rw [stop, h.exit]
  rw [step, if_neg hgo, h.fetch, Machine.step]
  cases m.fetch with
  | none => exact hstop .fetchOutOfBounds
  | some w =>
    simp only []
    by_cases hinv : (Decoder.decode w).op = .invalid
    · rw [if_neg (by rw [hinv]; decide), if_pos hinv, if_pos hinv]
      exact hstop .invalidInstruction
    · by_cases hhalt : (Decoder.decode w).op = .halt
      · rw [if_pos hhalt, if_neg hinv, if_pos hhalt, h.read]
        rfl
      · rw [if_neg hhalt, if_neg hinv, if_neg hinv, if_neg hhalt, h.execute hinv hhalt]
        by_cases hout : ((Decoder.decode w).op.isMemory && !m.inBounds (Decoder.decode w)) = true
        · rw [if_pos hout, if_pos hout]
          exact hstop .memoryOutOfBounds
        · rw [if_neg hout, if_neg hout]
          show StepResult.mk .running i.exitCode = _
          rw [h.exit]
          rfl

/-- A step that the machine makes leaves the interpreter where the machine is, but for what
    a comparison writes. -/
theorem Stands.next (h : Stands i m n) (hn : m.next = some m') :
    (i.step.2.registers = m'.registers ↔ Alike m) ∧ (Alike m → Stands i.step.2 m' (n + 1)) := by
  obtain ⟨hinv, hhalt, hin, hexec⟩ := Machine.next_eq_some.mp hn
  obtain ⟨w, hf, hi⟩ := Machine.fetch_of_valid hinv
  have hd := Machine.instruction_spec m
  have hok : i.execute m.instruction = .ok (following i m m.instruction) := by
    rw [h.execute hinv hhalt, if_neg]
    rw [Bool.and_eq_true, Bool.not_eq_true', not_and, Bool.not_eq_false]
    exact hin
  have hstep := step_ok h.going (h.fetch.trans hf) (by rw [← hi]; exact hok)
  rw [← hi] at hstep
  rw [hstep]
  have hiff : (i.finish m.instruction (following i m m.instruction)).registers = m'.registers ↔ Alike m := by
    rw [finish_writes h.zero, Machine.next_registers hn, h.registers, hd.writes]
    by_cases hw : (m.instruction.op.writes && m.instruction.rd != 0) = true
    · have hrd : m.instruction.rd ≠ 0 := by
        rw [Bool.and_eq_true, bne_iff_ne] at hw
        exact hw.2
      rw [if_pos hw, following, if_pos hw, (Function.update_injective m.registers m.instruction.rd).eq_iff]
      exact result_executed hinv hrd
    · rw [if_neg hw, following, if_neg hw]
      refine ⟨fun _ hrd => ?_, fun _ => rfl⟩
      -- what has a destination and writes none is no comparison
      have hwrites : m.instruction.op.writes = false := by
        rw [Bool.and_eq_true, bne_iff_ne, not_and] at hw
        exact Bool.eq_false_iff.mpr fun hc => hw hc hrd
      constructor <;> intro hc <;> rw [hc] at hwrites <;> cases hwrites
  refine ⟨hiff, fun halike => ⟨?_, hiff.mpr halike, ?_, ?_, ?_, h.exit, Or.inr rfl⟩⟩
  · rw [hexec]
    rfl
  · simp [finish]
  · rw [hexec]
    rfl
  · show i.instructionCount + 1 = _
    rw [h.count, BitVec.ofNat_add]
    rfl

/-! ## Runs -/

/-- No comparison that the run executes shows that the interpreter compares with zero. -/
def ComparesAlways (memory : Nat → Byte) : Prop :=
  ∀ n m m', Rv32i.run memory n = some m → m.next = some m' → Alike m

theorem stands_load (i : Interpreter) {input : Istream} (hok : (i.load input).1.ok = true) :
    Stands (i.load input).2 (start (i.load input).2.memory.bytes) 0 := by
  refine ⟨rfl, rfl, rfl, rfl, rfl, rfl, Or.inl ?_⟩
  exact if_pos hok

theorem steps_succ (i : Interpreter) (n : Nat) : i.steps (n + 1) = (i.steps n).step.2 :=
  Function.iterate_succ_apply' _ n i

/-- While the comparisons are right the interpreter stands where the machine does. -/
theorem Stands.steps (h : Stands i (start memory) 0) (hm : Rv32i.run memory n = some m)
    (halike : ∀ k < n, ∀ u v, Rv32i.run memory k = some u → u.next = some v → Alike u) : Stands (i.steps n) m n := by
  induction n generalizing m with
  | zero =>
    obtain rfl := Option.some.inj hm
    exact h
  | succ n ih =>
    obtain ⟨u, hu, hn⟩ := run_pred hm
    rw [steps_succ]
    have hstands := ih hu fun k hk => halike k (Nat.lt_succ_of_lt hk)
    exact (hstands.next hn).2 (halike n (Nat.lt_succ_self n) u m hu hn)

/-- The registers agree through the first `limit` steps exactly when every comparison among
    these steps has the outcome of a comparison with zero; everything else agrees then too,
    and the next step answers as the machine's. -/
theorem run_follows_iff (i : Interpreter) (input : Istream) (hok : (i.load input).1.ok = true) (limit : Nat) :
    let memory := (i.load input).2.memory.bytes
    ((∀ n ≤ limit, ∀ m, Rv32i.run memory n = some m → ((i.load input).2.steps n).registers = m.registers) ↔
      ∀ n < limit, ∀ m m', Rv32i.run memory n = some m → m.next = some m' → Alike m) ∧
    ((∀ n < limit, ∀ m m', Rv32i.run memory n = some m → m.next = some m' → Alike m) →
      ∀ n ≤ limit, ∀ m, Rv32i.run memory n = some m →
        Stands ((i.load input).2.steps n) m n ∧ ((i.load input).2.steps n).step.1 = m.step.answer) := by
  intro memory
  have hstart := stands_load i hok
  have hstands : (∀ n < limit, ∀ m m', Rv32i.run memory n = some m → m.next = some m' → Alike m) →
      ∀ n ≤ limit, ∀ m, Rv32i.run memory n = some m → Stands ((i.load input).2.steps n) m n := by
    intro halike n hn m hm
    exact hstart.steps hm fun k hk => halike k (Nat.lt_of_lt_of_le hk hn)
  refine ⟨⟨fun hregs n hn => ?_, fun halike n hn m hm => (hstands halike n hn m hm).registers⟩,
    fun halike n hn m hm => ⟨hstands halike n hn m hm, (hstands halike n hn m hm).answer⟩⟩
  induction n using Nat.strongRecOn with
  | ind n ih =>
    intro m m' hm hnext
    have hstep := hstart.steps hm fun k hk => ih k hk (Nat.lt_trans hk hn)
    have hagree := hregs (n + 1) hn m' (by rw [run_succ hm, hnext])
    rw [steps_succ] at hagree
    exact (hstep.next hnext).1.mp hagree

/-! ## The loop of `run` -/

theorem runLoop_going {fuel : Nat} (h : ∀ k < fuel, (i.steps k).step.1.status = .running) : i.runLoop fuel = none := by
  induction fuel generalizing i with
  | zero => rfl
  | succ fuel ih =>
    have hfirst : i.step.1.status = .running := h 0 (Nat.succ_pos fuel)
    rw [runLoop, if_pos hfirst]
    refine ih fun k hk => ?_
    have hnext := h (k + 1) (Nat.succ_lt_succ hk)
    rwa [steps, Function.iterate_succ_apply] at hnext

theorem runLoop_stop {fuel k : Nat} (h : ∀ j < k, (i.steps j).step.1.status = .running)
    (hstop : (i.steps k).step.1.status ≠ .running) (hk : k < fuel) : i.runLoop fuel = some (i.steps k).step := by
  induction fuel generalizing i k with
  | zero => exact absurd hk (Nat.not_lt_zero k)
  | succ fuel ih =>
    cases k with
    | zero =>
      have hfirst : i.step.1.status ≠ .running := hstop
      rw [runLoop, if_neg hfirst]
      rfl
    | succ k =>
      have hfirst : i.step.1.status = .running := h 0 (Nat.succ_pos k)
      rw [runLoop, if_pos hfirst, ih (k := k) ?_ ?_ (Nat.lt_of_succ_lt_succ hk)]
      · rfl
      · intro j hj
        have hnext := h (j + 1) (Nat.succ_lt_succ hj)
        rwa [steps, Function.iterate_succ_apply] at hnext
      · rwa [steps, Function.iterate_succ_apply] at hstop

theorem answer_running : m.step.answer.status = .running ↔ ∃ m', m.next = some m' := by
  unfold Machine.next
  cases m.step <;> simp [Outcome.answer]

/-- A stopped run of the sequential machine has a last state. -/
theorem run_last {fuel : Nat} (h : Rv32i.run memory fuel = none) :
    ∃ k < fuel, ∃ m, Rv32i.run memory k = some m ∧ m.next = none := by
  induction fuel with
  | zero => cases h
  | succ fuel ih =>
    cases hm : Rv32i.run memory fuel with
    | none =>
      obtain ⟨k, hk, hlast⟩ := ih hm
      exact ⟨k, Nat.lt_succ_of_lt hk, hlast⟩
    | some m => exact ⟨fuel, Nat.lt_succ_self fuel, m, hm, by rw [← run_succ hm, h]⟩

theorem Stands.run (h : Stands i m n) (fuel : Nat) : i.run fuel = i.runLoop fuel := by
  refine if_neg ?_
  rintro ⟨hr, hn⟩
  exact h.going.elim hr hn

theorem answers_running (h : Stands i (start memory) 0) (halike : ComparesAlways memory)
    (hm : Rv32i.run memory n = some m) : ∀ k < n, (i.steps k).step.1.status = .running := by
  intro k hk
  obtain ⟨v, hv⟩ := run_of_le hk hm
  obtain ⟨u, hu, hn⟩ := run_pred hv
  rw [(h.steps hu fun j _ => halike j).answer, answer_running]
  exact ⟨v, hn⟩

/-- The interpreter's last state shows all of the machine's. -/
structure Ends (j : Interpreter) (m : Machine) (k : Nat) : Prop where
  pc : j.pc = m.pc
  registers : j.registers = m.registers
  memory : j.memory.bytes = m.memory
  count : j.instructionCount = BitVec.ofNat 64 k
  answer : j.currentResult = m.step.answer

theorem run_going (h : Stands i (start memory) 0) (halike : ComparesAlways memory) {fuel : Nat}
    (hm : Rv32i.run memory fuel = some m) : i.run fuel = none := by
  rw [h.run, runLoop_going (answers_running h halike hm)]

theorem run_stop (h : Stands i (start memory) 0) (halike : ComparesAlways memory) {fuel k : Nat}
    (hm : Rv32i.run memory k = some m) (hlast : m.next = none) (hk : k < fuel) :
    ∃ j, i.run fuel = some (m.step.answer, j) ∧ Ends j m k := by
  have hat := h.steps hm fun j _ => halike j
  have hstop : (i.steps k).step.1.status ≠ .running := by
    rw [hat.answer]
    intro hc
    obtain ⟨m', hn⟩ := answer_running.mp hc
    rw [hlast] at hn
    cases hn
  have hsound : Sound (i.steps k) := by
    refine ⟨hat.zero, fun hc => ?_⟩
    rcases hat.going with hg | hg <;> rw [hg] at hc <;> cases hc
  obtain ⟨hpc, hregs, hmem, hcount, -, -, -, heq⟩ := step_stopped hsound hstop
  have hresult : (i.steps k).step.2.currentResult = m.step.answer := by
    rw [← hat.answer]
    exact (congrArg Prod.fst heq).symm
  refine ⟨(i.steps k).step.2, ?_, hpc.trans hat.pc, hregs.trans hat.registers, ?_, hcount.trans hat.count, hresult⟩
  · rw [h.run, runLoop_stop (answers_running h halike hm) hstop hk, ← hat.answer]
  · rw [hmem, hat.memory]

/-- `run` returns if and only if the machine stops within `fuel` steps, and then with what
    the machine stops with and in the state it stops in. -/
theorem run_outcome (i : Interpreter) (input : Istream) (hok : (i.load input).1.ok = true)
    (halike : ComparesAlways (i.load input).2.memory.bytes) (fuel : Nat) :
    ((i.load input).2.run fuel = none ↔ ∃ m, Rv32i.run (i.load input).2.memory.bytes fuel = some m) ∧
    ∀ r j, (i.load input).2.run fuel = some (r, j) →
      ∃ k < fuel, ∃ m, Rv32i.run (i.load input).2.memory.bytes k = some m ∧ m.next = none ∧
        r = m.step.answer ∧ Ends j m k := by
  have hstart := stands_load i hok
  cases hm : Rv32i.run (i.load input).2.memory.bytes fuel with
  | some m =>
    rw [run_going hstart halike hm]
    exact ⟨⟨fun _ => ⟨m, rfl⟩, fun _ => rfl⟩, fun r j hc => (by cases hc)⟩
  | none =>
    obtain ⟨k, hk, m, hm, hlast⟩ := run_last hm
    obtain ⟨j, hrun, hends⟩ := run_stop hstart halike hm hlast hk
    rw [hrun]
    refine ⟨⟨fun hc => (by cases hc), ?_⟩, fun r j' hrj => ?_⟩
    · rintro ⟨v, hv⟩
      cases hv
    · cases hrj
      exact ⟨k, hk, m, hm, hlast, rfl, hends⟩

/-- `slt x2, x0, x1` with 1 in x1 is the second step of `compareImage`. -/
theorem run_follows_iff_compares :
    ¬ ∀ n ≤ 2, ∀ m, Rv32i.run (new.load compareImage).2.memory.bytes n = some m →
      ((new.load compareImage).2.steps n).registers = m.registers := by
  rw [(run_follows_iff new compareImage (by decide +kernel) 2).1]
  intro halike
  have hfacts : (Rv32i.run (new.load compareImage).2.memory.bytes 1).any (fun m => m.next.isSome &&
      decide (m.instruction.rd ≠ 0 ∧ m.instruction.op = .slt ∧
        (m.read m.instruction.rs1).slt (m.read m.instruction.rs2) ≠ (m.read m.instruction.rs1).slt 0)) = true := by
    decide +kernel
  obtain ⟨m, hm, hp⟩ := (Option.any_eq_true _ _).mp hfacts
  rw [Bool.and_eq_true, decide_eq_true_eq, Option.isSome_iff_exists] at hp
  obtain ⟨⟨m', hn⟩, hrd, hop, hne⟩ := hp
  exact hne (((halike 1 (by decide) m m' hm hn) hrd).1 hop)

/-- A run without SLT and SLTU. -/
theorem comparesAlways {limit : Nat}
    (h : everyStep memory limit (fun m => m.instruction.op != .slt && m.instruction.op != .sltu) = true) :
    ComparesAlways memory := by
  intro n m m' hm _ _
  have hop := everyStep_spec h hm
  rw [Bool.and_eq_true, bne_iff_ne, bne_iff_ne] at hop
  exact ⟨fun hc => absurd hc hop.1, fun hc => absurd hc hop.2⟩

theorem run_outcome_halt : ∃ r j, (new.load haltImage).2.run 2 = some (r, j) ∧
    ∃ k < 2, ∃ m, Rv32i.run (new.load haltImage).2.memory.bytes k = some m ∧ m.next = none ∧ r = m.step.answer := by
  have hrun : ((new.load haltImage).2.run 2).isSome = true := by decide +kernel
  obtain ⟨⟨r, j⟩, hrj⟩ := Option.isSome_iff_exists.mp hrun
  have hsteps : everyStep (new.load haltImage).2.memory.bytes 2
      (fun m => m.instruction.op != .slt && m.instruction.op != .sltu) = true := by
    decide +kernel
  obtain ⟨k, hk, m, hm, hlast, hr, -⟩ :=
    (run_outcome new haltImage (by decide +kernel) (comparesAlways hsteps) 2).2 r j hrj
  exact ⟨r, j, hrj, k, hk, m, hm, hlast, hr⟩

end Interpreter

end TomasuloCpu
