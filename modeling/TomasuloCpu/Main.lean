/-
  TomasuloCpu.Main — the program around the machine (`main.cpp`).

  It loads its standard input, runs the machine and prints the value; the counters, like the
  two error texts, go to the other stream. `main_output` says what is printed in terms of the
  sequential machine alone: the value HALT stops it with, the number of its steps and of its
  branches, or the status and pc it stops at. Only the number of cycles, the correct
  predictions and a data fault are the processor's own, read where it has stopped.
-/
import TomasuloCpu.Tomasulo.Differential
import TomasuloCpu.Tomasulo.CycleBound
import TomasuloCpu.Tomasulo.OrderIndependence
import TomasuloCpu.Tomasulo.Timing

namespace TomasuloCpu

open Rv32i

def RunResult.halted (r : RunResult) : Bool := r.status == .halted

/-- `static_cast<int>` of a status. -/
def Status.toInt : Status → Nat
  | .notLoaded => 0
  | .running => 1
  | .halted => 2
  | .loadError => 3
  | .fetchOutOfBound => 4
  | .invalidInstruction => 5
  | .memoryOutOfBound => 6
  | .internalError => 7

/-- What the process writes to its two streams, and its exit code. -/
structure ProcessResult where
  out : String := ""
  err : String := ""
  exitCode : Nat
  deriving DecidableEq, Repr

/-- `<<` of an unsigned number. -/
def decText (n : Nat) : String := String.ofList (Nat.toDigits 10 n)

/-- The same after `std::hex`. -/
def hexText (n : Nat) : String := String.ofList (Nat.toDigits 16 n)

def stoppedText (status : Status) (pc : Address) : String :=
  "CPU stopped with status " ++ decText status.toInt ++ " at pc=0x" ++ hexText pc.toNat ++ "\n"

/-- `accuracy` is the text of the quotient, a floating-point number. -/
def statisticsText (cycles committed branches correct : CycleCount) (accuracy : String) : String :=
  "cycles: " ++ decText cycles.toNat ++ "\n" ++ "committed: " ++ decText committed.toNat ++ "\n" ++
    "branches: " ++ decText branches.toNat ++ "\n" ++ "correct predictions: " ++ decText correct.toNat ++ "\n" ++
    "accuracy: " ++ accuracy ++ "\n"

namespace Cpu

/-- The machine behind the loop of `run`, cut off after `fuel` cycles. -/
def runTo (cpu : Cpu) : Nat → Option Cpu
  | 0 => if cpu.status ≠ .running then some cpu else none
  | fuel + 1 => if cpu.status ≠ .running then some cpu else cpu.cycle.runTo fuel

def pc (cpu : Cpu) : Address := cpu.currentPc

end Cpu

/-- `main` behind the call of `run`: `accuracy` is the text `branch_accuracy` prints as, from
    its two counts. -/
def report (accuracy : CycleCount → CycleCount → String) (cpu : Cpu) : ProcessResult :=
  let result : RunResult := ⟨cpu.status, cpu.exitCode⟩
  if !result.halted then { err := stoppedText result.status cpu.pc, exitCode := 1 }
  else
    { out := decText (result.value &&& 0xff).toNat ++ "\n"
      err := statisticsText cpu.cycleCount cpu.committedCount cpu.branchCount cpu.correctBranchCount
        (accuracy cpu.branchCount cpu.correctBranchCount)
      exitCode := 0 }

def main (accuracy : CycleCount → CycleCount → String) (cpu : Cpu) (input : Istream) (fuel : Nat) :
    Option ProcessResult :=
  let (loadResult, cpu) := cpu.load input
  if !loadResult.ok then some { err := "failed to load memory image\n", exitCode := 1 }
  else (cpu.runTo fuel).map (report accuracy)

namespace Cpu

variable {cpu : Cpu} {fuel : Nat}

theorem runTo_eq (cpu : Cpu) (fuel : Nat) :
    cpu.runTo fuel = if (cpu.cycles fuel).status ≠ .running then some (cpu.cycles fuel) else none := by
  induction fuel generalizing cpu with
  | zero => rfl
  | succ fuel ih =>
    rw [runTo]
    split
    · rename_i hstop
      rw [cycles_of_stopped hstop, if_pos hstop]
    · rw [ih, cycles, cycles, Function.iterate_succ_apply]

/-- `run` returns what it leaves in the machine. -/
theorem run_eq_runTo (cpu : Cpu) (fuel : Nat) :
    cpu.run fuel = (cpu.runTo fuel).map fun c => ⟨c.status, c.exitCode⟩ := by
  induction fuel generalizing cpu with
  | zero => rw [run, runTo]; split <;> rfl
  | succ fuel ih =>
    rw [run, runTo]
    split
    · rfl
    · exact ih cpu.cycle

end Cpu

namespace Core

variable {tr : Nat → Core} {n : Nat}

/-- The branches among the first `n` steps. -/
def branchSteps (memory : Nat → Byte) (n : Nat) : Nat :=
  (List.range n).countP fun i => (run memory i).any (·.instruction.op.isBranch)

/-- The branches that commit are those of the sequential run. -/
theorem branches_follow (h : IsRun tr) (hs : ¬ ModifiesWithin ReorderBuffer.kCapacity (tr 0).memory.bytes) (n : Nat) :
    (commitLog tr n).countP (·.isBranch) = branchSteps (tr 0).memory.bytes (retired tr n) := by
  induction n with
  | zero => rfl
  | succ n ih =>
    rw [commitLog, List.countP_append, ih, retired]
    cases hx : (tr n).committed with
    | none =>
      have hz : (tr n).retires = 0 := by
        rcases committed_none.mp hx with hstop | hidle
        · exact retires_stopped hstop
        · exact retires_idle hidle
      rw [hz]
      rfl
    | some x =>
      obtain ⟨hrun, hc, hhead, hr⟩ := committed_some (h.inv n) hx
      have hbranch := ((h.inv n).entry x (List.mem_of_mem_head? hhead)).branch
      have hhalts := halts_eq (h.inv n) hhead hr
      rw [Option.toList_some, List.countP_singleton, hbranch]
      by_cases hop : x.op = .halt
      · rw [retires_halts (by rw [hhalts, hop]; rfl), hop]
        rfl
      · have hsim := (follows_far h hs n).1 (by simp [hrun])
        rw [List.head?_eq_getElem?] at hhead
        obtain ⟨m, hp⟩ := hsim.head hhead
        have hm : run (tr 0).memory.bytes (retired tr n) = some m := hp.step
        rw [retires_running hrun (by rw [hhalts]; simpa using hop), shift, if_pos hc, branchSteps, branchSteps,
          List.range_succ, List.countP_append, List.countP_singleton, hm, (hsim.fetched 0 x m hp).op]
        rfl

theorem branchCount_follows (h : IsRun tr) (hstart : (tr 0).predictor.predictionCount = 0)
    (hs : ¬ ModifiesWithin ReorderBuffer.kCapacity (tr 0).memory.bytes) (n : Nat) :
    (tr n).predictor.predictionCount = BitVec.ofNat 64 (branchSteps (tr 0).memory.bytes (retired tr n)) := by
  rw [predictor_follows h, (BranchPredictor.trainedFrom_counts _ _).1, hstart, branches_follow h hs]
  exact BitVec.zero_add _

end Core

/-! ## What is printed -/

/-- What the program prints for a text that loads: the sequential run of the loaded memory
    decides, data faults apart. The numbers of cycles and of correct predictions, and the pc
    of a data fault, are those of the processor where it has stopped. -/
inductive Prints (accuracy : CycleCount → CycleCount → String) (cpu : Cpu) (input : Istream) : ProcessResult → Prop
  | halted {steps n : Nat} {m : Machine} {value : Word}
      (hm : run (cpu.load input).2.memoryUnit.memory.bytes steps = some m) (hstep : m.step = .halted value)
      (hstop : ((cpu.load input).2.cycles n).status = .halted) :
      Prints accuracy cpu input
        { out := decText value.toNat ++ "\n"
          err := statisticsText ((cpu.load input).2.cycles n).cycleCount (BitVec.ofNat 64 steps)
            (BitVec.ofNat 64 (Core.branchSteps (cpu.load input).2.memoryUnit.memory.bytes steps))
            ((cpu.load input).2.cycles n).correctBranchCount
            (accuracy (BitVec.ofNat 64 (Core.branchSteps (cpu.load input).2.memoryUnit.memory.bytes steps))
              ((cpu.load input).2.cycles n).correctBranchCount)
          exitCode := 0 }
  | fetchOutOfBounds {steps : Nat} {m : Machine}
      (hm : run (cpu.load input).2.memoryUnit.memory.bytes steps = some m) (hstep : m.step = .fetchOutOfBounds) :
      Prints accuracy cpu input { err := stoppedText .fetchOutOfBound m.pc, exitCode := 1 }
  | invalidInstruction {steps : Nat} {m : Machine}
      (hm : run (cpu.load input).2.memoryUnit.memory.bytes steps = some m) (hstep : m.step = .invalidInstruction) :
      Prints accuracy cpu input { err := stoppedText .invalidInstruction m.pc, exitCode := 1 }
  | memoryOutOfBounds {n : Nat} (hstop : ((cpu.load input).2.cycles n).status = .memoryOutOfBound) :
      Prints accuracy cpu input
        { err := stoppedText .memoryOutOfBound ((cpu.load input).2.cycles n).pc, exitCode := 1 }

namespace Cpu

open TomasuloCpu.Core

variable {cpu : Cpu} {input : Istream} {n fuel : Nat} {accuracy : CycleCount → CycleCount → String}

theorem report_halted (hh : cpu.status = .halted) :
    report accuracy cpu =
      { out := decText (cpu.exitCode &&& 0xff).toNat ++ "\n"
        err := statisticsText cpu.cycleCount cpu.committedCount cpu.branchCount cpu.correctBranchCount
          (accuracy cpu.branchCount cpu.correctBranchCount)
        exitCode := 0 } :=
  if_neg (by simp [RunResult.halted, hh])

theorem report_stopped (hh : cpu.status ≠ .halted) :
    report accuracy cpu = { err := stoppedText cpu.status cpu.pc, exitCode := 1 } :=
  if_pos (by simpa [RunResult.halted] using hh)

theorem main_failed (hok : (cpu.load input).1.ok ≠ true) :
    main accuracy cpu input fuel = some { err := "failed to load memory image\n", exitCode := 1 } := by
  have hno : (!(cpu.load input).1.ok) = true := by rw [Bool.eq_false_of_not_eq_true hok]; rfl
  exact if_pos hno

theorem main_loaded (hok : (cpu.load input).1.ok = true) :
    main accuracy cpu input fuel = ((cpu.load input).2.runTo fuel).map (report accuracy) := by
  have hyes : ¬ (!(cpu.load input).1.ok) = true := by rw [hok]; decide
  exact if_neg hyes

theorem answer_fetch {o : Outcome} (h : Status.fetchOutOfBound.counterpart = some o.answer.status) :
    o = .fetchOutOfBounds := by
  cases o with
  | fetchOutOfBounds => rfl
  | _ => cases h

theorem answer_invalid {o : Outcome} (h : Status.invalidInstruction.counterpart = some o.answer.status) :
    o = .invalidInstruction := by
  cases o with
  | invalidInstruction => rfl
  | _ => cases h

/-- A machine that stopped prints what the sequential run stops with. -/
theorem report_prints (hs : ¬ ModifiesWithin ReorderBuffer.kCapacity (cpu.load input).2.memoryUnit.memory.bytes)
    (hrun : (cpu.history input 0).status = .running) (hstop : (cpu.history input n).status ≠ .running) :
    Prints accuracy cpu input (report accuracy ((cpu.load input).2.cycles n)) := by
  have h := history_isRun cpu input
  rcases stop_cases h hstop with ⟨-, herror⟩ | ⟨-, hend | hfault⟩
  · rw [hrun] at herror
    cases herror
  · obtain ⟨m, hm, -, -, hpc, -, hstatus, -⟩ := stop_follows h hs hend
    rcases hend with hh | hf
    · obtain ⟨y, hy, -, hstep, hvalue⟩ := halted_run_far h hs hh
      obtain rfl := Option.some.inj (hm.symm.trans hy)
      have hcommitted : ((cpu.load input).2.cycles n).committedCount =
          BitVec.ofNat 64 (retired (cpu.history input) n) := committedCount_eq h n
      have hbranches : ((cpu.load input).2.cycles n).branchCount =
          BitVec.ofNat 64 (branchSteps (cpu.load input).2.memoryUnit.memory.bytes (retired (cpu.history input) n)) :=
        branchCount_follows h (by rw [history_eq]; rfl) hs n
      have hexit : ((cpu.load input).2.cycles n).exitCode &&& 0xff = m.read 10 &&& 0xff := by
        have hvalue : ((cpu.load input).2.cycles n).exitCode = m.read 10 &&& 0xff := hvalue
        rw [hvalue, BitVec.and_assoc, BitVec.and_self]
      rw [report_halted hh, hcommitted, hbranches, hexit]
      exact .halted hm hstep hh
    · have hne : (cpu.history input n).status ≠ .halted := by rcases hf with hf | hf <;> rw [hf] <;> decide
      have hpc : ((cpu.load input).2.cycles n).pc = m.pc := hpc hne
      rw [report_stopped hne, hpc, cycles_status]
      rcases hf with hf | hf
      · rw [hf] at hstatus ⊢
        exact .fetchOutOfBounds hm (answer_fetch hstatus)
      · rw [hf] at hstatus ⊢
        exact .invalidInstruction hm (answer_invalid hstatus)
  · rw [report_stopped (by rw [cycles_status, hfault]; decide), cycles_status, hfault]
    exact .memoryOutOfBounds hfault

/-- The report reads the current half of the machine only. -/
theorem report_congr {other : Cpu} (h : other.core = cpu.core) : report accuracy other = report accuracy cpu := by
  have hstatus : other.status = cpu.status := congrArg (·.status) h
  have hpc : other.pc = cpu.pc := congrArg (·.pc) h
  have hexit : other.exitCode = cpu.exitCode := congrArg (·.exitCode) h
  have hcycles : other.cycleCount = cpu.cycleCount := congrArg (·.cycleCount) h
  have hcommitted : other.committedCount = cpu.committedCount := congrArg (·.committedCount) h
  have hbranches : other.branchCount = cpu.branchCount := congrArg (·.predictor.predictionCount) h
  have hcorrect : other.correctBranchCount = cpu.correctBranchCount := congrArg (·.predictor.correctCount) h
  rw [report, report, hstatus, hpc, hexit, hcycles, hcommitted, hbranches, hcorrect]

/-- The machine of an earlier use, and its seed, make no difference. -/
theorem main_any (other cpu : Cpu) : main accuracy other input fuel = main accuracy cpu input fuel := by
  have hload : (other.load input).1 = (cpu.load input).1 := by rw [load_result, load_result]
  have hcore : ((other.load input).2.cycles fuel).core = ((cpu.load input).2.cycles fuel).core := by
    rw [core_run, core_run]
  by_cases hok : (cpu.load input).1.ok = true
  · rw [main_loaded hok, main_loaded (by rw [hload]; exact hok), runTo_eq, runTo_eq]
    have hstatus : ((other.load input).2.cycles fuel).status = ((cpu.load input).2.cycles fuel).status :=
      congrArg (·.status) hcore
    rw [hstatus]
    split
    · exact congrArg some (report_congr hcore)
    · rfl
  · rw [main_failed hok, main_failed (by rw [hload]; exact hok)]

theorem history_running (hok : (cpu.load input).1.ok = true) : (cpu.history input 0).status = .running := by
  rw [history_eq]
  exact if_pos hok

theorem main_prints (hs : ¬ ModifiesWithin ReorderBuffer.kCapacity (cpu.load input).2.memoryUnit.memory.bytes)
    {p : ProcessResult} (hok : (cpu.load input).1.ok = true) (hmain : main accuracy cpu input fuel = some p) :
    Prints accuracy cpu input p := by
  rw [main_loaded hok, runTo_eq] at hmain
  split at hmain
  · rename_i hstop
    obtain rfl := Option.some.inj hmain
    exact report_prints hs (history_running hok) hstop
  · cases hmain

/-- The program ends when the sequential run does. -/
theorem main_returns (hs : ¬ ModifiesWithin ReorderBuffer.kCapacity (cpu.load input).2.memoryUnit.memory.bytes)
    {steps : Nat} (hstop : Rv32i.run (cpu.load input).2.memoryUnit.memory.bytes steps = none) :
    ∃ p, ∀ fuel, cyclesPerCommit * steps ≤ fuel → main accuracy cpu input fuel = some p := by
  by_cases hok : (cpu.load input).1.ok = true
  · have hdone : ((cpu.load input).2.cycles (cyclesPerCommit * steps)).status ≠ .running :=
      stops_within (history_isRun cpu input) hs hstop
    refine ⟨report accuracy ((cpu.load input).2.cycles (cyclesPerCommit * steps)), fun fuel hle => ?_⟩
    obtain ⟨more, rfl⟩ := Nat.exists_eq_add_of_le hle
    have hsame : (cpu.load input).2.cycles (cyclesPerCommit * steps + more) =
        (cpu.load input).2.cycles (cyclesPerCommit * steps) := by
      rw [Nat.add_comm, cycles, Function.iterate_add_apply, ← cycles, ← cycles, cycles_of_stopped hdone]
    rw [main_loaded hok, runTo_eq, hsame, if_pos hdone]
    rfl
  · exact ⟨_, fun fuel _ => main_failed hok⟩

/-- What the program prints is what the sequential run of the loaded memory stops with, or
    the text of a data fault of the processor, whatever the seed; a text that does not load gets its own
    message. The program ends within 36 cycles for each step of that run. -/
theorem main_output (accuracy : CycleCount → CycleCount → String) (cpu : Cpu) (input : Istream)
    (hs : ¬ ModifiesWithin ReorderBuffer.kCapacity (cpu.load input).2.memoryUnit.memory.bytes) :
    (∀ fuel p, main accuracy cpu input fuel = some p →
      if (cpu.load input).1.ok then Prints accuracy cpu input p
      else p = { err := "failed to load memory image\n", exitCode := 1 }) ∧
    (∀ fuel other, main accuracy other input fuel = main accuracy cpu input fuel) ∧
    ∀ steps, Rv32i.run (cpu.load input).2.memoryUnit.memory.bytes steps = none →
      ∃ p, ∀ fuel, 36 * steps ≤ fuel → main accuracy cpu input fuel = some p := by
  refine ⟨fun fuel p hmain => ?_, fun fuel other => main_any other cpu, fun steps hstop => main_returns hs hstop⟩
  split
  · rename_i hok
    exact main_prints hs hok hmain
  · rename_i hok
    rw [main_failed hok] at hmain
    exact (Option.some.inj hmain).symm

theorem main_output_sample :
    ∃ p, main (fun _ _ => "0") (new fun _ => baseOrders) sampleImage 180 = some p ∧
      Prints (fun _ _ => "0") (new fun _ => baseOrders) sampleImage p := by
  have hstop : Rv32i.run (loaded sampleImage).memory.bytes 5 = none := by decide +kernel
  have hok : ((new fun _ => baseOrders).load sampleImage).1.ok = true := by decide +kernel
  obtain ⟨hprints, -, hreturns⟩ := main_output (fun _ _ => "0") (new fun _ => baseOrders) sampleImage
    (not_modifiesWithin sample_code _)
  obtain ⟨p, hp⟩ := hreturns 5 hstop
  have hmain := hp 180 (Nat.le_refl _)
  have hout := hprints 180 p hmain
  rw [if_pos hok] at hout
  exact ⟨p, hmain, hout⟩

end Cpu

end TomasuloCpu
