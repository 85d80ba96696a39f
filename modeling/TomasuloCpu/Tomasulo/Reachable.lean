/-
  TomasuloCpu.Tomasulo.Reachable — the invariant holds of every reachable machine.

  A machine is reached from a constructed one by loads and cycles. What a load leaves
  depends on the image alone (`core_load`), so every reachable machine shows either the
  constructed state or a state some number of cycles after a load (`reachable_core`).
-/
import TomasuloCpu.Tomasulo.OrderIndependence
import TomasuloCpu.Tomasulo.Renaming

namespace TomasuloCpu

open Keyed

namespace Core

/-- Every module reset over a memory image. -/
def reset (memory : MemoryImage) (status : Status) : Core :=
  { memory := memory, port := {}, registers := fun _ => 0, rat := RenameTable.invalidate
    rob := ReorderBuffer.resetState, rs := ReservationStation.resetState, lsq := LoadStoreQueue.resetState
    fu := {}, preferLoad := false, predictor := BranchPredictor.resetState, pc := 0, fetchStopped := false
    status := status, cycleCount := 0, committedCount := 0, exitCode := 0 }

/-- The machine a load of `input` leaves. -/
def loaded (input : Istream) : Core :=
  reset (MemoryImage.load input).2 (if (MemoryImage.load input).1.ok then .running else .loadError)

theorem reset_empty (memory : MemoryImage) (status : Status) :
    (reset memory status).rob.live = [] ∧ (reset memory status).rs.waiting = [] ∧
      (reset memory status).lsq.queue = [] ∧ (reset memory status).lsq.loadResult = {} ∧
      (reset memory status).fu = {} :=
  ⟨rfl, ReservationStation.resetState_waiting, rfl, rfl, rfl⟩

/-- The same with other contents of the predictor's table. -/
def loadedWith (counters : Nat → BitVec 8) (input : Istream) : Core :=
  { loaded input with predictor := ⟨counters, 0, 0⟩ }

theorem loadedWith_live (counters : Nat → BitVec 8) (input : Istream) : (loadedWith counters input).rob.live = [] := by
  show (loaded input).rob.live = []
  rw [loaded, (reset_empty _ _).1]

/-- Nothing is in flight after a reset, whatever the predictor holds. -/
theorem reset_inv (memory : MemoryImage) (status : Status) (predictor : PredictorState) :
    Inv { reset memory status with predictor := predictor } := by
  obtain ⟨hl, hw, hq, hr, hf⟩ := reset_empty memory status
  have hp : (reset memory status).port = {} := rfl
  have hport : PortOk { reset memory status with predictor := predictor } := by
    refine ⟨fun hv => ?_, fun hv => ?_, fun t r hs => ?_, fun hv => ?_, fun hv => ?_, fun t hs => ?_, fun _ e he => ?_⟩
    · rw [hp] at hv; cases hv
    · rw [hp] at hv; cases hv
    · rw [hp, pending_resting rfl] at hs; cases hs
    · rw [hp] at hv; cases hv
    · rw [hp] at hv; cases hv
    · rw [hp] at hs; simp [DataPort.storing] at hs
    · rw [hq] at he; cases he
  refine ⟨ReorderBuffer.resetState_wf, LoadStoreQueue.resetState_wf, ?_, ?_, ?_, ?_, ?_, ?_, ?_, ?_, ?_, hport, ?_, ?_, ?_, ?_⟩
  · rw [hl]; exact List.forall_mem_nil _
  · rw [hl, hw, hf]; exact .refl _
  · rw [hl, hq, hr]; rfl
  · rw [hw]; exact List.forall_mem_nil _
  · rw [hq]; exact List.forall_mem_nil _
  · rw [hr]; intro hv; cases hv
  · rw [hq]; exact List.forall_mem_nil _
  · rw [hq]; exact List.forall_mem_nil _
  · rw [hq]; exact List.forall_mem_nil _
  · rw [hl]; exact List.forall_mem_nil _
  · rw [hl]; exact fun _ => rfl
  · rw [hw]; exact List.forall_mem_nil _
  · rw [hq]; exact List.forall_mem_nil _

/-- One cycle keeps the invariant. -/
theorem Inv.tick {s : Core} (h : Inv s) : Inv s.tick := by
  by_cases hrun : s.status = .running
  · exact
      { rob := (tick_rob hrun h.rob).1
        lsq := lsq_wf_tick h hrun
        entry := entry_tick h hrun
        alu := alu_tick h hrun
        mem := mem_tick h hrun
        rsOp := rsOp_tick h hrun
        lsqOp := lsqOp_tick h hrun
        loaded := loaded_tick h hrun
        access := access_tick h hrun
        sentHead := sentHead_tick h hrun
        sentLoad := sentLoad_tick h hrun
        port := port_tick h hrun
        storeHead := storeHead_tick h hrun
        rat := rat_tick h hrun
        rsOperands := rsOperands_tick h hrun
        lsqOperands := lsqOperands_tick h hrun }
  · rw [tick_of_stopped hrun]
    exact h

theorem after_succ (s : Core) (n : Nat) : s.after (n + 1) = (s.after n).tick := Function.iterate_succ_apply' tick n s

theorem inv_after {s : Core} (h : Inv s) (n : Nat) : Inv (s.after n) := by
  induction n with
  | zero => exact h
  | succ n ih => rw [after_succ]; exact ih.tick

end Core

namespace Cpu

/-- The machines the public operations lead to. -/
inductive Reachable : Cpu → Prop where
  | new (orders : ExecutionOrders) : Reachable (new orders)
  | load {cpu : Cpu} (h : Reachable cpu) (input : Istream) : Reachable (cpu.load input).2
  | cycle {cpu : Cpu} (h : Reachable cpu) : Reachable cpu.cycle

theorem load_result (cpu : Cpu) (input : Istream) : (cpu.load input).1 = (MemoryImage.load input).1 := rfl

theorem load_memory (cpu : Cpu) (input : Istream) :
    (cpu.load input).2.memoryUnit.memory = (Core.loaded input).memory := rfl

theorem core_load (cpu : Cpu) (input : Istream) : (cpu.load input).2.core = Core.loaded input := rfl

/-- The states of a run from a load. -/
theorem core_run (cpu : Cpu) (input : Istream) (n : Nat) :
    ((cpu.load input).2.cycles n).core = (Core.loaded input).after n := by rw [core_cycles, core_load]

theorem reachable_core {cpu : Cpu} (h : Reachable cpu) :
    cpu.core = Core.reset .clear .notLoaded ∨ ∃ input n, cpu.core = (Core.loaded input).after n := by
  induction h with
  | new orders => exact Or.inl rfl
  | load h input ih => exact Or.inr ⟨input, 0, rfl⟩
  | cycle h ih =>
    rw [core_cycle]
    rcases ih with ih | ⟨input, n, ih⟩
    · rw [ih]
      exact Or.inl (Core.tick_of_stopped (by decide))
    · rw [ih]
      exact Or.inr ⟨input, n + 1, (Core.after_succ _ n).symm⟩

theorem Reachable.inv {cpu : Cpu} (h : Reachable cpu) : cpu.core.Inv := by
  induction h with
  | new orders => exact Core.reset_inv _ _ _
  | load h input ih => exact Core.reset_inv _ _ _
  | cycle h ih => rw [core_cycle]; exact ih.tick

theorem Reachable.cycles {cpu : Cpu} (h : Reachable cpu) (n : Nat) : Reachable (cpu.cycles n) := by
  induction n with
  | zero => exact h
  | succ n ih =>
    rw [Cpu.cycles, Function.iterate_succ_apply']
    exact ih.cycle

/-- `addi x1, x0, 5`, `add x2, x1, x1`, `sw x2, 64(x0)`, `lw x3, 64(x0)`, HALT. -/
def sampleImage : Istream := { text := "@0 93 00 50 00 33 81 10 00 23 20 20 04 83 21 00 04 13 05 f0 0f".toList }

/-- The sample program after `n` cycles. -/
def sample (n : Nat) : Cpu := ((new fun _ => baseOrders).load sampleImage).2.cycles n

theorem sample_reachable (n : Nat) : Reachable (sample n) := ((Reachable.new _).load sampleImage).cycles n

theorem sample_core (n : Nat) : (sample n).core = (Core.loaded sampleImage).after n := core_run _ _ n

end Cpu

end TomasuloCpu
