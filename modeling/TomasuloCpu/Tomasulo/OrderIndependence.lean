/-
  TomasuloCpu.Tomasulo.OrderIndependence — the module orders of a cycle do not matter.

  Within a phase every two module calls commute: a `plan` writes its own output, an
  `apply` its own next registers, a latch its own current ones, and none reads what
  another of its phase writes. A fold over commuting calls does not depend on the order
  (`List.Perm.foldl_eq'`), so each phase equals the phase in the base order, and the
  cycle on the base order is `Core.tick` on the current half.
-/
import TomasuloCpu.Tomasulo.Cpu
import Mathlib.Data.List.Perm.Basic

namespace TomasuloCpu

open TomasuloCpu.Core

/-! ## Calls of one phase commute -/

theorem planStep_comm (s : Core) (o : Observed) (p : Plans) (x y : PlanModule) :
    planStep s o (planStep s o p x) y = planStep s o (planStep s o p y) x := by
  cases x <;> cases y <;> rfl

namespace Cpu

theorem applyStep_comm (s : Core) (o : Observed) (p : Plans) (a : Applying) (x y : ApplyModule) :
    applyStep s o p (applyStep s o p a x) y = applyStep s o p (applyStep s o p a y) x := by
  cases x <;> cases y <;> rfl

theorem latchStep_comm (cpu : Cpu) (x y : LatchModule) :
    latchStep (latchStep cpu x) y = latchStep (latchStep cpu y) x := by
  cases x <;> cases y <;> rfl

/-! ## Each phase equals its base order -/

theorem foldl_planStep (order : ModuleOrders) (s : Core) (o : Observed) :
    order.plan.foldl (planStep s o) {} = s.plans o :=
  order.plan_perm.foldl_eq' (fun x _ y _ p => planStep_comm s o p x y) {}

theorem foldl_applyStep (order : ModuleOrders) (s : Core) (o : Observed) (p : Plans) (a : Applying) :
    order.apply.foldl (applyStep s o p) a = baseApply.foldl (applyStep s o p) a :=
  order.apply_perm.foldl_eq' (fun x _ y _ a => applyStep_comm s o p a x y) a

theorem foldl_latchStep (order : ModuleOrders) (cpu : Cpu) :
    order.latch.foldl latchStep cpu = baseLatch.foldl latchStep cpu :=
  order.latch_perm.foldl_eq' (fun x _ y _ c => latchStep_comm c x y) cpu

def baseOrders : ModuleOrders := ⟨basePlan, baseApply, baseLatch, .refl _, .refl _, .refl _⟩

theorem applied_base (order : ModuleOrders) (cpu : Cpu) : cpu.applied order = cpu.applied baseOrders := by
  simp only [applied, foldl_planStep, foldl_applyStep order, foldl_applyStep baseOrders]

theorem cycleWith_base (order : ModuleOrders) (cpu : Cpu) : cpu.cycleWith order = cpu.cycleWith baseOrders := by
  simp only [cycleWith, applied_base order, foldl_latchStep order, foldl_latchStep baseOrders]

/-! ## The base order is the edge -/

/-- The machine after phase C in the base order: every `next` half is its module's step
    on the current half. -/
def appliedBase (s : Core) (o : Observed) (p : Plans) (cpu : Cpu) : Cpu :=
  { cpu with
    commonDataBus := cpu.commonDataBus.apply o.cdb
    rob := (ReorderBuffer.apply cpu.rob (robInputs o p) p.rob).2
    reservationStation := (ReservationStation.apply cpu.reservationStation (s.rsInputs o p) p.rs).2
    loadStoreQueue := (LoadStoreQueue.apply cpu.loadStoreQueue (lsqInputs o p) p.lsq).2
    functionalUnit :=
      (FunctionalUnit.apply cpu.functionalUnit p.rs.outputs.dispatch o.preview.flush o.cdb.outputs.integerGranted).2
    registerFile := cpu.registerFile.apply (registerWrite p)
    renameTable := RenameTable.apply cpu.renameTable (ratWrite p) (ratCommit p) p.rob.outputs.flush
    branchPredictor := BranchPredictor.apply cpu.branchPredictor (predictorUpdate p)
    memoryUnit := (cpu.memoryUnit.apply p.lsq.outputs.memoryRequest).2 }

theorem foldl_baseApply (s : Core) (o : Observed) (p : Plans) (cpu : Cpu) :
    (baseApply.foldl (applyStep s o p) { cpu := cpu }).cpu = appliedBase s o p cpu := by
  simp only [baseApply, List.foldl_cons, List.foldl_nil, applyStep, appliedBase]

/-- The machine after every latch of phase D. -/
def latchedBase (cpu : Cpu) : Cpu :=
  { cpu with
    registerFile := cpu.registerFile.latch
    renameTable := RenameTable.latch cpu.renameTable
    rob := Clocked.latch cpu.rob
    reservationStation := Clocked.latch cpu.reservationStation
    loadStoreQueue := Clocked.latch cpu.loadStoreQueue
    functionalUnit := Clocked.latch cpu.functionalUnit
    commonDataBus := Clocked.latch cpu.commonDataBus
    memoryUnit := cpu.memoryUnit.latch
    branchPredictor := Clocked.latch cpu.branchPredictor }

theorem foldl_baseLatch (cpu : Cpu) : baseLatch.foldl latchStep cpu = latchedBase cpu := by
  simp only [baseLatch, List.foldl_cons, List.foldl_nil, latchStep, latchedBase]

theorem core_cycleWith (order : ModuleOrders) (cpu : Cpu) : (cpu.cycleWith order).core = cpu.core.tick := by
  by_cases h : cpu.status = .running
  · have h' : cpu.core.status = .running := h
    rw [cycleWith, if_neg (not_not.mpr h), tick, if_neg (not_not.mpr h')]
    simp only [applied, foldl_planStep, foldl_applyStep order, foldl_latchStep order, foldl_baseApply, foldl_baseLatch]
    generalize cpu.core.observe = o
    generalize cpu.core.plans o = p
    rfl
  · have h' : cpu.core.status ≠ .running := h
    rw [cycleWith, if_pos h, tick, if_pos h']

theorem core_cycle (cpu : Cpu) : cpu.cycle.core = cpu.core.tick := core_cycleWith _ _

/-- Every run of the machine is the run of `tick` on its current half. -/
theorem core_cycles (cpu : Cpu) (n : Nat) : (cpu.cycles n).core = cpu.core.after n := by
  induction n with
  | zero => rfl
  | succ n ih => rw [cycles, Core.after, Function.iterate_succ_apply', Function.iterate_succ_apply', core_cycle]
                 exact congrArg tick ih

/-- `n` cycles with a fresh choice of the three orders in each. -/
def cyclesWith (choice : Nat → ModuleOrders) (cpu : Cpu) : Nat → Cpu
  | 0 => cpu
  | n + 1 => (cpu.cyclesWith choice n).cycleWith (choice n)

theorem cyclesWith_base (choice : Nat → ModuleOrders) (cpu : Cpu) (n : Nat) :
    cpu.cyclesWith choice n = cpu.cyclesWith (fun _ => baseOrders) n := by
  induction n with
  | zero => rfl
  | succ n ih => rw [cyclesWith, cyclesWith, ih, cycleWith_base]

/-- From any state, the whole object after a cycle is the same for any choice of the
    three orders, and so after any number of cycles with a fresh choice in each; two
    machines with any two seeds, fed one image, agree after every number of cycles in
    all but their order tables. -/
theorem module_order_independence :
    (∀ (cpu : Cpu) (a b : ModuleOrders), cpu.cycleWith a = cpu.cycleWith b) ∧
      (∀ (cpu : Cpu) (f g : Nat → ModuleOrders) (n : Nat), cpu.cyclesWith f n = cpu.cyclesWith g n) ∧
      ∀ (seeded₁ seeded₂ : ExecutionOrders) (input : Istream) (n : Nat),
        ((new seeded₁).load input).1 = ((new seeded₂).load input).1 ∧
          (((new seeded₁).load input).2.cycles n).core = (((new seeded₂).load input).2.cycles n).core := by
  refine ⟨fun cpu a b => ?_, fun cpu f g n => ?_, fun seeded₁ seeded₂ input n => ⟨rfl, ?_⟩⟩
  · rw [cycleWith_base a, cycleWith_base b]
  · rw [cyclesWith_base f, cyclesWith_base g]
  · rw [core_cycles, core_cycles]
    rfl

end Cpu

end TomasuloCpu
