/-
  TomasuloCpu.Tomasulo.Reload — a load forgets the program before it.

  Only the order tables outlive a load, and no operation writes them (`cycle_orders`,
  `BuiltWith.orders_eq`). So a load on a machine in any state leaves the object, current
  and next halves alike, that it leaves on the machine the constructor makes of the same
  tables (`load_eq`), and everything a caller can see of the two agrees from then on.
-/
import TomasuloCpu.Tomasulo.Reachable

namespace TomasuloCpu

namespace Cpu

/-! ## The order tables stay -/

/-- The machines the public operations lead to from the one built with `orders`. -/
inductive BuiltWith (orders : ExecutionOrders) : Cpu → Prop where
  | new : BuiltWith orders (new orders)
  | load {cpu : Cpu} (h : BuiltWith orders cpu) (input : Istream) : BuiltWith orders (cpu.load input).2
  | cycle {cpu : Cpu} (h : BuiltWith orders cpu) : BuiltWith orders cpu.cycle

variable {orders : ExecutionOrders} {cpu : Cpu}

theorem BuiltWith.reachable (h : BuiltWith orders cpu) : Reachable cpu := by
  induction h with
  | new => exact .new orders
  | load h input ih => exact ih.load input
  | cycle h ih => exact ih.cycle

theorem BuiltWith.cycles (h : BuiltWith orders cpu) (n : Nat) : BuiltWith orders (cpu.cycles n) := by
  induction n with
  | zero => exact h
  | succ n ih =>
    rw [Cpu.cycles, Function.iterate_succ_apply']
    exact ih.cycle

theorem cycleWith_orders (order : ModuleOrders) (cpu : Cpu) : (cpu.cycleWith order).orders = cpu.orders := by
  rw [cycleWith_base, cycleWith]
  split
  · rfl
  · simp only [applied, foldl_planStep]
    rw [show baseOrders.apply = baseApply from rfl, show baseOrders.latch = baseLatch from rfl, foldl_baseApply,
      foldl_baseLatch]
    rfl

theorem cycle_orders (cpu : Cpu) : cpu.cycle.orders = cpu.orders := cycleWith_orders _ cpu

theorem BuiltWith.orders_eq (h : BuiltWith orders cpu) : cpu.orders = orders := by
  induction h with
  | new => rfl
  | load h input ih => exact ih
  | cycle h ih => rw [cycle_orders, ih]

/-! ## The rest is overwritten -/

/-- A load reads nothing of the machine but its order tables. -/
theorem load_eq (cpu : Cpu) (input : Istream) : cpu.load input = (new cpu.orders).load input := rfl

theorem core_status (cpu : Cpu) : cpu.core.status = cpu.status := rfl

/-- No accessor, no memory byte and no further run tells the two machines apart. -/
structure Indistinguishable (a b : Cpu) : Prop where
  status : a.status = b.status
  pc : a.currentPc = b.currentPc
  exitCode : a.exitCode = b.exitCode
  cycleCount : a.cycleCount = b.cycleCount
  committedCount : a.committedCount = b.committedCount
  branchCount : a.branchCount = b.branchCount
  correctBranchCount : a.correctBranchCount = b.correctBranchCount
  registers : ∀ r, a.registerValue r = b.registerValue r
  memory : ∀ address, a.memoryUnit.memory.bytes address = b.memoryUnit.memory.bytes address
  run : ∀ fuel, a.run fuel = b.run fuel

theorem Indistinguishable.of_eq {a b : Cpu} (h : a = b) : Indistinguishable a b := by
  subst h
  exact ⟨rfl, rfl, rfl, rfl, rfl, rfl, rfl, fun _ => rfl, fun _ => rfl, fun _ => rfl⟩

/-- Whatever a machine ran before, and wherever that left it, a load makes it the machine
    that was just built and loaded with the same text. -/
theorem reload_isolation (h : BuiltWith orders cpu) (input : Istream) :
    (cpu.load input).1 = ((new orders).load input).1 ∧
      ∀ n, Indistinguishable ((cpu.load input).2.cycles n) (((new orders).load input).2.cycles n) := by
  have hload : cpu.load input = (new orders).load input := by rw [load_eq, h.orders_eq]
  refine ⟨congrArg Prod.fst hload, fun n => .of_eq ?_⟩
  rw [hload]

/-- Nine cycles into the sample the store is on its way to memory. -/
theorem reload_isolation_sample :
    (sample 9).core.port.transaction.valid = true ∧ (sample 9).status = .running ∧
      ∀ n, Indistinguishable (((sample 9).load sampleImage).2.cycles n)
        (((new fun _ => baseOrders).load sampleImage).2.cycles n) := by
  have hmid : ((Core.loaded sampleImage).after 9).port.transaction.valid = true ∧
      ((Core.loaded sampleImage).after 9).status = .running := by decide +kernel
  have hbuilt : BuiltWith (fun _ => baseOrders) (sample 9) := (BuiltWith.new.load sampleImage).cycles 9
  refine ⟨?_, ?_, (reload_isolation hbuilt sampleImage).2⟩
  · rw [sample_core]
    exact hmid.1
  · rw [← core_status, sample_core]
    exact hmid.2

end Cpu

end TomasuloCpu
