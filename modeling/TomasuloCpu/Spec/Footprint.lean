/-
  TomasuloCpu.Spec.Footprint — the bytes a sequential run looks at.

  A byte is in the footprint when some step reads it, as a part of its instruction or of what
  it loads, before any step has stored to it. Two memories that agree on the footprint of one
  of them have the same run, but for the bytes that neither run has touched (`run_alike`).
-/
import TomasuloCpu.Spec.Rv32iProofs

namespace TomasuloCpu.Rv32i

open Steps

namespace Machine

/-- The step loads the byte at `a`. -/
def Loads (m : Machine) (a : Nat) : Prop :=
  m.instruction.op.isLoad = true ∧ m.inBounds m.instruction = true ∧ (m.address m.instruction).toNat ≤ a ∧
    a < (m.address m.instruction).toNat + accessWidth m.instruction.op

def Reads (m : Machine) (a : Nat) : Prop := m.Fetches a ∨ m.Loads a

end Machine

/-- Some step reads what the memory held at `a` before the run. -/
def Footprint (memory : Nat → Byte) (a : Nat) : Prop :=
  ∃ k m, run memory k = some m ∧ m.Reads a ∧ ∀ j < k, ∀ x, run memory j = some x → ¬ x.Stores a

/-! ## Two machines that read the same -/

/-- Machines with the same pc and registers that hold the same where the step reads. -/
structure Machine.Alike (m m' : Machine) : Prop where
  pc : m'.pc = m.pc
  registers : m'.registers = m.registers
  reads : ∀ a, m.Reads a → m'.memory a = m.memory a

namespace Machine.Alike

variable {m m' u : Machine}

theorem read (h : Alike m m') (r : RegisterIndex) : m'.read r = m.read r := by
  rw [Machine.read, Machine.read, h.registers]

theorem fetch (h : Alike m m') : m'.fetch = m.fetch := by
  unfold Machine.fetch
  rw [h.pc]
  by_cases hpc : m.pc.toNat + 4 ≤ kMemorySize
  · rw [if_pos hpc, if_pos hpc, Option.some.injEq]
    refine LittleEndian.load_congr fun a ha hlt => h.reads a (Or.inl ⟨?_, ha, hlt⟩)
    rw [Machine.fetch, if_pos hpc]
    rfl
  · rw [if_neg hpc, if_neg hpc]

theorem instruction (h : Alike m m') : m'.instruction = m.instruction := by
  rw [Machine.instruction, Machine.instruction, h.fetch]

theorem address (h : Alike m m') (d : DecodedInstruction) : m'.address d = m.address d := by
  rw [Machine.address, Machine.address, h.read]

theorem inBounds (h : Alike m m') (d : DecodedInstruction) : m'.inBounds d = m.inBounds d := by
  rw [Machine.inBounds, Machine.inBounds, h.address]

/-- A step that is made by one is made by the other. -/
theorem next (h : Alike m m') (hn : m.next = some u) : m'.next = some (m'.execute m.instruction) := by
  obtain ⟨hvalid, hhalt, hmem, -⟩ := Machine.next_eq_some.mp hn
  refine Machine.next_eq_some.mpr ⟨?_, ?_, ?_, ?_⟩
  · rw [h.instruction]
    exact hvalid
  · rw [h.instruction]
    exact hhalt
  · rw [h.instruction, h.inBounds]
    exact hmem
  · rw [h.instruction]

/-- Where one stops, the other stops the same way. -/
theorem stops (h : Alike m m') (hn : m.next = none) : m'.step = m.step := by
  unfold Machine.next at hn
  unfold Machine.step at hn ⊢
  rw [h.fetch]
  cases hf : m.fetch with
  | none => rfl
  | some bits =>
    rw [hf] at hn
    simp only at hn ⊢
    rw [h.inBounds, h.read]
    by_cases h1 : (Decoder.decode bits).op = .invalid
    · rw [if_pos h1, if_pos h1]
    · rw [if_neg h1] at hn ⊢
      rw [if_neg h1]
      by_cases h2 : (Decoder.decode bits).op = .halt
      · rw [if_pos h2, if_pos h2]
      · rw [if_neg h2] at hn ⊢
        rw [if_neg h2]
        by_cases h3 : ((Decoder.decode bits).op.isMemory && !m.inBounds (Decoder.decode bits)) = true
        · rw [if_pos h3, if_pos h3]
        · rw [if_neg h3] at hn
          cases hn

/-- What the step loads is the same, so the registers stay the same. -/
theorem execute_registers (h : Alike m m') (hn : m.next = some u) :
    (m'.execute m.instruction).registers = u.registers := by
  obtain ⟨-, -, hmem, rfl⟩ := Machine.next_eq_some.mp hn
  have hresult : m'.result m.instruction = m.result m.instruction := by
    unfold Machine.result
    rw [h.pc, h.read, h.read, h.address]
    by_cases hl : m.instruction.op.isLoad = true
    · rw [if_pos hl, if_pos hl]
      congr 1
      refine LittleEndian.load_congr fun a ha hlt => h.reads a (Or.inr ⟨hl, hmem ?_, ha, hlt⟩)
      rw [Op.isMemory, hl]
      rfl
    · rw [if_neg hl, if_neg hl]
  unfold Machine.execute
  simp only [hresult, h.registers]

theorem execute_pc (h : Alike m m') (hn : m.next = some u) : (m'.execute m.instruction).pc = u.pc := by
  obtain ⟨-, -, -, rfl⟩ := Machine.next_eq_some.mp hn
  unfold Machine.execute
  rw [h.pc, h.read, h.read]

/-- The step stores the same bytes and leaves the others. -/
theorem execute_memory (h : Alike m m') (hn : m.next = some u) (a : Nat) :
    (m.Stores a ∧ (m'.execute m.instruction).memory a = u.memory a) ∨
      (¬ m.Stores a ∧ (m'.execute m.instruction).memory a = m'.memory a ∧ u.memory a = m.memory a) := by
  by_cases hs : m.Stores a
  · obtain ⟨-, -, -, rfl⟩ := Machine.next_eq_some.mp hn
    refine Or.inl ⟨hs, ?_⟩
    obtain ⟨hstore, hle, hlt⟩ := hs
    unfold Machine.execute
    simp only [hstore, if_true]
    rw [h.address, h.read, LittleEndian.store, LittleEndian.store, if_pos ⟨hle, hlt⟩, if_pos ⟨hle, hlt⟩]
  · have hs' : ¬ m'.Stores a := by
      rintro ⟨hstore, hle, hlt⟩
      rw [h.instruction] at hstore hle hlt
      rw [h.address] at hle hlt
      exact hs ⟨hstore, hle, hlt⟩
    exact Or.inr ⟨hs, Machine.next_memory_outside (h.next hn) hs', Machine.next_memory_outside hn hs⟩

end Machine.Alike

/-! ## Two runs -/

variable {memory memory' : Nat → Byte} {m m' : Machine} {k : Nat}

/-- After `k` steps: the same pc and registers, and bytes that are equal or that neither run
    has touched. -/
structure RunAlike (memory memory' : Nat → Byte) (k : Nat) (m m' : Machine) : Prop where
  pc : m'.pc = m.pc
  registers : m'.registers = m.registers
  memory : ∀ a, m'.memory a = m.memory a ∨
    (m.memory a = memory a ∧ m'.memory a = memory' a ∧ ∀ j < k, ∀ x, run memory j = some x → ¬ x.Stores a)

theorem RunAlike.alike (h : RunAlike memory memory' k m m') (hm : run memory k = some m)
    (hagree : ∀ a, Footprint memory a → memory' a = memory a) : m.Alike m' := by
  refine ⟨h.pc, h.registers, fun a ha => ?_⟩
  rcases h.memory a with heq | ⟨hown, hown', hno⟩
  · exact heq
  · rw [hown, hown', hagree a ⟨k, m, hm, ha, hno⟩]

theorem RunAlike.step (h : RunAlike memory memory' k m m') (hm : run memory k = some m)
    (hagree : ∀ a, Footprint memory a → memory' a = memory a) {u : Machine} (hn : m.next = some u) :
    RunAlike memory memory' (k + 1) u (m'.execute m.instruction) := by
  have halike := h.alike hm hagree
  refine ⟨halike.execute_pc hn, halike.execute_registers hn, fun a => ?_⟩
  rcases halike.execute_memory hn a with ⟨-, heq⟩ | ⟨hs, heq', heq⟩
  · exact Or.inl heq
  · rw [heq', heq]
    refine (h.memory a).imp_right fun ⟨hown, hown', hno⟩ => ⟨hown, hown', fun j hj x hx => ?_⟩
    rcases Nat.lt_succ_iff_lt_or_eq.mp hj with hj | rfl
    · exact hno j hj x hx
    · rw [Option.some.inj (hx.symm.trans hm)]
      exact hs

/-- A step of one run is a step of the other. -/
theorem run_alike (hagree : ∀ a, Footprint memory a → memory' a = memory a) (hm : run memory k = some m) :
    ∃ m', run memory' k = some m' ∧ RunAlike memory memory' k m m' := by
  induction k generalizing m with
  | zero =>
    obtain rfl := Option.some.inj hm
    refine ⟨start memory', rfl, rfl, rfl, fun a => Or.inr ⟨rfl, rfl, fun j hj => by omega⟩⟩
  | succ k ih =>
    obtain ⟨v, hv, hn⟩ := run_pred hm
    obtain ⟨v', hv', halike⟩ := ih hv
    have hnext := (halike.alike hv hagree).next hn
    exact ⟨_, (run_succ hv').trans hnext, halike.step hv hagree hn⟩

/-- And the other way: the run that shares the footprint makes no further step. -/
theorem run_alike_back (hagree : ∀ a, Footprint memory a → memory' a = memory a) (hm' : run memory' k = some m') :
    ∃ m, run memory k = some m ∧ RunAlike memory memory' k m m' := by
  have hrun : ∃ m, run memory k = some m := by
    induction k generalizing m' with
    | zero => exact ⟨start memory, rfl⟩
    | succ k ih =>
      obtain ⟨v', hv', hn'⟩ := run_pred hm'
      obtain ⟨v, hv⟩ := ih hv'
      obtain ⟨w', hw', halike⟩ := run_alike hagree hv
      obtain rfl := Option.some.inj (hv'.symm.trans hw')
      cases hn : v.next with
      | some u => exact ⟨u, (run_succ hv).trans hn⟩
      | none =>
        have hstep := (halike.alike hv hagree).stops hn
        rw [Machine.next, hstep] at hn'
        rw [Machine.next] at hn
        rw [hn] at hn'
        cases hn'
  obtain ⟨m, hm⟩ := hrun
  obtain ⟨w', hw', halike⟩ := run_alike hagree hm
  obtain rfl := Option.some.inj (hm'.symm.trans hw')
  exact ⟨m, hm, halike⟩

/-- Sharing the footprint of a run that does not modify its code shortly before. -/
theorem not_modifiesWithin_alike {distance : Nat} (hs : ¬ ModifiesWithin distance memory)
    (hagree : ∀ a, Footprint memory a → memory' a = memory a) : ¬ ModifiesWithin distance memory' := by
  rintro ⟨i, j, a, v', w', hlt, hnear, hv', hw', hstore, hfetch⟩
  obtain ⟨v, hv, hvalike⟩ := run_alike_back hagree hv'
  obtain ⟨w, hw, hwalike⟩ := run_alike_back hagree hw'
  have hva := hvalike.alike hv hagree
  have hwa := hwalike.alike hw hagree
  refine hs ⟨i, j, a, v, w, hlt, hnear, hv, hw, ?_, ?_⟩
  · rw [Machine.Stores, hva.instruction, hva.address] at hstore
    exact hstore
  · rw [Machine.Fetches, hwa.fetch, hwa.pc] at hfetch
    exact hfetch

end TomasuloCpu.Rv32i
