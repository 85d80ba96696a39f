/-
  TomasuloCpu.Spec.Rv32iProofs — what a step of the sequential machine does and leaves.

  `next_eq_some` says when a step is made, `next_read` and `next_memory` what it changes.
  Unless the code was modified shortly before, the word a step fetches was there for as
  long (`fetch_earlier`).
-/
import TomasuloCpu.Spec.Rv32i

namespace TomasuloCpu.Rv32i

open Steps

variable {memory : Nat → Byte} {m m' : Machine}

namespace Machine

theorem instruction_spec (m : Machine) : WellDecoded m.instruction := by
  unfold instruction
  cases m.fetch with
  | none => exact Decoder.wellDecoded_invalid
  | some bits => exact Decoder.decode_spec bits

theorem instruction_of_fetch {bits : InstructionBits} (h : m.fetch = some bits) :
    m.instruction = Decoder.decode bits := by
  rw [instruction, h]
  rfl

theorem fetch_of_valid (h : m.instruction.op ≠ .invalid) :
    ∃ bits, m.fetch = some bits ∧ m.instruction = Decoder.decode bits := by
  cases hf : m.fetch with
  | none => exact absurd (by rw [instruction, hf]; rfl) h
  | some bits => exact ⟨bits, rfl, instruction_of_fetch hf⟩

/-- The step is made exactly when the word is an instruction other than HALT and its data
    access, if it makes one, is inside the memory. -/
theorem next_eq_some : m.next = some m' ↔
    m.instruction.op ≠ .invalid ∧ m.instruction.op ≠ .halt ∧
      (m.instruction.op.isMemory = true → m.inBounds m.instruction = true) ∧ m' = m.execute m.instruction := by
  unfold next step
  cases hf : m.fetch with
  | none =>
    have hi : m.instruction.op = .invalid := by rw [instruction, hf]; rfl
    simp [hi]
  | some bits =>
    rw [instruction_of_fetch hf]
    simp only []
    by_cases h1 : (Decoder.decode bits).op = .invalid
    · simp [h1]
    · by_cases h2 : (Decoder.decode bits).op = .halt
      · simp [h2]
      · by_cases h3 : ((Decoder.decode bits).op.isMemory && !m.inBounds (Decoder.decode bits)) = true
        · have h3' := h3
          simp only [Bool.and_eq_true, Bool.not_eq_true'] at h3'
          rw [if_neg h1, if_neg h2, if_pos h3]
          simp [h3'.1, h3'.2]
        · rw [if_neg h1, if_neg h2, if_neg h3]
          simp only [Bool.and_eq_true, Bool.not_eq_true', not_and, Bool.not_eq_false] at h3
          simp only [Option.some.injEq]
          exact ⟨fun he => ⟨h1, h2, h3, he.symm⟩, fun he => he.2.2.2.symm⟩

theorem step_outOfBounds :
    m.step = .memoryOutOfBounds ↔ m.instruction.op.isMemory = true ∧ m.inBounds m.instruction = false := by
  constructor
  · intro h
    unfold step at h
    cases hf : m.fetch with
    | none => rw [hf] at h; cases h
    | some bits =>
      rw [hf] at h
      simp only at h
      rw [instruction_of_fetch hf]
      split at h
      · cases h
      · split at h
        · cases h
        · split at h
          · rename_i hc
            rw [Bool.and_eq_true, Bool.not_eq_true'] at hc
            exact hc
          · cases h
  · rintro ⟨hm, hb⟩
    have hne : m.instruction.op ≠ .invalid := by
      intro hc
      rw [hc] at hm
      cases hm
    have hnh : m.instruction.op ≠ .halt := by
      intro hc
      rw [hc] at hm
      cases hm
    obtain ⟨bits, hf, hi⟩ := fetch_of_valid hne
    rw [hi] at hm hb hne hnh
    unfold step
    rw [hf]
    simp only [if_neg hne, if_neg hnh, hm, hb, Bool.not_false, Bool.and_self, if_true]

theorem next_pc (h : m.next = some m') :
    m'.pc = target m.instruction.op m.pc (m.read m.instruction.rs1) (m.read m.instruction.rs2)
      m.instruction.immediate := by
  rw [(next_eq_some.mp h).2.2.2]
  rfl

theorem target_sequential {op : Op} (hb : op.isBranch = false) (hj : op.isJump = false) (pc a b immediate : Word) :
    target op pc a b immediate = pc + 4 := by
  cases op <;> first | rfl | exact absurd hb (by decide) | exact absurd hj (by decide)

theorem next_registers (h : m.next = some m') :
    m'.registers =
      if m.instruction.writesRd then Function.update m.registers m.instruction.rd (m.result m.instruction)
      else m.registers := by
  rw [(next_eq_some.mp h).2.2.2, (instruction_spec m).writes]
  rfl

/-- A step changes only its destination. -/
theorem next_read (h : m.next = some m') (r : RegisterIndex) :
    m'.read r =
      if m.instruction.writesRd = true ∧ m.instruction.rd = r then m.result m.instruction else m.read r := by
  have hw := (instruction_spec m).writes
  unfold read
  rw [next_registers h]
  by_cases hwr : m.instruction.writesRd = true
  · rw [hwr] at hw
    have hrd : m.instruction.rd ≠ 0 := by
      intro hc
      simp [hc] at hw
    by_cases hr : m.instruction.rd = r
    · rw [← hr]
      simp only [hwr, if_true, and_self, Function.update_self, if_neg hrd]
    · simp [hwr, hr, Function.update_of_ne (Ne.symm hr)]
  · simp [hwr]

theorem next_memory (h : m.next = some m') :
    m'.memory =
      if m.instruction.op.isStore then
        LittleEndian.store m.memory (m.address m.instruction).toNat (accessWidth m.instruction.op)
          (m.read m.instruction.rs2)
      else m.memory := by
  rw [(next_eq_some.mp h).2.2.2]
  rfl

theorem next_memory_outside (h : m.next = some m') {a : Nat} (ha : ¬ m.Stores a) : m'.memory a = m.memory a := by
  rw [next_memory h]
  split
  · rename_i hst
    refine LittleEndian.store_outside _ ?_
    by_contra hc
    exact ha ⟨hst, by omega, by omega⟩
  · rfl

end Machine

/-! ## Runs -/

theorem run_succ {n : Nat} (h : run memory n = some m) : run memory (n + 1) = m.next := after_succ h

theorem run_pred {n : Nat} (h : run memory (n + 1) = some m') : ∃ m, run memory n = some m ∧ m.next = some m' :=
  after_pred h

theorem run_of_le {j k : Nat} (hle : j ≤ k) (h : run memory k = some m) : ∃ m', run memory j = some m' :=
  after_of_le hle h

/-- x0 is never written. -/
theorem run_zero {n : Nat} (h : run memory n = some m) : m.registers 0 = 0 := by
  refine after_invariant (P := fun m : Machine => m.registers 0 = 0) rfl ?_ h
  intro t u ht hn
  rw [Machine.next_registers hn]
  split
  · rename_i hw
    rw [(Machine.instruction_spec t).writes] at hw
    have hrd : t.instruction.rd ≠ 0 := by
      intro hc
      simp [hc] at hw
    rw [Function.update_of_ne (Ne.symm hrd)]
    exact ht
  · exact ht

/-- No instruction names a register above x31. -/
theorem run_outside {n : Nat} (h : run memory n = some m) {r : RegisterIndex} (hr : kRegisterCount ≤ r.toNat) :
    m.registers r = 0 := by
  refine after_invariant (P := fun m : Machine => m.registers r = 0) rfl ?_ h
  intro t u ht hn
  rw [Machine.next_registers hn]
  split
  · have hrd : r ≠ t.instruction.rd := by
      intro hc
      have := (Machine.instruction_spec t).rd_lt
      rw [← hc] at this
      exact absurd hr (Nat.not_le.mpr this)
    rw [Function.update_of_ne hrd]
    exact ht
  · exact ht

theorem read_eq {n : Nat} (h : run memory n = some m) (r : RegisterIndex) : m.read r = m.registers r := by
  unfold Machine.read
  split
  · rename_i hr
    rw [hr, run_zero h]
  · rfl

/-- A register that no step from `j` to `k` writes keeps its value. -/
theorem read_frame {j k : Nat} (hle : j ≤ k) (hj : run memory j = some m) (hk : run memory k = some m')
    {r : RegisterIndex}
    (hf : ∀ i v, j ≤ i → i < k → run memory i = some v → ¬ (v.instruction.writesRd = true ∧ v.instruction.rd = r)) :
    m'.read r = m.read r := by
  refine after_frame (f := fun m : Machine => m.read r) hle hj hk fun i v w hi hik hv hn => ?_
  show w.read r = v.read r
  rw [Machine.next_read hn, if_neg (hf i v hi hik hv)]

/-- The memory that no step from `j` to `k` stores to keeps its bytes. -/
theorem memory_frame {j k : Nat} (hle : j ≤ k) (hj : run memory j = some m) (hk : run memory k = some m')
    (hf : ∀ i v, j ≤ i → i < k → run memory i = some v → v.instruction.op.isStore = false) : m'.memory = m.memory := by
  refine after_frame (f := Machine.memory) hle hj hk fun i v w hi hik hv hn => ?_
  rw [Machine.next_memory hn, if_neg (by simp [hf i v hi hik hv])]

theorem not_modifiesWithin (hs : ¬ SelfModifying memory) (distance : Nat) : ¬ ModifiesWithin distance memory := by
  rintro ⟨i, j, a, m, m', hlt, -, hrest⟩
  exact hs ⟨i, j, a, m, m', hlt, hrest⟩

/-- The word a step fetches was in the memory at the steps not too far before. -/
theorem fetch_earlier {distance : Nat} (hs : ¬ ModifiesWithin distance memory) {j k : Nat} (hle : j ≤ k)
    (hnear : k ≤ j + distance) (hj : run memory j = some m) (hk : run memory k = some m')
    (hf : m'.pc.toNat + 4 ≤ kMemorySize) :
    m'.fetch = some (LittleEndian.load m.memory m'.pc.toNat 4) := by
  rw [Machine.fetch, if_pos hf, Option.some.injEq]
  refine LittleEndian.load_congr fun a ha hlt => ?_
  refine after_frame (f := fun m : Machine => m.memory a) hle hj hk fun i v w hi hik hv hn => ?_
  refine Machine.next_memory_outside hn fun hst =>
    hs ⟨i, k, a, v, m', hik, by omega, hv, hk, hst, ?_, ha, hlt⟩
  rw [Machine.fetch, if_pos hf]
  rfl

/-- A check by computation: the run stops within `n` steps, and `p` holds before each. -/
def everyStep (memory : Nat → Byte) (n : Nat) (p : Machine → Bool) : Bool :=
  (run memory n).isNone && (List.range n).all fun i => (run memory i).all p

theorem everyStep_spec {n i : Nat} {p : Machine → Bool} (h : everyStep memory n p = true) (hm : run memory i = some m) :
    p m = true := by
  simp only [everyStep, Bool.and_eq_true, Option.isNone_iff_eq_none, List.all_eq_true, List.mem_range] at h
  have hlt : i < n := by
    by_contra hc
    obtain ⟨y, hy⟩ := run_of_le (Nat.le_of_not_lt hc) hm
    rw [h.1] at hy
    cases hy
  have hi := h.2 i hlt
  rw [hm] at hi
  exact hi

/-- The step fetches below `bound`, and stores at or above it if it is a store. -/
def codeBelow (bound : Nat) (m : Machine) : Bool :=
  decide (m.pc.toNat + 4 ≤ bound) && (!m.instruction.op.isStore || decide (bound ≤ (m.address m.instruction).toNat))

theorem not_selfModifying {n bound : Nat} (h : everyStep memory n (codeBelow bound) = true) :
    ¬ SelfModifying memory := by
  have hstep : ∀ {i m}, run memory i = some m → m.pc.toNat + 4 ≤ bound ∧
      (m.instruction.op.isStore = true → bound ≤ (m.address m.instruction).toNat) := by
    intro i m hm
    have hi := everyStep_spec h hm
    rw [codeBelow, Bool.and_eq_true, decide_eq_true_eq] at hi
    refine ⟨hi.1, fun hst => ?_⟩
    simpa [hst] using hi.2
  rintro ⟨i, j, a, m, m', -, hm, hm', ⟨hst, hlow, -⟩, -, -, hhigh⟩
  have h1 := (hstep hm).2 hst
  have h2 := (hstep hm').1
  omega

end TomasuloCpu.Rv32i
