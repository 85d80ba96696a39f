/-
  TomasuloCpu.Tomasulo.InOrder — the live instructions against the sequential run.

  After `c` commits the entry at position `i` of the reorder buffer stands for step
  `c + i` of the sequential machine, as long as every pc up to it agrees (`OnPath`); behind
  a wrong prediction nothing is on the path. `Sim` says what holds of the instructions on
  the path: what they compute, what their operands stand for, and that the committed
  registers are the sequential ones.
-/
import TomasuloCpu.Spec.Rv32iProofs
import TomasuloCpu.Tomasulo.Datapath
import TomasuloCpu.Tomasulo.Stopping

namespace TomasuloCpu

open Keyed Rv32i

/-! ## The path -/

/-- `e`, at position `i`, is the instruction of step `c + i` of the sequential run, which
    is made from `m`, and the older entries are those of the steps before. -/
structure OnPath (memory : Nat → Byte) (c : Nat) (l : List RobEntry) (i : Nat) (e : RobEntry) (m : Machine) : Prop where
  entry : l[i]? = some e
  step : run memory (c + i) = some m
  pcs : ∀ j ≤ i, ∀ x y, l[j]? = some x → run memory (c + j) = some y → x.pc = y.pc

variable {memory : Nat → Byte} {c i : Nat} {l : List RobEntry} {e : RobEntry} {m : Machine}

theorem OnPath.pc (h : OnPath memory c l i e m) : e.pc = m.pc := h.pcs i (Nat.le_refl i) e m h.entry h.step

theorem OnPath.mem (h : OnPath memory c l i e m) : e ∈ l := List.mem_of_getElem? h.entry

/-- What is older than an instruction on the path is on the path. -/
theorem OnPath.older (h : OnPath memory c l i e m) {j : Nat} (hj : j ≤ i) : ∃ x y, OnPath memory c l j x y := by
  obtain ⟨hlt, -⟩ := List.getElem?_eq_some_iff.mp h.entry
  have hjl : j < l.length := Nat.lt_of_le_of_lt hj hlt
  obtain ⟨y, hy⟩ := run_of_le (Nat.add_le_add_left hj c) h.step
  exact ⟨l[j], y, List.getElem?_eq_getElem hjl, hy, fun k hk => h.pcs k (Nat.le_trans hk hj)⟩

theorem OnPath.unique {e' : RobEntry} {m' : Machine} (h : OnPath memory c l i e m) (h' : OnPath memory c l i e' m') :
    e = e' ∧ m = m' :=
  ⟨Option.some.inj (h.entry.symm.trans h'.entry), Option.some.inj (h.step.symm.trans h'.step)⟩

/-- `e` was decoded from the word the step fetches. -/
structure Fetched (m : Machine) (e : RobEntry) : Prop where
  op : e.op = m.instruction.op
  rd : e.rd = m.instruction.rd
  writes : e.writesRd = m.instruction.writesRd

/-- `e` is ready with what the step computes, and the step is made. -/
structure Done (m : Machine) (e : RobEntry) : Prop where
  next : ∃ m', m.next = some m' ∧ ((e.isBranch || e.isJump) = true → e.actualNextPc = m'.pc)
  value : e.writesRd = true → e.value = m.result m.instruction

/-- A result on its way to the bus is the step's, and the step is made. -/
structure Computes (m : Machine) (r : FuResult) : Prop where
  next : ∃ m', m.next = some m' ∧ (r.hasControlResult = true → r.actualNextPc = m'.pc)
  control : r.hasControlResult = (m.instruction.op.isBranch || m.instruction.op.isJump)
  result : r.result = m.result m.instruction

/-- The operand `x` of the instruction at position `i` has the value `v`, or waits for an
    older instruction on the path that computes it. -/
def Denotes (memory : Nat → Byte) (c : Nat) (l : List RobEntry) (i : Nat) (x : Operand) (v : Word) : Prop :=
  (x.ready = true ∧ x.value = v) ∨
    (x.ready = false ∧ ∃ j e m, j < i ∧ OnPath memory c l j e m ∧ e.tag = x.tag ∧ e.writesRd = true ∧ e.ready = false ∧
      m.result m.instruction = v)

structure StationOk (memory : Nat → Byte) (c : Nat) (l : List RobEntry) (i : Nat) (m : Machine) (x : RsEntry) : Prop where
  immediate : x.immediate = m.instruction.immediate
  pc : x.pc = m.pc
  lhs : Denotes memory c l i x.lhs
    (FunctionalUnit.selected m.instruction.op.lhsSource m.pc (m.read m.instruction.rs1) m.instruction.immediate)
  rhs : Denotes memory c l i x.rhs
    (FunctionalUnit.selected m.instruction.op.rhsSource m.pc (m.read m.instruction.rs2) m.instruction.immediate)

structure QueuedOk (memory : Nat → Byte) (c : Nat) (l : List RobEntry) (i : Nat) (m : Machine) (x : LsqEntry) : Prop where
  immediate : x.immediate = m.instruction.immediate
  base : Denotes memory c l i x.base (m.read m.instruction.rs1)
  data : x.type = .store → Denotes memory c l i x.storeData (m.read m.instruction.rs2)

namespace Core

/-- The pc of the entry at position `i`; behind the last one, the pc to fetch from. -/
def pcAt (s : Core) (i : Nat) : Address := ((s.rob.live[i]?).map (·.pc)).getD s.pc

/-- The machine after `c` commits follows the sequential run from `memory`. -/
structure Sim (memory : Nat → Byte) (c : Nat) (s : Core) : Prop where
  committed : ∃ m, run memory c = some m ∧ s.registers = m.registers ∧ s.pcAt 0 = m.pc
  chain : ∀ i e, s.rob.live[i]? = some e → s.pcAt (i + 1) = e.predictedNextPc
  predicted : ∀ e ∈ s.rob.live, (e.isBranch || e.isJump) = false → e.predictedNextPc = e.pc + 4
  fetched : ∀ i e m, OnPath memory c s.rob.live i e m → Fetched m e
  done : ∀ i e m, OnPath memory c s.rob.live i e m → e.ready = true → e.op ≠ .halt → Done m e
  fu : s.fu.valid = true → ∀ i e m, OnPath memory c s.rob.live i e m → e.tag = s.fu.tag → Computes m s.fu
  loaded : s.lsq.loadResult.valid = true → ∀ i e m, OnPath memory c s.rob.live i e m → e.tag = s.lsq.loadResult.tag →
    Computes m s.lsq.loadResult
  station : ∀ x ∈ s.rs.waiting, ∀ i e m, OnPath memory c s.rob.live i e m → e.tag = x.destination →
    StationOk memory c s.rob.live i m x
  queued : ∀ x ∈ s.lsq.queue, ∀ i e m, OnPath memory c s.rob.live i e m → e.tag = x.destination →
    QueuedOk memory c s.rob.live i m x

variable {s : Core}

theorem pcAt_entry {x : RobEntry} (hx : s.rob.live[i]? = some x) : s.pcAt i = x.pc := by
  rw [pcAt, hx]
  rfl

theorem pcAt_end (hl : s.rob.live.length ≤ i) : s.pcAt i = s.pc := by
  rw [pcAt, List.getElem?_eq_none hl]
  rfl

/-! ## Positions after a cycle -/

/-- How far the entries move up in the cycle. -/
def shift (s : Core) : Nat := if s.committing then 1 else 0

theorem shift_le (hw : s.rob.Wf) : s.shift ≤ s.rob.live.length := by
  unfold shift
  split
  · rename_i hc
    obtain ⟨x, hx, -⟩ := (committing_iff hw).mp hc
    obtain ⟨t, ht⟩ := List.head?_eq_some_iff.mp hx
    rw [ht]
    exact Nat.succ_pos _
  · exact Nat.zero_le _

theorem survivors_getElem? (hfl : s.flush = false) (i : Nat) :
    s.survivors[i]? = (s.rob.live[i + s.shift]?).map s.finish := by
  unfold survivors shift
  rw [if_neg (by simp [hfl])]
  split
  · rw [← List.map_tail, List.getElem?_map, List.getElem?_tail]
  · rw [List.getElem?_map, Nat.add_zero]

theorem length_survivors (hfl : s.flush = false) : s.survivors.length = s.rob.live.length - s.shift := by
  unfold survivors shift
  rw [if_neg (by simp [hfl])]
  split
  · rw [List.length_tail, List.length_map]
  · rw [List.length_map, Nat.sub_zero]

/-- Each entry of the next cycle is an old one moved up, or the issued one at the end. -/
theorem live_tick (hrun : s.status = .running) (hw : s.rob.Wf) (hfl : s.flush = false) (i : Nat) :
    s.tick.rob.live[i]? =
      ((s.rob.live[i + s.shift]?).map s.finish).or
        (if i + s.shift = s.rob.live.length then s.issuing.map s.issuedRob else none) := by
  have hle := shift_le hw
  rw [(tick_rob hrun hw).2, List.getElem?_append, length_survivors hfl, survivors_getElem? hfl]
  by_cases hi : i < s.rob.live.length - s.shift
  · rw [if_pos hi, if_neg (by omega), Option.or_none]
  · have hnone : s.rob.live[i + s.shift]? = none := List.getElem?_eq_none (by omega)
    rw [if_neg hi, hnone, Option.map_none, Option.none_or]
    unfold newRob
    by_cases he : i + s.shift = s.rob.live.length
    · rw [if_pos he, show i - (s.rob.live.length - s.shift) = 0 by omega]
      cases s.issuing <;> rfl
    · rw [if_neg he]
      refine List.getElem?_eq_none ?_
      have : (s.issuing.map s.issuedRob).toList.length ≤ 1 := by cases s.issuing <;> simp
      omega

/-- Where the entry at position `i` of the next cycle comes from. -/
theorem live_tick_cases (hrun : s.status = .running) (hw : s.rob.Wf) {i : Nat} {e : RobEntry}
    (he : s.tick.rob.live[i]? = some e) :
    s.flush = false ∧ ((∃ x, s.rob.live[i + s.shift]? = some x ∧ e = s.finish x) ∨
      (i + s.shift = s.rob.live.length ∧ ∃ d, s.issuing = some d ∧ e = s.issuedRob d)) := by
  by_cases hfl : s.flush = true
  · rw [live_flush hrun hw hfl] at he
    cases he
  · have hfl : s.flush = false := by simpa using hfl
    refine ⟨hfl, ?_⟩
    rw [live_tick hrun hw hfl] at he
    cases hx : s.rob.live[i + s.shift]? with
    | some x =>
      rw [hx] at he
      exact Or.inl ⟨x, rfl, (Option.some.inj he).symm⟩
    | none =>
      rw [hx, Option.map_none, Option.none_or] at he
      split at he
      · rename_i hlen
        obtain ⟨d, hd, rfl⟩ := Option.map_eq_some_iff.mp he
        exact Or.inr ⟨hlen, d, hd, rfl⟩
      · cases he

theorem live_tick_old (hrun : s.status = .running) (hw : s.rob.Wf) (hfl : s.flush = false) {i : Nat} {x : RobEntry}
    (hx : s.rob.live[i + s.shift]? = some x) : s.tick.rob.live[i]? = some (s.finish x) := by
  rw [live_tick hrun hw hfl, hx]
  rfl

theorem finish_pc (x : RobEntry) : (s.finish x).pc = x.pc := (ReorderBuffer.finish_frame _ _ x).2.1

/-- The head is the instruction of the next step to commit. -/
theorem Sim.head_pc (h : Sim memory c s) {x : RobEntry} {y : Machine} (hx : s.rob.live[0]? = some x)
    (hy : run memory c = some y) : x.pc = y.pc := by
  obtain ⟨m, hm, -, hpc⟩ := h.committed
  rw [← pcAt_entry hx, hpc, Option.some.inj (hm.symm.trans hy)]

theorem Sim.head (h : Sim memory c s) {e : RobEntry} (he : s.rob.live[0]? = some e) :
    ∃ m, OnPath memory c s.rob.live 0 e m := by
  obtain ⟨m, hm, -⟩ := h.committed
  refine ⟨m, he, hm, fun j hj x y hx hy => ?_⟩
  obtain rfl : j = 0 := Nat.le_zero.mp hj
  exact h.head_pc hx hy

/-- All live entries are on the path, and the next step of the sequential run fetches at
    the pc. -/
structure FetchOnPath (memory : Nat → Byte) (c : Nat) (s : Core) (m : Machine) : Prop where
  step : run memory (c + s.rob.live.length) = some m
  pc : s.pc = m.pc
  pcs : ∀ j x y, s.rob.live[j]? = some x → run memory (c + j) = some y → x.pc = y.pc

theorem FetchOnPath.entry (h : FetchOnPath memory c s m) {j : Nat} {x : RobEntry} (hx : s.rob.live[j]? = some x) :
    ∃ y, OnPath memory c s.rob.live j x y := by
  obtain ⟨hlt, -⟩ := List.getElem?_eq_some_iff.mp hx
  obtain ⟨y, hy⟩ := run_of_le (Nat.le_of_lt (Nat.add_lt_add_left hlt c)) h.step
  exact ⟨y, hx, hy, fun k _ => h.pcs k⟩

/-- An instruction on the path was on it in the cycle before, or is issued on it. -/
theorem onPath_back (h : Sim memory c s) (hrun : s.status = .running) (hw : s.rob.Wf) {i : Nat} {e : RobEntry}
    (hp : OnPath memory (c + s.shift) s.tick.rob.live i e m) :
    s.flush = false ∧ ((∃ x, OnPath memory c s.rob.live (i + s.shift) x m ∧ e = s.finish x) ∨
      (i + s.shift = s.rob.live.length ∧ ∃ d, s.issuing = some d ∧ e = s.issuedRob d ∧ FetchOnPath memory c s m)) := by
  obtain ⟨hfl, hcase⟩ := live_tick_cases hrun hw hp.entry
  have hstep : run memory (c + (i + s.shift)) = some m := by
    rw [← hp.step]
    congr 1
    omega
  -- the head is on the path whether or not it commits
  have hpcs : ∀ j ≤ i + s.shift, ∀ x y, s.rob.live[j]? = some x → run memory (c + j) = some y → x.pc = y.pc := by
    intro j hj x y hx hy
    by_cases hjs : s.shift ≤ j
    · obtain ⟨k, rfl⟩ := Nat.exists_eq_add_of_le' hjs
      rw [← finish_pc (s := s) x]
      refine hp.pcs k (by omega) _ y (live_tick_old hrun hw hfl hx) ?_
      rw [← hy]
      congr 1
      omega
    · have hj0 : j = 0 := by
        unfold shift at hjs
        split at hjs <;> omega
      subst hj0
      exact h.head_pc hx hy
  refine ⟨hfl, ?_⟩
  rcases hcase with ⟨x, hx, rfl⟩ | ⟨hlen, d, hd, rfl⟩
  · exact Or.inl ⟨x, ⟨hx, hstep, hpcs⟩, rfl⟩
  · refine Or.inr ⟨hlen, d, hd, rfl, hlen ▸ hstep, ?_, fun j x y hx => ?_⟩
    · rw [← hp.pc]
      exact (issuing_some hd).pc.symm
    · have := (List.getElem?_eq_some_iff.mp hx).1
      exact hpcs j (by omega) x y hx

/-- An instruction on the path stays on it, unless it commits or is flushed. -/
theorem onPath_tick (hrun : s.status = .running) (hw : s.rob.Wf) (hfl : s.flush = false) {i : Nat} {x : RobEntry}
    (hp : OnPath memory c s.rob.live (i + s.shift) x m) :
    OnPath memory (c + s.shift) s.tick.rob.live i (s.finish x) m := by
  refine ⟨live_tick_old hrun hw hfl hp.entry, ?_, fun j hj y z hy hz => ?_⟩
  · rw [← hp.step]
    congr 1
    omega
  · obtain ⟨-, ⟨w, hw', rfl⟩ | ⟨hlen, -⟩⟩ := live_tick_cases hrun hw hy
    · rw [finish_pc]
      refine hp.pcs _ (Nat.add_le_add_right hj _) w z hw' ?_
      rw [← hz]
      congr 1
      omega
    · have := (List.getElem?_eq_some_iff.mp hp.entry).1
      omega

end Core

end TomasuloCpu
