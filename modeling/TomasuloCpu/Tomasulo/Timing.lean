/-
  TomasuloCpu.Tomasulo.Timing — prediction decides when an instruction commits, not what.

  All that an entry records by its commit is a function of its step of the sequential run
  (`Recorded`, `committed_record`). So the commit logs of two runs over one image, whatever
  the two predictors hold, are beginnings of one sequence (`log_record`), and two runs that
  reach HALT end in one state.
-/
import TomasuloCpu.Tomasulo.Refinement
import TomasuloCpu.Tomasulo.Statistics

namespace TomasuloCpu

open Keyed Rv32i

/-- What a commit shows of its instruction. -/
structure CommitRecord where
  pc : Address
  op : Op
  rd : RegisterIndex
  value : Word
  branchTaken : Bool
  actualNextPc : Address
  deriving DecidableEq, Repr

def RobEntry.record (e : RobEntry) : CommitRecord :=
  { pc := e.pc, op := e.op, rd := e.rd, value := e.value, branchTaken := e.branchTaken, actualNextPc := e.actualNextPc }

namespace Rv32i.Machine

/-- The step does not continue behind its instruction by default. -/
def transfers (m : Machine) : Bool :=
  m.instruction.op.isJump || taken m.instruction.op (m.read m.instruction.rs1) (m.read m.instruction.rs2)

/-- Where a branch or jump continues; 0 for the other instructions. -/
def controlTarget (m : Machine) : Address :=
  if m.instruction.op.isBranch || m.instruction.op.isJump then
    target m.instruction.op m.pc (m.read m.instruction.rs1) (m.read m.instruction.rs2) m.instruction.immediate
  else 0

/-- What the commit of the step's instruction shows. -/
def record (m : Machine) : CommitRecord :=
  { pc := m.pc, op := m.instruction.op, rd := m.instruction.rd, value := m.result m.instruction
    branchTaken := m.transfers, actualNextPc := m.controlTarget }

theorem transfers_sequential {m : Machine} (h : (m.instruction.op.isBranch || m.instruction.op.isJump) = false) :
    m.transfers = false ∧ m.controlTarget = 0 := by
  refine ⟨?_, if_neg (by simp [h])⟩
  unfold transfers
  rw [Bool.or_eq_false_iff] at h
  rw [h.2, Bool.false_or]
  generalize m.instruction.op = op at h
  cases op with
  | beq | bne | blt | bge | bltu | bgeu => exact absurd h.1 (by decide)
  | _ => rfl

theorem result_of_isStore {m : Machine} (h : m.instruction.op.isStore = true) : m.result m.instruction = 0 := by
  unfold result
  rw [if_neg (by simp [Op.isLoad_of_isStore h])]
  generalize m.instruction.op = op at h
  cases op with
  | sb | sh | sw => rfl
  | _ => exact absurd h (by decide)

end Rv32i.Machine

namespace Core

variable {memory : Nat → Byte} {c i : Nat} {s : Core} {m : Machine} {e x : RobEntry}

/-! ## What an entry records -/

/-- The fields a completion fills. -/
structure Blank (e : RobEntry) : Prop where
  value : e.value = 0
  branchTaken : e.branchTaken = false
  actualNextPc : e.actualNextPc = 0

structure Shows (m : Machine) (e : RobEntry) : Prop where
  value : e.value = m.result m.instruction
  branchTaken : e.branchTaken = m.transfers
  actualNextPc : e.actualNextPc = m.controlTarget

structure Recorded (memory : Nat → Byte) (c : Nat) (s : Core) : Prop where
  blank : ∀ e ∈ s.rob.live, e.ready = false ∨ e.op = .halt → Blank e
  shows : ∀ i e m, OnPath memory c s.rob.live i e m → e.ready = true → Shows m e
  unit : s.fu.valid = true → ∀ i e m, OnPath memory c s.rob.live i e m → e.tag = s.fu.tag →
    s.fu.branchTaken = m.transfers

theorem finish_completion (hv : s.completion.valid = true) (ht : x.tag = s.completion.tag) :
    (s.finish x).value = s.completion.result ∧
      (s.finish x).branchTaken =
        (if s.completion.hasControlResult then s.completion.branchTaken else x.branchTaken) ∧
      (s.finish x).actualNextPc =
        if s.completion.hasControlResult then s.completion.actualNextPc else x.actualNextPc := by
  rw [finish, ReorderBuffer.finish, ReorderBuffer.complete, if_pos (by simp [hv, ht])]
  unfold ReorderBuffer.storeComplete ReorderBuffer.completeEntry
  cases s.completion.hasControlResult with
  | true =>
    simp only [if_true]
    split <;> exact ⟨rfl, rfl, rfl⟩
  | false =>
    simp only [Bool.false_eq_true, if_false]
    split <;> exact ⟨rfl, rfl, rfl⟩

/-- Without a completion nothing is filled in. -/
theorem finish_uncompleted (hc : ¬ (s.completion.valid = true ∧ x.tag = s.completion.tag)) :
    (s.finish x).value = x.value ∧ (s.finish x).branchTaken = x.branchTaken ∧
      (s.finish x).actualNextPc = x.actualNextPc := by
  have hno : (s.completion.valid && x.tag == s.completion.tag) = false := by
    rw [Bool.eq_false_iff, Ne, Bool.and_eq_true, beq_iff_eq]
    exact hc
  rw [finish, ReorderBuffer.finish, ReorderBuffer.complete, hno, if_neg (by simp)]
  unfold ReorderBuffer.storeComplete
  split <;> exact ⟨rfl, rfl, rfl⟩

theorem blank_tick (h : Recorded memory c s) (hi : Inv s) (hrun : s.status = .running) (he : e ∈ s.tick.rob.live)
    (hb : e.ready = false ∨ e.op = .halt) : Blank e := by
  rcases mem_tick_live hrun hi.rob he with ⟨-, x, hx, rfl⟩ | ⟨d, -, rfl⟩
  · rw [finish_op] at hb
    by_cases hop : x.op = .halt
    · rw [finish_of_ready hi hx ((hi.entry x hx).halt hop)]
      exact h.blank x hx (Or.inr hop)
    · have hnr : (s.finish x).ready = false := hb.resolve_right hop
      rw [finish_ready hi hx, Bool.or_eq_false_iff] at hnr
      have hc : ¬ (s.completion.valid = true ∧ x.tag = s.completion.tag) := by
        rintro ⟨hv, ht⟩
        rw [finishes, hv, ht, beq_self_eq_true] at hnr
        cases hnr.2
      obtain ⟨hvalue, htaken, hpc⟩ := finish_uncompleted hc
      have hblank := h.blank x hx (Or.inl hnr.1)
      exact ⟨hvalue.trans hblank.value, htaken.trans hblank.branchTaken, hpc.trans hblank.actualNextPc⟩
  · exact ⟨rfl, rfl, rfl⟩

/-- An entry on the path that finishes in the cycle. -/
theorem shows_finish (h : Recorded memory c s) (hi : Inv s) (hsim : Sim memory c s)
    (hp : OnPath memory c s.rob.live i x m) (hr : (s.finish x).ready = true) : Shows m (s.finish x) := by
  by_cases hxr : x.ready = true
  · rw [finish_of_ready hi hp.mem hxr]
    exact h.shows i x m hp hxr
  · have hxr : x.ready = false := by simpa using hxr
    have hblank := h.blank x hp.mem (Or.inl hxr)
    have hop := (hsim.fetched i x m hp).op
    by_cases hc : s.completion.valid = true ∧ x.tag = s.completion.tag
    · obtain ⟨hvalue, htaken, hpc⟩ := finish_completion hc.1 hc.2
      obtain ⟨⟨m', hm', hnext⟩, hctl, hres⟩ := completion_computes hi hsim hc.1 hp hc.2
      rw [hctl] at htaken hpc
      cases hcontrol : m.instruction.op.isBranch || m.instruction.op.isJump with
      | true =>
        rw [hcontrol] at hctl htaken hpc
        have halu : x.op.isAlu = true := by
          rw [hop]
          generalize m.instruction.op = op at hcontrol
          cases op <;> first | rfl | exact absurd hcontrol (by decide)
        obtain ⟨hfu, hft, hcf⟩ := finished_by_unit hi hp.mem halu hxr hr
        refine ⟨hvalue.trans hres, ?_, ?_⟩
        · rw [htaken, if_pos rfl, hcf, h.unit hfu i x m hp hft]
        · rw [hpc, if_pos rfl, hnext hctl, Machine.next_pc hm', Machine.controlTarget, if_pos hcontrol]
      | false =>
        obtain ⟨htransfers, htarget⟩ := Machine.transfers_sequential hcontrol
        rw [hcontrol] at htaken hpc
        exact ⟨hvalue.trans hres, by rw [htaken, htransfers]; exact hblank.branchTaken,
          by rw [hpc, htarget]; exact hblank.actualNextPc⟩
    · -- a store, whose response completes it without a result
      obtain ⟨hvalue, htaken, hpc⟩ := finish_uncompleted hc
      rw [finish_ready hi hp.mem, hxr, Bool.false_or, finishes, Bool.or_eq_true, Bool.and_eq_true, Bool.and_eq_true,
        beq_iff_eq, beq_iff_eq] at hr
      obtain ⟨hsv, ht⟩ := hr.resolve_left hc
      have hstore := stored_op hi hsv hp.mem ht
      rw [hop] at hstore
      obtain ⟨htransfers, htarget⟩ := Machine.transfers_sequential
        (m := m) (Op.sequential_of_isMemory (by simp [Op.isMemory, hstore]))
      refine ⟨?_, ?_, ?_⟩
      · rw [hvalue, hblank.value, Machine.result_of_isStore hstore]
      · rw [htaken, hblank.branchTaken, htransfers]
      · rw [hpc, hblank.actualNextPc, htarget]

theorem shows_tick (h : Recorded memory c s) (hi : Inv s) (hsim : Sim memory c s) (hv : MemoryView memory c s)
    (hrun : s.status = .running) (hp : OnPath memory (c + s.shift) s.tick.rob.live i e m) (hr : e.ready = true) :
    Shows m e := by
  by_cases hop : e.op = .halt
  · have hblank := blank_tick h hi hrun hp.mem (Or.inr hop)
    have hm : m.instruction.op = .halt := by rw [← (fetched_tick hi hsim hv hrun hp).op, hop]
    obtain ⟨htransfers, htarget⟩ := Machine.transfers_sequential (m := m) (by rw [hm]; rfl)
    refine ⟨?_, ?_, ?_⟩
    · rw [hblank.value, Machine.result, hm]
      rfl
    · rw [hblank.branchTaken, htransfers]
    · rw [hblank.actualNextPc, htarget]
  · obtain ⟨-, ⟨x, hx, rfl⟩ | ⟨-, d, hd, rfl, -⟩⟩ := onPath_back hsim hrun hi.rob hp
    · exact shows_finish h hi hsim hx hr
    · have hh : (d.decoded.op == .halt) = true := hr
      exact absurd (beq_iff_eq.mp hh) hop

theorem unit_tick (h : Recorded memory c s) (hi : Inv s) (hsim : Sim memory c s) (hrun : s.status = .running)
    (hval : s.tick.fu.valid = true) (hp : OnPath memory (c + s.shift) s.tick.rob.live i e m)
    (het : e.tag = s.tick.fu.tag) : s.tick.fu.branchTaken = m.transfers := by
  obtain ⟨-, ⟨hfu, heq⟩ | ⟨x, hd, heq⟩⟩ := fu_tick_cases hi hrun hval
  · rw [heq] at het ⊢
    obtain ⟨x, hx, -, hxt⟩ := mem_pending.mp (hi.fu_pending hfu)
    exact h.unit hfu _ x m (onPath_old hi hsim hrun hp hx (het.trans hxt.symm)) hxt
  · obtain ⟨hx, hl, hr, -⟩ := departing_mem hd
    obtain ⟨-, hct, -⟩ := computed_spec (departing_alu hi hd)
    obtain ⟨z, hz, hzt, hzop, -⟩ := hi.station_entry hx
    rw [heq] at het ⊢
    rw [hct] at het
    have hold := onPath_old hi hsim hrun hp hz (het.trans hzt.symm)
    have hok := hsim.station x hx _ z m hold hzt
    have hop : x.op = m.instruction.op := by rw [← hzop, (hsim.fetched _ z m hold).op]
    have hexec := FunctionalUnit.executeInstruction_branchTaken (e := ReservationStation.makeExecute x)
      (a := m.read m.instruction.rs1) (b := m.read m.instruction.rs2)
      (by show x.lhs.value = FunctionalUnit.selected x.op.lhsSource x.pc _ x.immediate
          rw [denotes_ready hok.lhs hl, hop, hok.pc, hok.immediate])
      (by show x.rhs.value = FunctionalUnit.selected x.op.rhsSource x.pc _ x.immediate
          rw [denotes_ready hok.rhs hr, hop, hok.pc, hok.immediate])
    rw [computed, hexec, show (ReservationStation.makeExecute x).op = m.instruction.op from hop]
    rfl

theorem Recorded.tick (h : Recorded memory c s) (hi : Inv s) (hsim : Sim memory c s) (hv : MemoryView memory c s)
    (hrun : s.status = .running) : Recorded memory (c + s.shift) s.tick where
  blank _ he hb := blank_tick h hi hrun he hb
  shows _ _ _ hp hr := shows_tick h hi hsim hv hrun hp hr
  unit hval _ _ _ hp ht := unit_tick h hi hsim hrun hval hp ht

theorem Recorded.start (counters : Nat → BitVec 8) (input : Istream) (memory : Nat → Byte) :
    Recorded memory 0 (loadedWith counters input) := by
  have hlive := loadedWith_live counters input
  refine ⟨fun e he => ?_, fun i e m hp => ?_, fun _ i e m hp => ?_⟩
  · rw [hlive] at he
    cases he
  · have he := hp.mem
    rw [hlive] at he
    cases he
  · have he := hp.mem
    rw [hlive] at he
    cases he

/-! ## The log of a run -/

variable {tr : Nat → Core} {n : Nat}

theorem recorded (h : IsRun tr) (hs : ¬ SelfModifying (tr 0).memory.bytes) (n : Nat) :
    (tr n).status ≠ .halted → Recorded (tr 0).memory.bytes (retired tr n) (tr n) := by
  induction n with
  | zero =>
    intro _
    obtain ⟨counters, input, h0⟩ := h.start
    have hstart := Recorded.start counters input (tr 0).memory.bytes
    rw [← h0] at hstart
    exact hstart
  | succ n ih =>
    intro hne
    by_cases hrun : (tr n).status = .running
    · have hnh : (tr n).status ≠ .halted := by simp [hrun]
      obtain ⟨hsim, hmem⟩ := follows h hs n
      have hh : (tr n).halts = false := by
        by_contra hh
        exact hne (by rw [h.step]; exact halted_tick (h.inv n) hrun (by simpa using hh))
      rw [h.step, retired, retires_running hrun hh]
      exact (ih hnh).tick (h.inv n) (hsim hnh) (memoryView h hs hrun (hsim hnh) hmem) hrun
    · rw [h.step, tick_of_stopped hrun] at hne ⊢
      rw [retired, retires_stopped hrun]
      exact ih hne

/-- While the machine runs no HALT has committed. -/
theorem length_commitLog (h : IsRun tr) (hrun : (tr n).status = .running) : (commitLog tr n).length = retired tr n := by
  induction n with
  | zero => rfl
  | succ n ih =>
    have hprev := h.running_of_succ hrun
    have hh : (tr n).halts = false := by
      by_contra hh
      rw [h.step, halted_tick (h.inv n) hprev (by simpa using hh)] at hrun
      cases hrun
    rw [commitLog, List.length_append, ih hprev, retired, retires_running hprev hh, committed, shift]
    by_cases hc : (tr n).committing = true
    · rw [if_pos ⟨hprev, hc⟩, if_pos hc]
      rfl
    · rw [if_neg fun hb => hc hb.2, if_neg hc]
      rfl

/-- A commit shows what its step determines. -/
theorem committed_record (h : IsRun tr) (hs : ¬ SelfModifying (tr 0).memory.bytes) {x : RobEntry}
    (hx : (tr n).committed = some x) :
    ∃ m, run (tr 0).memory.bytes (retired tr n) = some m ∧ x.record = m.record := by
  obtain ⟨hrun, -, hhead, hr⟩ := committed_some (h.inv n) hx
  have hnh : (tr n).status ≠ .halted := by simp [hrun]
  have hsim := (follows h hs n).1 hnh
  rw [List.head?_eq_getElem?] at hhead
  obtain ⟨m, hp⟩ := hsim.head hhead
  have hf := hsim.fetched 0 x m hp
  have hshows := (recorded h hs n hnh).shows 0 x m hp hr
  refine ⟨m, hp.step, ?_⟩
  rw [RobEntry.record, Machine.record, hp.pc, hf.op, hf.rd, hshows.value, hshows.branchTaken, hshows.actualNextPc]

/-- What is committed, in order. -/
def commitRecords (tr : Nat → Core) (n : Nat) : List CommitRecord := (commitLog tr n).map RobEntry.record

/-- The entry of the log at `i` shows step `i` of the sequential run. -/
theorem log_record (h : IsRun tr) (hs : ¬ SelfModifying (tr 0).memory.bytes) (n : Nat) :
    Steps.Observes (fun i => (run (tr 0).memory.bytes i).map Machine.record) (commitRecords tr n) := by
  induction n with
  | zero => exact fun _ _ hc => by cases hc
  | succ n ih =>
    intro i r hr
    rw [commitRecords, commitLog, List.map_append] at hr
    by_cases hi : i < ((commitLog tr n).map RobEntry.record).length
    · rw [List.getElem?_append_left hi] at hr
      exact ih i r hr
    · rw [List.getElem?_append_right (Nat.not_lt.mp hi)] at hr
      cases hx : (tr n).committed with
      | none =>
        rw [hx] at hr
        cases hr
      | some x =>
        obtain ⟨m, hm, hrecord⟩ := committed_record h hs hx
        have hlen := length_commitLog h (committed_some (h.inv n) hx).1
        rw [hx, List.length_map] at hr
        rw [List.length_map] at hi
        obtain ⟨h0, rfl⟩ : i - (commitLog tr n).length = 0 ∧ r = x.record := by
          cases hj : i - (commitLog tr n).length with
          | zero =>
            rw [hj] at hr
            exact ⟨rfl, (Option.some.inj hr).symm⟩
          | succ j =>
            rw [hj] at hr
            cases hr
        obtain rfl : i = retired tr n := by omega
        show (run _ _).map _ = _
        rw [hm, hrecord]
        rfl

/-! ## The end of a run -/

/-- HALT is the last commit, and leaves no write open. -/
theorem halted_log (h : IsRun tr) (hh : (tr n).status = .halted) :
    ¬ Latched tr n ∧ (commitLog tr n).length = retired tr n + 1 := by
  induction n with
  | zero => exact absurd hh h.start_not_halted
  | succ n ih =>
    by_cases hrun : (tr n).status = .running
    · rw [h.step] at hh
      have hhalts := halts_of_tick (h.inv n) hrun hh
      obtain ⟨x, hx, hr, -⟩ := halts_head (h.inv n) hhalts
      have hc : (tr n).committing = true := (committing_iff (h.inv n).rob).mpr ⟨x, hx, hr⟩
      refine ⟨not_latched_of_commit h hc, ?_⟩
      rw [commitLog, List.length_append, length_commitLog h hrun, retired, retires_halts hhalts, committed,
        if_pos ⟨hrun, hc⟩]
      rfl
    · rw [h.step, tick_of_stopped hrun] at hh
      obtain ⟨hl, hlen⟩ := ih hh
      refine ⟨fun hc => hl ((latched_stopped hrun).mp hc), ?_⟩
      rw [commitLog, committed_none.mpr (Or.inl hrun), retired, retires_stopped hrun, Option.toList_none,
        List.append_nil, hlen]

/-- Two halted runs over one memory have made the same steps, and left it the same. -/
theorem halted_agree {tr' : Nat → Core} {n' : Nat} (h : IsRun tr) (h' : IsRun tr')
    (hs : ¬ SelfModifying (tr 0).memory.bytes) (hmem : (tr' 0).memory.bytes = (tr 0).memory.bytes)
    (hh : (tr n).status = .halted) (hh' : (tr' n').status = .halted) :
    retired tr n = retired tr' n' ∧ (tr n).exitCode = (tr' n').exitCode ∧ (tr n).registers = (tr' n').registers ∧
      (tr n).memory.bytes = (tr' n').memory.bytes ∧ commitRecords tr n = commitRecords tr' n' := by
  have hs' : ¬ SelfModifying (tr' 0).memory.bytes := by rw [hmem]; exact hs
  obtain ⟨m, hm, hreg, hstep, hexit⟩ := halted_run h hs hh
  obtain ⟨m', hm', hreg', hstep', hexit'⟩ := halted_run h' hs' hh'
  obtain ⟨hl, hlen⟩ := halted_log h hh
  obtain ⟨hl', hlen'⟩ := halted_log h' hh'
  have hstop : ∀ {y : Machine} {v : Word}, y.step = .halted v → y.next = none := by
    intro y v hy
    rw [Machine.next, hy]
  have hrecords' := log_record h' hs' n'
  rw [hmem] at hm' hrecords'
  have hcount : retired tr n = retired tr' n' :=
    Nat.le_antisymm (Steps.after_stopped hm' (hstop hstep') hm) (Steps.after_stopped hm (hstop hstep) hm')
  rw [hcount] at hm
  obtain rfl := Option.some.inj (hm.symm.trans hm')
  obtain ⟨y, hy, hbytes⟩ := (follows h hs n).2.settled hl
  obtain ⟨y', hy', hbytes'⟩ := (follows h' hs' n').2.settled hl'
  rw [hcount, hm, Option.some.injEq] at hy
  rw [hmem, hm, Option.some.injEq] at hy'
  refine ⟨hcount, hexit.trans hexit'.symm, hreg.trans hreg'.symm, ?_, (log_record h hs n).eq_of_length hrecords' ?_⟩
  · rw [hbytes, hbytes', ← hy, hy']
  · rw [commitRecords, commitRecords, List.length_map, List.length_map, hlen, hlen', hcount]

/-- The branches among the commits. -/
theorem predictionCount_eq (h : IsRun tr) (n : Nat) :
    (tr n).predictor.predictionCount = (tr 0).predictor.predictionCount +
      BitVec.ofNat 64 ((commitRecords tr n).countP (·.op.isBranch)) := by
  rw [predictor_follows h, (BranchPredictor.trainedFrom_counts _ _).1, commitRecords, List.countP_map]
  congr 2
  refine List.countP_congr fun x hx => ?_
  obtain ⟨k, -, hk⟩ := mem_commitLog hx
  obtain ⟨-, -, hhead, -⟩ := committed_some (h.inv k) hk
  rw [((h.inv k).entry x (List.mem_of_mem_head? hhead)).branch]
  rfl

end Core

namespace Cpu

open TomasuloCpu.Core

/-- The machine with other contents of the predictor's table. -/
def withCounters (cpu : Cpu) (counters : Nat → BitVec 8) : Cpu :=
  { cpu with branchPredictor := .reset { cpu.branchPredictor.cur with counters := counters } }

/-- The states of the run that starts, after the load, with these contents. -/
def historyWith (cpu : Cpu) (input : Istream) (counters : Nat → BitVec 8) (n : Nat) : Core :=
  (((cpu.load input).2.withCounters counters).cycles n).core

theorem historyWith_isRun (cpu : Cpu) (input : Istream) (counters : Nat → BitVec 8) :
    IsRun (cpu.historyWith input counters) := by
  refine ⟨⟨counters, input, rfl⟩, fun n => ?_⟩
  rw [historyWith, historyWith, core_cycles, core_cycles, after_succ]

/-- What the predictor's table holds after the load decides neither which instructions
    commit nor what they show, and not where a run that halts ends. -/
theorem prediction_only_timing (cpu : Cpu) (input : Istream)
    (hs : ¬ SelfModifying (cpu.load input).2.memoryUnit.memory.bytes) (counters₁ counters₂ : Nat → BitVec 8) (n m : Nat) :
    let a := ((cpu.load input).2.withCounters counters₁).cycles n
    let b := ((cpu.load input).2.withCounters counters₂).cycles m
    (commitRecords (cpu.historyWith input counters₁) n <+: commitRecords (cpu.historyWith input counters₂) m ∨
      commitRecords (cpu.historyWith input counters₂) m <+: commitRecords (cpu.historyWith input counters₁) n) ∧
    (a.status = .halted → b.status = .halted →
      a.exitCode = b.exitCode ∧ (∀ r, a.registerValue r = b.registerValue r) ∧
        (∀ address, a.memoryUnit.memory.bytes address = b.memoryUnit.memory.bytes address) ∧
        a.committedCount = b.committedCount ∧ a.branchCount = b.branchCount) := by
  intro a b
  have h₁ := historyWith_isRun cpu input counters₁
  have h₂ := historyWith_isRun cpu input counters₂
  refine ⟨(log_record h₁ hs n).comparable (log_record h₂ hs m), fun ha hb => ?_⟩
  obtain ⟨hcount, hexit, hregs, hbytes, hrecords⟩ := halted_agree h₁ h₂ hs rfl ha hb
  refine ⟨hexit, fun r => ?_, fun address => congrFun hbytes address, ?_, ?_⟩
  · exact congrArg (fun registers => RegisterFile.read registers r) hregs
  · have hcounts := (committedCount_eq h₁ n).trans (hcount ▸ (committedCount_eq h₂ m).symm)
    exact hcounts
  · have hbranches := (predictionCount_eq h₁ n).trans (hrecords ▸ (predictionCount_eq h₂ m).symm)
    exact hbranches

theorem historyWith_eq (cpu : Cpu) (input : Istream) (counters : Nat → BitVec 8) (n : Nat) :
    cpu.historyWith input counters n = (loadedWith counters input).after n := core_cycles _ n

/-- With a table that predicts the branch taken the run halts a cycle earlier than with one
    that does not, and counts the same branches. -/
theorem prediction_only_timing_sample :
    ((new fun _ => baseOrders).historyWith branchImage (fun _ => 0) 5).status = .running ∧
      ((new fun _ => baseOrders).historyWith branchImage (fun _ => 3) 5).status = .halted ∧
      ((((new fun _ => baseOrders).load branchImage).2.withCounters fun _ => 0).cycles 6).branchCount =
        ((((new fun _ => baseOrders).load branchImage).2.withCounters fun _ => 3).cycles 5).branchCount := by
  obtain ⟨hcode, hrun, hlate, hearly⟩ : everyStep (loaded branchImage).memory.bytes 2 (codeBelow 12) = true ∧
      ((loadedWith (fun _ => 0) branchImage).after 5).status = .running ∧
      ((loadedWith (fun _ => 0) branchImage).after 6).status = .halted ∧
      ((loadedWith (fun _ => 3) branchImage).after 5).status = .halted := by decide +kernel
  rw [← historyWith_eq (new fun _ => baseOrders)] at hrun hlate hearly
  obtain ⟨-, hend⟩ := prediction_only_timing (new fun _ => baseOrders) branchImage (not_selfModifying hcode)
    (fun _ => 0) (fun _ => 3) 6 5
  exact ⟨hrun, hearly, (hend hlate hearly).2.2.2.2⟩

end Cpu

end TomasuloCpu
