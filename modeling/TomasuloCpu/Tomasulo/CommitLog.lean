/-
  TomasuloCpu.Tomasulo.CommitLog — the committed program, and faults of the fetch.

  `commitLog` collects the entries that commit, HALT included. Behind the last one the
  program goes on at `architecturalPc`, and there the fetch stream starts
  (`stream_follows`). A fetch or decode error counts only with an empty reorder buffer, so
  it is one at that pc (`fault_tick`).
-/
import TomasuloCpu.Tomasulo.FetchStream
import TomasuloCpu.Tomasulo.MemoryPort
import TomasuloCpu.Tomasulo.Trace

namespace TomasuloCpu

namespace Core

variable {s : Core} {tr : Nat → Core} {n : Nat}

/-! ## The log -/

/-- The entry the cycle commits. -/
def committed (s : Core) : Option RobEntry :=
  if s.status = .running ∧ s.committing = true then some s.commit.entry else none

/-- The entries committed in the first `n` cycles, oldest first. -/
def commitLog (tr : Nat → Core) : Nat → List RobEntry
  | 0 => []
  | n + 1 => commitLog tr n ++ (tr n).committed.toList

/-- Where the program goes on behind the committed entries. -/
def architecturalPc (log : List RobEntry) : Address := (log.getLast?.map RobEntry.successor).getD 0

theorem committed_some (h : Inv s) {x : RobEntry} (hx : s.committed = some x) :
    s.status = .running ∧ s.committing = true ∧ s.rob.live.head? = some x ∧ x.ready = true := by
  unfold committed at hx
  split at hx
  · rename_i hc
    obtain ⟨y, hy, hr⟩ := (committing_iff h.rob).mp hc.2
    rw [Option.some.injEq, (commit_entry h.rob hy hr).1] at hx
    rw [← hx]
    exact ⟨hc.1, hc.2, hy, hr⟩
  · cases hx

theorem committed_none : s.committed = none ↔ s.status ≠ .running ∨ s.committing = false := by
  unfold committed
  split
  · rename_i hc
    simp [hc.1, hc.2]
  · rename_i hc
    by_cases hrun : s.status = .running
    · simp [hrun] at hc
      simp [hc]
    · simp [hrun]

theorem architecturalPc_append (log : List RobEntry) (next : Option RobEntry) :
    architecturalPc (log ++ next.toList) = (next.map RobEntry.successor).getD (architecturalPc log) := by
  cases next with
  | none => simp
  | some x => simp [architecturalPc]

/-- The fetch stream starts behind the log, until HALT commits. -/
theorem stream_follows (h : IsRun tr) (n : Nat) :
    (tr n).pcAt 0 = architecturalPc (commitLog tr n) ∧ ((tr n).status ≠ .halted → FetchStream (tr n)) := by
  induction n with
  | zero =>
    obtain ⟨counters, input, h0⟩ := h.start
    have hstream : FetchStream (tr 0) := by rw [h0]; exact FetchStream.reset _ _ _
    refine ⟨?_, fun _ => hstream⟩
    rw [h0]
    exact pcAt_end (by rw [loadedWith_live]; exact Nat.le_refl 0)
  | succ n ih =>
    rw [h.step, commitLog]
    by_cases hrun : (tr n).status = .running
    · have hstream := ih.2 (by simp [hrun])
      refine ⟨?_, fun hne => hstream.tick (h.inv n) hrun ?_⟩
      · rw [architecturalPc_append, head_tick hstream.chain hstream.predicted (h.inv n) hrun, ih.1]
        unfold committed
        by_cases hc : (tr n).committing = true
        · rw [if_pos hc, if_pos ⟨hrun, hc⟩]
          rfl
        · rw [if_neg hc, if_neg fun hr => hc hr.2]
          rfl
      · by_contra hh
        exact hne (halted_tick (h.inv n) hrun (by simpa using hh))
    · rw [tick_of_stopped hrun, committed_none.mpr (Or.inl hrun)]
      simpa using ih

theorem stream_running (h : IsRun tr) (hrun : (tr n).status = .running) :
    FetchStream (tr n) ∧ (tr n).pcAt 0 = architecturalPc (commitLog tr n) := by
  obtain ⟨hpc, hstream⟩ := stream_follows h n
  exact ⟨hstream (by simp [hrun]), hpc⟩

/-! ## Faults of the fetch -/

/-- No store is under way without a live entry. -/
theorem storing_of_empty (h : Inv s) (hl : s.rob.live = []) : s.port.storing = none := by
  cases hs : s.port.storing with
  | none => rfl
  | some t =>
    obtain ⟨y, hy, -⟩ := h.port.store t hs
    rw [hl] at hy
    cases hy

theorem memory_tick_idle (h : Inv s) (hrun : s.status = .running) (hs : s.port.storing = none) :
    s.tick.memory = s.memory := by
  cases port_event h hrun with
  | counting _ _ _ hm => exact hm
  | responding hv _ _ hm =>
    refine hm ?_
    cases ht : s.port.transaction.request.type with
    | load => rfl
    | store =>
      rw [DataPort.storing, if_pos (by simp [hv, ht])] at hs
      cases hs
  | taking _ _ _ _ _ _ hm => exact hm
  | resting _ _ _ hm => exact hm

/-- The two statuses a fetch can stop with, and the word at the pc that is the cause. -/
inductive FetchFault (s : Core) : Status → Prop
  | fetchOutOfBound (hw : s.memory.readWord s.pc = none) : FetchFault s .fetchOutOfBound
  | invalidInstruction {w : InstructionBits} (hw : s.memory.readWord s.pc = some w)
      (hop : (Decoder.decode w).op = .invalid) : FetchFault s .invalidInstruction

/-- A cycle without an issue in an empty machine changes neither the pc nor the memory. -/
theorem fetch_kept (h : Inv s) (hrun : s.status = .running) (hl : s.rob.live = []) (hi : s.issuing = none) :
    s.tick.rob.live = [] ∧ s.tick.pc = s.pc ∧ s.tick.memory = s.memory := by
  obtain ⟨-, -, hfl, -⟩ := empty_modules h hl
  refine ⟨?_, by rw [pc_tick hrun hfl, hi]; rfl, memory_tick_idle h hrun (storing_of_empty h hl)⟩
  rw [(tick_rob hrun h.rob).2]
  simp [survivors, hfl, hl, newRob, hi]

theorem fault_tick (h : Inv s) (hrun : s.status = .running)
    (hs : s.tick.status = .fetchOutOfBound ∨ s.tick.status = .invalidInstruction) :
    s.rob.live = [] ∧ s.tick.rob.live = [] ∧ FetchFault s.tick s.tick.status := by
  cases status_event h hrun with
  | running hs' => rw [hs'] at hs; rcases hs with hs | hs <;> cases hs
  | halted hs' => rw [hs'] at hs; rcases hs with hs | hs <;> cases hs
  | memory hs' => rw [hs'] at hs; rcases hs with hs | hs <;> cases hs
  | fetch hs' hl _ hw =>
    have hi : s.issuing = none := by
      cases hd : s.issuing with
      | none => rfl
      | some d =>
        obtain ⟨w, hword, -⟩ := (issuing_some hd).word
        rw [hw] at hword
        cases hword
    obtain ⟨hlive, hpc, hmem⟩ := fetch_kept h hrun hl hi
    refine ⟨hl, hlive, ?_⟩
    rw [hs']
    exact .fetchOutOfBound (by rw [hmem, hpc]; exact hw)
  | @invalid w hs' hl _ hw hop =>
    have hi : s.issuing = none := by
      cases hd : s.issuing with
      | none => rfl
      | some d =>
        obtain ⟨w', hword, hdec⟩ := (issuing_some hd).word
        rw [hw, Option.some.injEq] at hword
        exact absurd (by rw [hdec, ← hword]; exact hop) (issuing_some hd).op_ne
    obtain ⟨hlive, hpc, hmem⟩ := fetch_kept h hrun hl hi
    refine ⟨hl, hlive, ?_⟩
    rw [hs']
    exact .invalidInstruction (by rw [hmem, hpc]; exact hw) hop

/-- Stopped by the fetch, the machine is empty and the cause is still at the pc. -/
theorem fault_run (h : IsRun tr) {n : Nat}
    (hs : (tr n).status = .fetchOutOfBound ∨ (tr n).status = .invalidInstruction) :
    (tr n).rob.live = [] ∧ FetchFault (tr n) (tr n).status := by
  have hne : (tr n).status ≠ .running ∧ (tr n).status ≠ .loadError := by
    constructor
    · intro hc
      rw [hc] at hs
      rcases hs with hs | hs <;> cases hs
    · intro hc
      rw [hc] at hs
      rcases hs with hs | hs <;> cases hs
  obtain ⟨k, -, hrun, htr⟩ := h.stop hne.1 hne.2
  rw [htr, h.step] at hs ⊢
  exact (fault_tick (h.inv k) hrun hs).2

end Core

namespace Cpu

open TomasuloCpu.Core

/-- In a running machine the live entries are consecutive instructions of one path, the pc
    follows the youngest of them (or, without any, the committed program), and the fetch is
    stopped exactly when the youngest is HALT. -/
theorem fetch_stream_invariant (cpu : Cpu) (input : Istream) (n : Nat)
    (hrun : (cpu.history input n).status = .running) :
    (∀ i older younger, (cpu.history input n).rob.live[i]? = some older →
      (cpu.history input n).rob.live[i + 1]? = some younger → younger.pc = older.predictedNextPc) ∧
    (cpu.history input n).pc =
      ((cpu.history input n).rob.live.getLast?.map (·.predictedNextPc)).getD
        (architecturalPc (commitLog (cpu.history input) n)) ∧
    (∀ e ∈ (cpu.history input n).rob.live, ReorderBuffer.isControlInstruction e = false →
      e.predictedNextPc = e.pc + 4) ∧
    (∀ e ∈ (cpu.history input n).rob.live, e.op ≠ .invalid) ∧
    ((cpu.history input n).fetchStopped = true ↔
      ∃ e, (cpu.history input n).rob.live.getLast? = some e ∧ e.op = .halt) ∧
    ∀ i e, (cpu.history input n).rob.live[i]? = some e → e.op = .halt →
      i + 1 = (cpu.history input n).rob.live.length := by
  have h := history_isRun cpu input
  obtain ⟨hstream, hpc⟩ := stream_running h hrun
  refine ⟨fun i older younger hi hj => ?_, ?_, fun e he hc => ?_, fun e he => ((h.inv n).entry e he).op_ne,
    ⟨hstream.stopped, ?_⟩, fun i e hi hop => (hstream.halt i e hi hop).1⟩
  · rw [← hstream.chain i older hi, pcAt_entry hj]
  · cases hl : (cpu.history input n).rob.live.getLast? with
    | none =>
      rw [List.getLast?_eq_none_iff] at hl
      rw [← pcAt_end (s := cpu.history input n) (i := 0) (by rw [hl]; exact Nat.le_refl 0), hpc]
      rfl
    | some e =>
      rw [List.getLast?_eq_getElem?] at hl
      have hchain := hstream.chain _ e hl
      rw [pcAt_end (by omega)] at hchain
      exact hchain
  · rw [ReorderBuffer.isControlInstruction, Bool.or_comm] at hc
    exact hstream.predicted e he hc
  · rintro ⟨e, he, hop⟩
    rw [List.getLast?_eq_getElem?] at he
    exact (hstream.halt _ e he hop).2

theorem fetch_stream_invariant_sample :
    ((new fun _ => baseOrders).history sampleImage 3).pc = 12 ∧
      ((new fun _ => baseOrders).history sampleImage 3).fetchStopped = false := by
  have heq := history_eq (new fun _ => baseOrders) sampleImage 3
  obtain ⟨hrun, hlast⟩ : ((loaded sampleImage).after 3).status = .running ∧
      ((loaded sampleImage).after 3).rob.live.getLast?.any (fun e => e.op != .halt && e.predictedNextPc == 12) = true := by
    decide +kernel
  rw [← heq] at hrun hlast
  obtain ⟨-, hpc, -, -, hhalt, -⟩ := fetch_stream_invariant (new fun _ => baseOrders) sampleImage 3 hrun
  obtain ⟨e, he, hfacts⟩ := (Option.any_eq_true _ _).mp hlast
  simp only [Bool.and_eq_true, bne_iff_ne, beq_iff_eq] at hfacts
  refine ⟨by rw [hpc, he]; exact hfacts.2, ?_⟩
  by_contra hst
  obtain ⟨e', he', hop⟩ := hhalt.mp (by simpa using hst)
  obtain rfl := Option.some.inj (he.symm.trans he')
  exact hfacts.1 hop

/-- A machine stopped by the fetch is empty, its pc is where the committed program goes on,
    and the word there is the cause. While an entry is live, or the pc is not there, no
    cycle sets these statuses. -/
theorem fetch_faults_precise (cpu : Cpu) (input : Istream) (n : Nat) :
    ((cpu.history input n).status = .fetchOutOfBound ∨ (cpu.history input n).status = .invalidInstruction →
      Drained (cpu.history input n) ∧
      (cpu.history input n).pc = architecturalPc (commitLog (cpu.history input) n) ∧
      FetchFault (cpu.history input n) (cpu.history input n).status) ∧
    ((cpu.history input n).status = .running →
      ((cpu.history input n).rob.live ≠ [] ∨
        (cpu.history input n).pc ≠ architecturalPc (commitLog (cpu.history input) n)) →
      (cpu.history input (n + 1)).status ≠ .fetchOutOfBound ∧
        (cpu.history input (n + 1)).status ≠ .invalidInstruction) := by
  have h := history_isRun cpu input
  refine ⟨fun hs => ?_, fun hrun hne => ?_⟩
  · obtain ⟨hl, hfault⟩ := fault_run h hs
    refine ⟨drained (h.inv n) hl, ?_, hfault⟩
    rw [← (stream_follows h n).1, pcAt_end (by rw [hl]; exact Nat.le_refl 0)]
  · have hno : ¬ ((cpu.history input (n + 1)).status = .fetchOutOfBound ∨
        (cpu.history input (n + 1)).status = .invalidInstruction) := by
      intro hs
      rw [h.step] at hs
      have hl := (fault_tick (h.inv n) hrun hs).1
      rcases hne with hne | hne
      · exact hne hl
      · exact hne (by rw [← (stream_follows h n).1, pcAt_end (by rw [hl]; exact Nat.le_refl 0)])
    exact ⟨fun hs => hno (Or.inl hs), fun hs => hno (Or.inr hs)⟩

/-- `addi x1, x0, 5` and a word that is no instruction. -/
def invalidImage : Istream := { text := "@0 93 00 50 00 00 00 00 00".toList }

theorem fetch_faults_precise_sample :
    Drained ((new fun _ => baseOrders).history invalidImage 6) ∧
      ((new fun _ => baseOrders).history invalidImage 6).pc = 4 ∧
      ((new fun _ => baseOrders).history invalidImage 3).status = .running ∧
      ((new fun _ => baseOrders).history invalidImage 4).status ≠ .invalidInstruction := by
  have heq := history_eq (new fun _ => baseOrders) invalidImage
  obtain ⟨hstop, hpc, hrun, hlive⟩ : ((loaded invalidImage).after 6).status = .invalidInstruction ∧
      ((loaded invalidImage).after 6).pc = 4 ∧ ((loaded invalidImage).after 3).status = .running ∧
      ((loaded invalidImage).after 3).rob.live ≠ [] := by
    decide +kernel
  rw [← heq] at hstop hpc hrun hlive
  obtain ⟨hdrained, -, -⟩ := (fetch_faults_precise (new fun _ => baseOrders) invalidImage 6).1 (Or.inr hstop)
  refine ⟨hdrained, hpc, hrun, ?_⟩
  · exact ((fetch_faults_precise (new fun _ => baseOrders) invalidImage 3).2 hrun (Or.inl hlive)).2

end Cpu

end TomasuloCpu
