/-
  TomasuloCpu.Tomasulo.Accounting — every issued instruction is accounted for.

  The live instructions are a line: an issue joins, a commit serves the first and a flush
  sends away the others (`liveIds_line`). So the committed, the flushed and the live ones
  are together the issued ones, each in one place, and commits go by the order of issue.
  A commit or a flush comes within 36 cycles, so an instruction is gone within 36 for each
  entry the reorder buffer has room for (`leaves_within`).
-/
import TomasuloCpu.Lib.Line
import TomasuloCpu.Tomasulo.CycleBound

namespace TomasuloCpu

open Keyed

namespace Core

variable {tr : Nat → Core} {n id : Nat}

def running (s : Core) : Bool := s.status == .running

/-! ## The line of live instructions -/

def flushesAt (tr : Nat → Core) (n : Nat) : Bool := (tr n).running && (tr n).flush
def commitsAt (tr : Nat → Core) (n : Nat) : Bool := (tr n).running && (tr n).committing
def issuesAt (tr : Nat → Core) (n : Nat) : Bool := (tr n).running && (tr n).issuing.isSome

/-- The instructions issued in the first `n` cycles, by the cycle of their issue. -/
def issuedIds (tr : Nat → Core) (n : Nat) : List Nat := Line.joined (issuesAt tr) n

/-- The instructions committed in the first `n` cycles, in the order of commit. -/
def committedIds (tr : Nat → Core) (n : Nat) : List Nat := Line.servedLog (flushesAt tr) (commitsAt tr) (issuesAt tr) n

/-- The instructions that a flush removed in the first `n` cycles. -/
def flushedIds (tr : Nat → Core) (n : Nat) : List Nat := Line.droppedLog (flushesAt tr) (commitsAt tr) (issuesAt tr) n

theorem liveIds_line (tr : Nat → Core) (n : Nat) :
    liveIds tr n = Line.waiting (flushesAt tr) (commitsAt tr) (issuesAt tr) n := by
  induction n with
  | zero => rfl
  | succ n ih =>
    rw [Line.waiting, ← ih]
    by_cases hrun : (tr n).status = .running
    · rw [liveIds_running hrun, keptIds]
      simp [flushesAt, commitsAt, issuesAt, running, hrun]
    · rw [liveIds_stopped hrun]
      simp [flushesAt, commitsAt, issuesAt, running, hrun]

theorem served_iff : id ∈ Line.served (flushesAt tr) (commitsAt tr) (issuesAt tr) n ↔ Commits tr n id := by
  unfold Line.served
  rw [← liveIds_line]
  constructor
  · intro h
    split at h
    · rename_i hs
      simp only [commitsAt, running, Bool.and_eq_true, beq_iff_eq] at hs
      exact ⟨hs.1, hs.2, Option.mem_toList.mp h⟩
    · cases h
  · intro h
    have hs : commitsAt tr n = true := by simp [commitsAt, running, h.running, h.committing]
    rw [if_pos hs]
    exact Option.mem_toList.mpr h.head

theorem dropped_iff : id ∈ Line.dropped (flushesAt tr) (commitsAt tr) (issuesAt tr) n ↔ Flushes tr n id := by
  unfold Line.dropped
  rw [← liveIds_line]
  constructor
  · intro h
    split at h
    · rename_i hc
      simp only [flushesAt, running, Bool.and_eq_true, beq_iff_eq] at hc
      have hs : commitsAt tr n = true := by simp [commitsAt, running, hc.1, committing_of_flush hc.2]
      rw [if_pos hs] at h
      exact ⟨hc.1, hc.2, h⟩
    · cases h
  · intro h
    have hc : flushesAt tr n = true := by simp [flushesAt, running, h.running, h.flush]
    have hs : commitsAt tr n = true := by simp [commitsAt, running, h.running, committing_of_flush h.flush]
    rw [if_pos hc, if_pos hs]
    exact h.behind

theorem mem_committedIds : id ∈ committedIds tr n ↔ ∃ k < n, Commits tr k id := by
  simp only [committedIds, Line.servedLog, List.mem_flatMap, List.mem_range, served_iff]

theorem mem_flushedIds : id ∈ flushedIds tr n ↔ ∃ k < n, Flushes tr k id := by
  simp only [flushedIds, Line.droppedLog, List.mem_flatMap, List.mem_range, dropped_iff]

/-! ## The counter -/

theorem length_served (h : IsRun tr) (n : Nat) :
    (Line.served (flushesAt tr) (commitsAt tr) (issuesAt tr) n).length =
      if (tr n).status = .running then (tr n).shift else 0 := by
  unfold Line.served
  rw [← liveIds_line]
  by_cases hrun : (tr n).status = .running
  · rw [if_pos hrun]
    by_cases hc : (tr n).committing = true
    · obtain ⟨x, hx, -⟩ := (committing_iff (h.inv n).rob).mp hc
      obtain ⟨a, ha, -⟩ := head_id h hx
      simp [commitsAt, running, hrun, hc, shift, ha]
    · simp [commitsAt, hc, shift]
  · simp [commitsAt, running, hrun]

/-- HALT commits and is not counted. -/
theorem length_committedIds (h : IsRun tr) (n : Nat) :
    (committedIds tr n).length = retired tr n + if (tr n).status = .halted then 1 else 0 := by
  induction n with
  | zero => rw [if_neg h.start_not_halted]; rfl
  | succ n ih =>
    rw [committedIds, Line.servedLog_succ, List.length_append, length_served h, ← committedIds, ih, retired, h.step]
    by_cases hrun : (tr n).status = .running
    · rw [if_pos hrun, if_neg (by rw [hrun]; decide)]
      cases hh : (tr n).halts with
      | true =>
        obtain ⟨x, hx, hr, -⟩ := halts_head (h.inv n) hh
        have hc : (tr n).committing = true := (committing_iff (h.inv n).rob).mpr ⟨x, hx, hr⟩
        rw [retires_halts hh, if_pos (halted_tick (h.inv n) hrun hh), shift, if_pos hc]
      | false =>
        have hne : (tr n).tick.status ≠ .halted := by
          intro hc
          rw [halts_of_tick (h.inv n) hrun hc] at hh
          cases hh
        rw [retires_running hrun hh, if_neg hne]
        omega
    · rw [if_neg hrun, retires_stopped hrun, tick_of_stopped hrun]
      omega

/-! ## Everyone leaves -/

/-- Who is gone has committed or was flushed in between. -/
theorem leaves_by {m : Nat} (hid : id ∈ liveIds tr n) (hgone : id ∉ liveIds tr (n + m)) :
    ∃ k, n ≤ k ∧ k < n + m ∧ (Commits tr k id ∨ Flushes tr k id) := by
  induction m with
  | zero => exact absurd hid hgone
  | succ m ih =>
    by_cases hmid : id ∈ liveIds tr (n + m)
    · refine ⟨n + m, Nat.le_add_right n m, Nat.lt_succ_self _, ?_⟩
      by_contra hno
      rw [not_or] at hno
      exact hgone (stays hmid hno.1 hno.2)
    · obtain ⟨k, hle, hlt, hk⟩ := ih hmid
      exact ⟨k, hle, Nat.lt_succ_of_lt hlt, hk⟩

theorem length_liveIds (h : IsRun tr) (n : Nat) : (liveIds tr n).length ≤ ReorderBuffer.kCapacity := by
  have hlen : (liveIds tr n).length = (tr n).rob.live.length := by
    rw [← List.length_map (f := tagOf tr), ids_tags h, RobState.tags, List.length_map]
  rw [hlen, ReorderBuffer.length_live]
  exact (h.inv n).rob.ring.count_le

/-- A live instruction is gone within 36 cycles for each entry of the reorder buffer, or the
    machine has stopped. -/
theorem leaves_within (h : IsRun tr) (hid : id ∈ liveIds tr n) :
    (tr (n + cyclesPerCommit * ReorderBuffer.kCapacity)).status ≠ .running ∨
      id ∉ liveIds tr (n + cyclesPerCommit * ReorderBuffer.kCapacity) := by
  rcases retires_many h n ReorderBuffer.kCapacity with hstop | hmany
  · exact Or.inl hstop
  · right
    intro hlate
    have hlen := length_liveIds h n
    rw [liveIds_line] at hid hlate hlen
    have hlt := Line.served_before hlate (Line.waiting_lt hid) (Nat.le_add_right n _)
    rw [← committedIds, ← committedIds, length_committedIds h, length_committedIds h] at hlt
    by_cases hh : (tr n).status = .halted
    · rw [h.frozen (by rw [hh]; decide) (Nat.le_add_right n _), if_pos hh] at hlt
      omega
    · rw [if_neg hh] at hlt
      omega

end Core

namespace Cpu

open TomasuloCpu.Core

/-- Every instruction that was issued has committed, was flushed by a head that commits in
    front of it, or is live, and only one of these. Commits go by the order of issue, in front
    of all that live. The counter counts them up to HALT, the reorder buffer holds those that live, and none of them stays for
    36 * 32 cycles. -/
theorem instructions_accounted (cpu : Cpu) (input : Istream) (n : Nat) :
    (committedIds (cpu.history input) n ++
        (flushedIds (cpu.history input) n ++ liveIds (cpu.history input) n)).Perm
      (issuedIds (cpu.history input) n) ∧
    (∀ id, (id ∈ committedIds (cpu.history input) n ↔ ∃ k < n, Commits (cpu.history input) k id) ∧
      (id ∈ flushedIds (cpu.history input) n ↔ ∃ k < n, Flushes (cpu.history input) k id)) ∧
    (committedIds (cpu.history input) n ++ liveIds (cpu.history input) n).Pairwise (· < ·) ∧
    (liveIds (cpu.history input) n).map (tagOf (cpu.history input)) =
      RobState.tags (cpu.history input n).rob.live ∧
    (n < 2 ^ 64 → (committedIds (cpu.history input) n).length =
      ((cpu.load input).2.cycles n).committedCount.toNat +
        if ((cpu.load input).2.cycles n).status = .halted then 1 else 0) ∧
    ∀ id ∈ liveIds (cpu.history input) n, ((cpu.load input).2.cycles (n + 1152)).status = .running →
      ∃ k, n ≤ k ∧ k < n + 1152 ∧
        (Commits (cpu.history input) k id ∨ Flushes (cpu.history input) k id) := by
  have h := history_isRun cpu input
  refine ⟨?_, fun id => ⟨mem_committedIds, mem_flushedIds⟩, ?_, ids_tags h n, fun hn => ?_, fun id hid hrun => ?_⟩
  · rw [liveIds_line]
    exact Line.accounting _ _ _ n
  · rw [liveIds_line]
    exact Line.served_sorted _ _ _ n
  · have hcount : ((cpu.load input).2.cycles n).committedCount.toNat = retired (cpu.history input) n :=
      committedCount_toNat h hn
    rw [hcount]
    exact length_committedIds h n
  · have hcycles : cyclesPerCommit * ReorderBuffer.kCapacity = 1152 := rfl
    have hgone := leaves_within h hid
    rw [hcycles] at hgone
    rw [cycles_status] at hrun
    exact leaves_by hid (hgone.resolve_left fun hstop => hstop hrun)

theorem instructions_accounted_sample :
    (committedIds ((new fun _ => baseOrders).history sampleImage) 19).length = (sample 19).committedCount.toNat + 1 := by
  have hstatus : (sample 19).status = .halted := by
    rw [(sample_counts 19).2]
    decide +kernel
  exact ((instructions_accounted (new fun _ => baseOrders) sampleImage 19).2.2.2.2.1 (by omega)).trans
    (congrArg _ (if_pos hstatus))

end Cpu

end TomasuloCpu
