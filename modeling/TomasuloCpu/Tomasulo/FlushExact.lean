/-
  TomasuloCpu.Tomasulo.FlushExact — what a misprediction drops and what it keeps.

  The head that redirects the fetch commits in the same cycle: its register write, its
  count and its next pc stay, everything younger goes. A store is never under way then, for
  a store under way is itself the head and not ready. What the memory port still holds is a
  load whose tag is behind its slot's generation, so no instruction gets it before the port
  lets go (`leftover_kept`).
-/
import TomasuloCpu.Tomasulo.CommitLog
import TomasuloCpu.Tomasulo.Retirement

namespace TomasuloCpu

open Keyed

namespace Core

variable {s : Core} {x : RobEntry} {t : RobTag}

/-! ## The flushing cycle -/

theorem preview_plan (s : Core) :
    s.previewRob.flush = (ReorderBuffer.plan s.rob).outputs.flush ∧
      s.previewRob.redirectPc = (ReorderBuffer.plan s.rob).outputs.redirectPc := by
  obtain ⟨hflush, -⟩ := previewRob_eq s
  refine ⟨hflush, ?_⟩
  have hredirect : s.previewRob.redirectPc =
      if s.previewRob.flush then ((ReorderBuffer.front s.rob).map (·.actualNextPc)).getD 0 else 0 := by
    unfold previewRob
    cases ReorderBuffer.front s.rob with
    | none => rfl
    | some head => rfl
  rw [hredirect, hflush]
  unfold ReorderBuffer.plan
  cases ReorderBuffer.front s.rob with
  | none => rfl
  | some head =>
    cases hr : head.ready with
    | false => simp [ReorderBuffer.planCommit, hr]
    | true => simp [ReorderBuffer.planCommit, hr]

theorem registers_zero_tick (hz : s.registers 0 = 0) : s.tick.registers 0 = 0 := by
  by_cases hrun : s.status = .running
  · rw [tick_eq hrun]
    exact RegisterFile.latch_zero (RegisterFile.apply ⟨s.registers, {}⟩ (registerWrite s.outs))
  · rw [tick_of_stopped hrun]
    exact hz

/-- A ready head leaves no store under way. -/
theorem storing_of_ready (h : Inv s) (hx : s.rob.live.head? = some x) (hr : x.ready = true) :
    s.port.storing = none := by
  cases hs : s.port.storing with
  | none => rfl
  | some t =>
    obtain ⟨y, hy, -, hyr⟩ := h.port.store t hs
    rw [hx, Option.some.injEq] at hy
    rw [← hy, hr] at hyr
    cases hyr

theorem loads_of_storing (hs : s.port.storing = none) :
    (s.port.transaction.valid = true → s.port.transaction.request.type = .load) ∧
      (s.port.response.valid = true → s.port.response.isStore = false) := by
  unfold DataPort.storing at hs
  split at hs
  · cases hs
  · rename_i hc
    split at hs
    · cases hs
    · rename_i hc'
      refine ⟨fun hv => ?_, fun hv => by simpa [hv] using hc'⟩
      cases ht : s.port.transaction.request.type with
      | load => rfl
      | store => simp [hv, ht] at hc

/-! ## Leftovers -/

/-- The tag of the access the port works for. -/
def holding (s : Core) : Option RobTag := s.port.pending.map Prod.fst

/-- A leftover stays one for as long as the port holds it. -/
theorem leftover_kept (h : Inv s) {r : Nat} (hp : s.port.pending = some (t, r)) (hs : s.Stale t r)
    (hnext : s.tick.holding = some t) : ∃ r', s.tick.port.pending = some (t, r') ∧ s.tick.Stale t r' := by
  by_cases hrun : s.status = .running
  · cases port_event h hrun with
    | counting hv hr hp' =>
      rw [DataPort.pending, if_pos hv, Option.some.injEq, Prod.mk.injEq] at hp
      obtain ⟨rfl, rfl⟩ := hp
      refine ⟨s.port.transaction.remainingCycles - 1, by rw [hp', pending_counting hv], ?_⟩
      refine stale_tick hrun h.rob ?_
      rw [Nat.sub_add_cancel (by omega)]
      exact hs
    | responding hv hr hp' =>
      rw [DataPort.pending, if_pos hv, Option.some.injEq, Prod.mk.injEq] at hp
      obtain ⟨rfl, rfl⟩ := hp
      obtain ⟨hvalid, htag, -⟩ := complete_frame s.memory s.port.transaction.request
      refine ⟨0, by rw [hp', pending_responding hvalid, htag], ?_⟩
      refine stale_tick hrun h.rob ?_
      have hone : s.port.transaction.remainingCycles = 0 + 1 := by
        have := (h.port.busy hv).1
        omega
      rw [← hone]
      exact hs
    | @taking e rest hv _ hq _ _ hp' =>
      -- a new request has a live tag
      rw [holding, hp', DataPort.pending, if_pos rfl, Option.map_some, Option.some.injEq] at hnext
      have hlive : e.destination ∈ RobState.tags s.rob.live := queue_tag_live h (by rw [hq]; exact List.mem_cons_self)
      rw [← hnext] at hs
      exact absurd hlive hs.1
    | resting hv _ hp' =>
      rw [holding, hp', pending_resting hv] at hnext
      cases hnext
  · rw [tick_of_stopped hrun]
    exact ⟨r, hp, hs⟩

theorem leftover_never_live (h : Inv s) {r : Nat} (hp : s.port.pending = some (t, r)) (hs : s.Stale t r) {k : Nat}
    (hk : ∀ j ≤ k, (s.after j).holding = some t) : t ∉ RobState.tags (s.after k).rob.live := by
  have hkept : ∃ r', (s.after k).port.pending = some (t, r') ∧ (s.after k).Stale t r' := by
    induction k with
    | zero => exact ⟨r, hp, hs⟩
    | succ k ih =>
      obtain ⟨r', hp', hs'⟩ := ih fun j hj => hk j (Nat.le_succ_of_le hj)
      rw [after_succ]
      exact leftover_kept (inv_after h k) hp' hs' (by rw [← after_succ]; exact hk (k + 1) (Nat.le_refl _))
  obtain ⟨r', -, hs'⟩ := hkept
  exact hs'.1

/-- What a flush leaves in the port has a tag that no later instruction holds. -/
theorem flush_leftover (h : Inv s) (hrun : s.status = .running) (hfl : s.flush = true) {k : Nat}
    (hk : ∀ j ≤ k, (s.tick.after j).holding = some t) : t ∉ RobState.tags (s.tick.after k).rob.live := by
  obtain ⟨⟨t', r⟩, hp, rfl⟩ := Option.map_eq_some_iff.mp (hk 0 (Nat.zero_le k))
  have hp : s.tick.port.pending = some (t', r) := hp
  refine leftover_never_live h.tick hp ?_ hk
  rcases sender_tick h hrun t' r hp with ⟨y, hy, -⟩ | hstale
  · rw [(lsq_tick_flush hrun hfl).1] at hy
    cases hy
  · exact hstale

/-- The instruction that flushes is no HALT. -/
theorem halts_flush (h : Inv s) (hfl : s.flush = true) : s.halts = false := by
  obtain ⟨x, hx, hready, hcontrol, -⟩ := (flush_iff h.rob).mp hfl
  have hok := h.entry x (List.mem_of_mem_head? hx)
  have hop : x.op ≠ .halt := by
    intro hop
    rw [hok.branch, hok.jump, hop] at hcontrol
    cases hcontrol
  rw [halts_eq h hx hready]
  simpa using hop

end Core

namespace Cpu

open TomasuloCpu.Core

theorem Reachable.zero {cpu : Cpu} (h : Reachable cpu) : cpu.core.registers 0 = 0 := by
  induction h with
  | new orders => rfl
  | load h input ih => rfl
  | cycle h ih =>
    rw [core_cycle]
    exact registers_zero_tick ih

/-- A cycle whose ready head was predicted wrong keeps the head's own effects (its register
    write, its count, its next pc) and empties everything else; what is left in the memory
    port is a load that no later instruction is mistaken for. -/
theorem flush_exact {cpu : Cpu} (h : Reachable cpu) (hrun : cpu.status = .running) {head : RobEntry}
    (hfront : ReorderBuffer.front cpu.core.rob = some head) (hready : head.ready = true)
    (hcontrol : ReorderBuffer.isControlInstruction head = true) (hne : head.predictedNextPc ≠ head.actualNextPc) :
    (cpu.core.previewRob.flush = true ∧ (ReorderBuffer.plan cpu.core.rob).outputs.flush = true ∧
      cpu.core.previewRob.redirectPc = (ReorderBuffer.plan cpu.core.rob).outputs.redirectPc) ∧
    cpu.cycle.core.registers =
      (if head.writesRd then Function.update cpu.core.registers head.rd head.value else cpu.core.registers) ∧
    cpu.cycle.core.memory = cpu.core.memory ∧
    Drained cpu.cycle.core ∧
    (∀ r, cpu.cycle.core.rat r = {}) ∧
    cpu.cycle.core.pc = head.actualNextPc ∧
    cpu.cycle.core.fetchStopped = false ∧
    cpu.cycle.committedCount = cpu.committedCount + 1 ∧
    (cpu.cycle.core.port.transaction.valid = true → cpu.cycle.core.port.transaction.request.type = .load) ∧
    (cpu.cycle.core.port.response.valid = true → cpu.cycle.core.port.response.isStore = false) ∧
    ∀ t k, (∀ j ≤ k, (cpu.cycle.cycles j).core.holding = some t) →
      ∀ e ∈ (cpu.cycle.cycles k).core.rob.live, e.tag ≠ t := by
  have hi := h.inv
  have hrun : cpu.core.status = .running := hrun
  have hhead : cpu.core.rob.live.head? = some head := by rw [← ReorderBuffer.front_eq hi.rob]; exact hfront
  have hcontrol' : (head.isBranch || head.isJump) = true := by
    rw [Bool.or_comm]
    exact hcontrol
  have hfl : cpu.core.flush = true := (flush_iff hi.rob).mpr ⟨head, hhead, hready, hcontrol', hne⟩
  have hc : cpu.core.committing = true := committing_of_flush hfl
  obtain ⟨hentry, -, -⟩ := commit_entry hi.rob hhead hready
  obtain ⟨hflush, hredirect⟩ := preview_plan cpu.core
  have hlive : cpu.core.tick.rob.live = [] := live_flush hrun hi.rob hfl
  have hstoring : cpu.core.tick.port.storing = none := storing_of_empty hi.tick hlive
  obtain ⟨hload, hresponse⟩ := loads_of_storing hstoring
  rw [core_cycle]
  refine ⟨⟨hfl, ?_, hredirect⟩, ?_, memory_tick_idle hi hrun (storing_of_ready hi hhead hready), drained hi.tick hlive,
    fun r => ?_, pc_tick_flush hrun hi.rob hfl hhead, ?_, ?_, hload, hresponse, fun t k hk e he ht => ?_⟩
  · rw [← hflush]
    exact hfl
  · rw [registers_tick hi hrun h.zero, hc, hentry, Bool.true_and]
  · rw [rat_tick hi hrun, hlive]
    rfl
  · rw [fetchStopped_eq hrun, hfl]
    rfl
  · show cpu.cycle.core.committedCount = cpu.core.committedCount + 1
    rw [core_cycle, committedCount_tick hi, retires_running hrun (halts_flush hi hfl), shift, if_pos hc]
    rfl
  · rw [core_cycles, core_cycle] at he
    have hnever : t ∉ RobState.tags (cpu.core.tick.after k).rob.live := by
      refine flush_leftover hi hrun hfl fun j hj => ?_
      rw [← core_cycle, ← core_cycles]
      exact hk j hj
    exact hnever (List.mem_map.mpr ⟨e, he, ht⟩)

/-- Two dependent `addi` compute the target 24 of a `jalr x5`, which is predicted to fall
    through into `lw x2, 64(x0)`, `lw x3, 64(x0)` and `add x4, x3, x3`; at 24 is HALT. -/
def jalrImage : Istream :=
  { text := "@0 93 00 80 01 93 80 00 00 E7 82 00 00 03 21 00 04 83 21 00 04 33 82 31 00 13 05 f0 0f".toList }

/-- The cycle that commits the `jalr`, with the `add` in the station, both loads in the queue
    and the first one's response on its way. -/
theorem flush_exact_sample :
    (((new fun _ => baseOrders).load jalrImage).2.cycles 7).core.rob.live.length = 5 ∧
      (((new fun _ => baseOrders).load jalrImage).2.cycles 7).core.rs.waiting.length = 1 ∧
      (((new fun _ => baseOrders).load jalrImage).2.cycles 7).core.lsq.queue.length = 2 ∧
      Drained (((new fun _ => baseOrders).load jalrImage).2.cycles 7).cycle.core ∧
      (((new fun _ => baseOrders).load jalrImage).2.cycles 7).cycle.core.pc = 24 ∧
      (((new fun _ => baseOrders).load jalrImage).2.cycles 7).cycle.core.registers 5 = 12 ∧
      (((new fun _ => baseOrders).load jalrImage).2.cycles 7).cycle.core.port.response.valid = true ∧
      (((new fun _ => baseOrders).load jalrImage).2.cycles 7).cycle.core.port.response.isStore = false := by
  have hreach := ((Reachable.new fun _ => baseOrders).load jalrImage).cycles 7
  have hcore := core_run (new fun _ => baseOrders) jalrImage 7
  obtain ⟨hrun, hhead, hrob, hrs, hlsq, hport⟩ : ((loaded jalrImage).after 7).status = .running ∧
      (ReorderBuffer.front ((loaded jalrImage).after 7).rob).any (fun e =>
        e.ready && ReorderBuffer.isControlInstruction e && e.predictedNextPc != e.actualNextPc &&
          e.actualNextPc == 24 && e.writesRd && e.rd == 5 && e.value == 12) = true ∧
      ((loaded jalrImage).after 7).rob.live.length = 5 ∧ ((loaded jalrImage).after 7).rs.waiting.length = 1 ∧
      ((loaded jalrImage).after 7).lsq.queue.length = 2 ∧
      ((loaded jalrImage).after 7).tick.port.response.valid = true := by decide +kernel
  obtain ⟨head, hfront, hfacts⟩ := (Option.any_eq_true _ _).mp hhead
  simp only [Bool.and_eq_true, bne_iff_ne, beq_iff_eq] at hfacts
  obtain ⟨⟨⟨⟨⟨⟨hready, hcontrol⟩, hne⟩, hactual⟩, hwrites⟩, hrd⟩, hvalue⟩ := hfacts
  have hrun : (((new fun _ => baseOrders).load jalrImage).2.cycles 7).status = .running := by
    rw [cycles_status, history_eq]
    exact hrun
  rw [← hcore] at hfront hrob hrs hlsq hport
  rw [← core_cycle] at hport
  obtain ⟨-, hreg, -, hdrained, -, hpc, -, -, -, hresponse, -⟩ :=
    flush_exact hreach hrun hfront hready hcontrol hne
  refine ⟨hrob, hrs, hlsq, hdrained, hpc.trans hactual, ?_, hport, hresponse hport⟩
  rw [hreg, if_pos hwrites, hrd, Function.update_self, hvalue]

end Cpu

end TomasuloCpu
