/-
  TomasuloCpu.Tomasulo.Coherence — renaming and waiting operands, as the modules show them.

  The rename table answers with the youngest live writer (`rename_table_coherence`), and
  an operand that is not ready names an older live instruction that is still to
  broadcast it (`no_lost_wakeup`).
-/
import TomasuloCpu.Tomasulo.Reachable

namespace TomasuloCpu

open Keyed

namespace Core

variable {s : Core}

/-- `t` is the tag of the youngest live entry that writes `r`. -/
def YoungestWriter (s : Core) (r : RegisterIndex) (t : RobTag) : Prop :=
  ∃ (i : Nat) (e : RobEntry), s.rob.live[i]? = some e ∧ e.tag = t ∧ e.writesRd = true ∧ e.rd = r ∧
    ∀ j x, i < j → s.rob.live[j]? = some x → ¬ (x.writesRd = true ∧ x.rd = r)

theorem writesTo_iff {r : RegisterIndex} {e : RobEntry} : writesTo r e = true ↔ e.writesRd = true ∧ e.rd = r := by
  simp [writesTo]

theorem lookup_youngest (h : Inv s) {r : RegisterIndex} (h0 : r ≠ 0) (hlt : r.toNat < 32) :
    ((RenameTable.lookup s.rat r).valid = true ↔ ∃ e ∈ s.rob.live, e.writesRd = true ∧ e.rd = r) ∧
      ((RenameTable.lookup s.rat r).valid = true → s.YoungestWriter r (RenameTable.lookup s.rat r)) := by
  rw [lookup_rat h h0 hlt]
  cases hk : latest (·.tag) (writesTo r) s.rob.live with
  | none =>
    refine ⟨⟨fun hc => (by cases hc), fun ⟨e, he, hw⟩ => ?_⟩, fun hc => by cases hc⟩
    have := latest_none hk e he
    rw [writesTo_iff.mpr hw] at this
    cases this
  | some t =>
    obtain ⟨i, e, hi, hw, ht, hlast⟩ := latest_index hk
    have he := List.mem_of_getElem? hi
    have hw := writesTo_iff.mp hw
    refine ⟨⟨fun _ => ⟨e, he, hw⟩, fun _ => ?_⟩, fun _ => ⟨i, e, hi, ht, hw.1, hw.2, fun j x hj hx hc => ?_⟩⟩
    · rw [Option.getD_some, ← ht]
      exact ReorderBuffer.live_tag_valid h.rob he
    · have := hlast j x hj hx
      rw [writesTo_iff.mpr hc] at this
      cases this

/-- `x` waits, in the instruction tagged `t`, for an older live writer that has not
    finished. -/
def WaitsForOlder (s : Core) (t : RobTag) (x : Operand) : Prop :=
  x.tag.valid = true ∧ ∃ (i j : Nat) (producer consumer : RobEntry),
    i < j ∧ s.rob.live[i]? = some producer ∧ s.rob.live[j]? = some consumer ∧ producer.tag = x.tag ∧
      consumer.tag = t ∧ producer.writesRd = true ∧ producer.ready = false

theorem Awaits.waitsForOlder (h : Inv s) {t : RobTag} {x : Operand} (hx : Awaits s.rob.live t x)
    (hr : x.ready = false) : s.WaitsForOlder t x := by
  rcases hx with hx | ⟨hb, e, he, het, hw, her⟩
  · rw [hr] at hx; cases hx
  · obtain ⟨i, j, hij, hi, hj⟩ := hb.index
    obtain ⟨p, hp, hpt⟩ := Option.map_eq_some_iff.mp hi
    obtain ⟨c, hc, hct⟩ := Option.map_eq_some_iff.mp hj
    have hpe : p = e := inj h.nodup (List.mem_of_getElem? hp) he (hpt.trans het.symm)
    refine ⟨by rw [← het]; exact ReorderBuffer.live_tag_valid h.rob he, i, j, p, c, hij, hp, hc, hpt, hct, ?_, ?_⟩
    · rw [hpe]; exact hw
    · rw [hpe]; exact her

end Core

namespace Cpu

open TomasuloCpu.Core

/-- The table names, for each of x1 to x31, the youngest live writer if there is one, and
    nothing for x0. -/
theorem rename_table_coherence {cpu : Cpu} (h : Reachable cpu) :
    (∀ r : RegisterIndex, 1 ≤ r.toNat → r.toNat ≤ 31 →
      ((RenameTable.lookup cpu.core.rat r).valid = true ↔ ∃ e ∈ cpu.core.rob.live, e.writesRd = true ∧ e.rd = r) ∧
        ((RenameTable.lookup cpu.core.rat r).valid = true →
          cpu.core.YoungestWriter r (RenameTable.lookup cpu.core.rat r))) ∧
      (RenameTable.lookup cpu.core.rat 0).valid = false := by
  refine ⟨fun r hpos hle => ?_, rfl⟩
  have h0 : r ≠ 0 := by
    rintro rfl
    exact absurd hpos (by decide)
  exact lookup_youngest h.inv h0 (by omega)

/-- Two writers of x2 and x1 are live in the sample after two cycles. -/
theorem rename_table_coherence_sample :
    (RenameTable.lookup (sample 2).core.rat 1).valid = true ∧
      (sample 2).core.YoungestWriter 1 (RenameTable.lookup (sample 2).core.rat 1) := by
  have hv : (RenameTable.lookup (sample 2).core.rat 1).valid = true := by
    rw [sample_core]
    decide +kernel
  exact ⟨hv, ((rename_table_coherence (sample_reachable 2)).1 1 (by decide) (by decide)).2 hv⟩

/-- In every reachable machine, running or stopped, an operand that is not ready (in a busy
    reservation-station slot, as the base of a valid queue slot or as the data of a queued
    store) waits for an older live instruction that writes a register and has not finished. -/
theorem no_lost_wakeup {cpu : Cpu} (h : Reachable cpu) :
    (∀ i < ReservationStation.kCapacity, (cpu.core.rs.entries i).busy = true →
      ((cpu.core.rs.entries i).lhs.ready = false →
        cpu.core.WaitsForOlder (cpu.core.rs.entries i).destination (cpu.core.rs.entries i).lhs) ∧
      ((cpu.core.rs.entries i).rhs.ready = false →
        cpu.core.WaitsForOlder (cpu.core.rs.entries i).destination (cpu.core.rs.entries i).rhs)) ∧
    ∀ i < LoadStoreQueue.kCapacity, (cpu.core.lsq.entries i).valid = true →
      ((cpu.core.lsq.entries i).base.ready = false →
        cpu.core.WaitsForOlder (cpu.core.lsq.entries i).destination (cpu.core.lsq.entries i).base) ∧
      ((cpu.core.lsq.entries i).type = .store → (cpu.core.lsq.entries i).storeData.ready = false →
        cpu.core.WaitsForOlder (cpu.core.lsq.entries i).destination (cpu.core.lsq.entries i).storeData) := by
  have hi := h.inv
  refine ⟨fun i hlt hb => ?_, fun i _ hv => ?_⟩
  · obtain ⟨hl, hr⟩ := hi.rsOperands _ (ReservationStation.mem_waiting.mpr ⟨i, hlt, rfl, hb⟩)
    exact ⟨Awaits.waitsForOlder hi hl, Awaits.waitsForOlder hi hr⟩
  · obtain ⟨hb, hd⟩ := hi.lsqOperands _ (LoadStoreQueue.mem_queue_of_valid hi.lsq hv)
    exact ⟨Awaits.waitsForOlder hi hb, fun ht => Awaits.waitsForOlder hi (hd ht)⟩

/-- After two cycles of the sample the second instruction waits for x1. -/
theorem no_lost_wakeup_sample :
    (sample 2).core.WaitsForOlder ((sample 2).core.rs.entries 0).destination ((sample 2).core.rs.entries 0).lhs := by
  have hbusy : ((sample 2).core.rs.entries 0).busy = true := by rw [sample_core]; decide +kernel
  have hwait : ((sample 2).core.rs.entries 0).lhs.ready = false := by rw [sample_core]; decide +kernel
  exact ((no_lost_wakeup (sample_reachable 2)).1 0 (by decide) hbusy).1 hwait

end Cpu

end TomasuloCpu
