/-
  TomasuloCpu.Tomasulo.Places — where an instruction in flight is.

  An unfinished instruction sits in a reservation-station slot, in the integer unit, in
  a load/store-queue slot or in the load-result buffer; `places` lists every one that
  holds a given tag. `length_places` counts them by the tags of the invariant.
-/
import TomasuloCpu.Tomasulo.Reachable

namespace TomasuloCpu

open Keyed

inductive Place where
  | station (slot : Nat)
  | unit
  | queue (slot : Nat)
  | loadBuffer
  deriving DecidableEq, Repr

namespace Core

/-- Every place that holds the tag `t`. -/
def places (s : Core) (t : RobTag) : List Place :=
  (((List.range ReservationStation.kCapacity).filter fun i =>
      (s.rs.entries i).busy && (s.rs.entries i).destination == t).map .station ++
    (if s.fu.valid && s.fu.tag == t then [.unit] else [])) ++
  (((List.range LoadStoreQueue.kCapacity).filter fun i =>
      (s.lsq.entries i).valid && (s.lsq.entries i).destination == t).map .queue ++
    (if s.lsq.loadResult.valid && s.lsq.loadResult.tag == t then [.loadBuffer] else []))

variable {s : Core}

theorem count_holds (r : FuResult) (t : RobTag) : (holds r).count t = if r.valid && r.tag == t then 1 else 0 := by
  unfold holds
  cases hv : r.valid with
  | false => rfl
  | true => simp [List.count_singleton]

theorem length_places (h : Inv s) (t : RobTag) :
    (s.places t).length =
      (pending (·.tag) aluWaiting s.rob.live).count t + (pending (·.tag) memWaiting s.rob.live).count t := by
  have hrs := Slots.length_filter_key (n := ReservationStation.kCapacity) (f := s.rs.entries) (p := (·.busy))
    (·.destination) t
  have hlsq := Slots.length_filter_key (n := LoadStoreQueue.kCapacity) (f := s.lsq.entries) (p := (·.valid))
    (·.destination) t
  rw [((LoadStoreQueue.valid_perm h.lsq).map _).count_eq] at hlsq
  rw [← h.alu.count_eq, ← h.mem, List.count_append, List.count_append, count_holds, count_holds]
  unfold places
  simp only [List.length_append, List.length_map]
  rw [hrs, hlsq]
  have hif : ∀ (c : Bool) (p : Place), (if c then [p] else []).length = if c then 1 else 0 := by
    intro c p
    cases c <;> rfl
  rw [hif, hif]
  show ((s.rs.waiting.map (·.destination)).count t + _) + _ = _
  omega

/-- A live tag names one entry. -/
theorem filter_live_tag (h : Inv s) {e : RobEntry} (he : e ∈ s.rob.live) :
    (s.rob.live.filter fun x => x.tag == e.tag) = [e] := by
  have hn : s.rob.live.Nodup := h.nodup.of_map _
  have hall : ∀ x, x ∈ (s.rob.live.filter fun x => x.tag == e.tag) ↔ x ∈ [e] := by
    intro x
    simp only [List.mem_filter, beq_iff_eq, List.mem_singleton]
    constructor
    · rintro ⟨hx, ht⟩
      exact inj h.nodup hx he ht
    · rintro rfl
      exact ⟨he, rfl⟩
  exact List.perm_singleton.mp ((List.perm_ext_iff_of_nodup (hn.filter _) (List.nodup_singleton e)).mpr hall)

/-- `t` is the tag of exactly one live entry, which is not ready and of the kind `q`. -/
def Owns (s : Core) (q : Op → Bool) (t : RobTag) : Prop :=
  ∃ e, (s.rob.live.filter fun x => x.tag == t) = [e] ∧ e.ready = false ∧ q e.op = true

theorem owns_pending (h : Inv s) {q : Op → Bool} {t : RobTag} (ht : t ∈ pending (·.tag) (waits q) s.rob.live) :
    s.Owns q t := by
  obtain ⟨e, he, hw, rfl⟩ := mem_pending.mp ht
  simp only [waits, Bool.and_eq_true, Bool.not_eq_true'] at hw
  exact ⟨e, filter_live_tag h he, hw.1, hw.2⟩

/-- Neither a memory operation nor HALT. -/
def integerOp (op : Op) : Bool := !op.isMemory && op != .halt

theorem Owns.integer {t : RobTag} (h : s.Owns Op.isAlu t) : s.Owns integerOp t := by
  obtain ⟨e, he, hr, hq⟩ := h
  simp only [Op.isAlu, Bool.and_eq_true] at hq
  exact ⟨e, he, hr, by simp only [integerOp, Bool.and_eq_true]; exact hq.1⟩

theorem count_pending_of_mem (h : Inv s) {q : Op → Bool} {e : RobEntry} (he : e ∈ s.rob.live) :
    (pending (·.tag) (waits q) s.rob.live).count e.tag = if waits q e then 1 else 0 := by
  by_cases hw : waits q e = true
  · rw [if_pos hw]
    exact List.count_eq_one_of_mem (nodup_pending h.nodup) (mem_pending.mpr ⟨e, he, hw, rfl⟩)
  · rw [if_neg hw]
    exact List.count_eq_zero_of_not_mem fun hm => hw (of_key_mem_pending h.nodup he hm)

theorem length_places_live (h : Inv s) {e : RobEntry} (he : e ∈ s.rob.live) :
    (s.places e.tag).length = if e.ready then 0 else 1 := by
  have hcount := fun q : Op → Bool => count_pending_of_mem h (q := q) he
  rw [length_places h, aluWaiting, memWaiting, hcount, hcount]
  have hok := h.entry e he
  cases hr : e.ready with
  | true => simp [waits, hr]
  | false =>
    have hh : e.op ≠ .halt := fun hh => by rw [hok.halt hh] at hr; cases hr
    cases hm : e.op.isMemory with
    | true => simp [waits, hr, hm, Op.isAlu]
    | false => simp [waits, hr, hm, Op.isAlu_of hm hh hok.op_ne]

end Core

namespace Cpu

open TomasuloCpu.Core

/-- In every reachable machine an unfinished live instruction is in exactly one place
    and a finished one in none; and whatever a place holds belongs to exactly one live
    unfinished instruction of the kind that place is for. -/
theorem instruction_conservation {cpu : Cpu} (h : Reachable cpu) :
    (∀ e ∈ cpu.core.rob.live, e.ready = false → ∃ p, cpu.core.places e.tag = [p]) ∧
      (∀ e ∈ cpu.core.rob.live, e.ready = true → cpu.core.places e.tag = []) ∧
      (∀ i < ReservationStation.kCapacity, (cpu.core.rs.entries i).busy = true →
        cpu.core.Owns integerOp (cpu.core.rs.entries i).destination) ∧
      (cpu.core.fu.valid = true → cpu.core.Owns integerOp cpu.core.fu.tag) ∧
      (∀ i < LoadStoreQueue.kCapacity, (cpu.core.lsq.entries i).valid = true →
        cpu.core.Owns Op.isMemory (cpu.core.lsq.entries i).destination) ∧
      (cpu.core.lsq.loadResult.valid = true → cpu.core.Owns Op.isLoad cpu.core.lsq.loadResult.tag) := by
  have hi := h.inv
  refine ⟨fun e he hr => ?_, fun e he hr => ?_, fun i hi' hb => ?_, fun hv => ?_, fun i _ hv => ?_, fun hv => ?_⟩
  · have hl := length_places_live hi he
    rw [hr] at hl
    exact List.length_eq_one_iff.mp hl
  · have hl := length_places_live hi he
    rw [hr] at hl
    exact List.eq_nil_of_length_eq_zero hl
  · have hm := ReservationStation.mem_waiting.mpr ⟨i, hi', rfl, hb⟩
    refine (owns_pending hi ?_).integer
    exact hi.alu.mem_iff.mp (List.mem_append_left _ (List.mem_map_of_mem hm))
  · exact (owns_pending hi (hi.fu_pending hv)).integer
  · exact owns_pending hi (hi.queue_pending (LoadStoreQueue.mem_queue_of_valid hi.lsq hv))
  · obtain ⟨e, he, ht, hl⟩ := hi.loaded hv
    obtain ⟨x, hx, hr, -⟩ := owns_pending hi (hi.loadResult_pending hv)
    have hxe : x = e := by
      rw [← ht, filter_live_tag hi he] at hx
      simpa using hx.symm
    exact ⟨x, hx, hr, by rw [hxe]; exact hl⟩

/-- Three instructions of the sample are in flight after three cycles. -/
theorem instruction_conservation_sample :
    (sample 3).core.rob.live.length = 3 ∧
      (∀ e ∈ (sample 3).core.rob.live, e.ready = false → ∃ p, (sample 3).core.places e.tag = [p]) ∧
      ∀ e ∈ (sample 3).core.rob.live, e.ready = true → (sample 3).core.places e.tag = [] := by
  obtain ⟨hone, hnone, -⟩ := instruction_conservation (sample_reachable 3)
  refine ⟨?_, hone, hnone⟩
  rw [sample_core]
  decide +kernel

end Cpu

end TomasuloCpu
