/-
  TomasuloCpu.Tomasulo.LoadStoreQueueProofs — the load/store queue as a bounded queue.

  `queue` is the list of accesses from head to tail. Under `Wf` the plan looks only at
  its first element (`plan_nil`, `plan_cons`) and one cycle is `step_spec`: a broadcast
  wakes every access, a finished head leaves or a sent one is marked, an accepted issue
  is appended, and every access whose base has arrived gets its address.
-/
import TomasuloCpu.Lib.Ring
import TomasuloCpu.Tomasulo.LoadStoreQueue

namespace TomasuloCpu

namespace LsqState

def ring (s : LsqState) : Ring LsqEntry := ⟨s.entries, s.head, s.tail, s.count⟩

/-- The accesses in program order. -/
def queue (s : LsqState) : List LsqEntry := s.ring.contents LoadStoreQueue.kCapacity

structure Wf (s : LsqState) : Prop where
  ring : s.ring.Wf LoadStoreQueue.kCapacity
  valid : ∀ i < s.count, (s.entries (s.ring.slot LoadStoreQueue.kCapacity i)).valid = true
  blank : s.ring.Outside LoadStoreQueue.kCapacity (· = {})

end LsqState

namespace LoadStoreQueue

open LsqState

variable {s : LsqState}

theorem length_queue : s.queue.length = s.count := Ring.length_contents

theorem queue_valid (hs : s.Wf) {e : LsqEntry} (he : e ∈ s.queue) : e.valid = true := by
  obtain ⟨i, hi, rfl⟩ := Ring.mem_contents.mp he
  exact hs.valid i hi

theorem full_eq : full s = (s.queue.length == 16) := by rw [length_queue]; rfl

/-- A valid slot is a slot of the queue. -/
theorem mem_queue_of_valid (hs : s.Wf) {j : Nat} (h : (s.entries j).valid = true) : s.entries j ∈ s.queue := by
  by_cases hw : s.ring.InWindow kCapacity j
  · obtain ⟨i, hi, rfl⟩ := hw
    exact Ring.mem_contents.mpr ⟨i, hi, rfl⟩
  · have hb : s.entries j = {} := hs.blank j hw
    rw [hb] at h
    cases h

/-- The valid slots hold the queue. -/
theorem valid_perm (hs : s.Wf) : (Slots.occupied kCapacity (·.valid) s.entries).Perm s.queue := by
  refine Ring.occupied_perm hs.ring fun j _ => ⟨fun h => ?_, ?_⟩
  · by_contra hw
    have hb : s.entries j = {} := hs.blank j hw
    have h : (s.entries j).valid = true := h
    rw [hb] at h
    cases h
  · rintro ⟨i, hi, rfl⟩
    exact hs.valid i hi

theorem queue_cons (hs : s.Wf) (h : 0 < s.count) : s.queue = s.entries s.head :: s.queue.tail :=
  Ring.contents_cons hs.ring h

theorem entries_head (hs : s.Wf) {e : LsqEntry} {rest : List LsqEntry} (h : s.queue = e :: rest) :
    s.entries s.head = e := by
  have hpos : 0 < s.count := by rw [← length_queue, h]; exact Nat.succ_pos _
  have := queue_cons hs hpos
  rw [h, List.cons.injEq] at this
  exact this.1.symm

theorem resetState_wf : resetState.Wf :=
  ⟨⟨by decide, rfl, by decide⟩, fun _ h => absurd h (Nat.not_lt_zero _), fun _ _ => rfl⟩

@[simp] theorem resetState_queue : resetState.queue = [] := rfl

/-! ## The plan -/

theorem plan_flush (s : LsqState) {inputs : LsqObserveInputs} (h : inputs.flush = true) : plan s inputs = {} := by
  rw [plan, if_pos h]

/-- What the plan decides before it looks at the head. -/
def planClear (s : LsqState) (inputs : LsqObserveInputs) : LsqDecision :=
  { clearLoadResult := inputs.loadResultGranted && s.loadResult.valid }

theorem plan_nil (h : s.queue = []) {inputs : LsqObserveInputs} (hf : inputs.flush = false) :
    plan s inputs = planClear s inputs := by
  have hc : s.count = 0 := by rw [← length_queue, h]; rfl
  unfold plan
  simp only [hf, Bool.false_eq_true, if_false]
  rw [if_pos (by simp [empty, hc])]
  rfl

theorem plan_cons (hs : s.Wf) {e : LsqEntry} {rest : List LsqEntry} (h : s.queue = e :: rest)
    {inputs : LsqObserveInputs} (hf : inputs.flush = false) :
    plan s inputs = planSend s e inputs (planResponse e inputs.memoryResponse (planClear s inputs)) := by
  have hc : s.count ≠ 0 := by rw [← length_queue, h]; exact Nat.succ_ne_zero _
  unfold plan
  simp only [hf, Bool.false_eq_true, if_false]
  rw [if_neg (by simp [empty, hc]), entries_head hs h]
  rfl

/-! ## One access -/

/-- A broadcast at a queued access. -/
def wake (cdb : CdbMsg) (e : LsqEntry) : LsqEntry :=
  { e with
    base := wakeOperand e.base cdb
    storeData := if e.type = .store then wakeOperand e.storeData cdb else e.storeData }

theorem wakeEntry_of_valid {e : LsqEntry} (h : e.valid = true) (cdb : CdbMsg) : wakeEntry e cdb = wake cdb e := by
  rw [wakeEntry, if_pos h, wake]
  simp only []
  split <;> rfl

theorem wakeEntry_blank (cdb : CdbMsg) : wakeEntry {} cdb = {} := rfl

theorem wakeEntry_valid (e : LsqEntry) (cdb : CdbMsg) : (wakeEntry e cdb).valid = e.valid := by
  unfold wakeEntry
  simp only []
  split
  · split <;> rfl
  · rfl

theorem updateAddress_valid (e : LsqEntry) : (updateAddress e).valid = e.valid := by
  unfold updateAddress; split <;> rfl

/-- Computing the address changes nothing else. -/
theorem updateAddress_frame (e : LsqEntry) :
    (updateAddress e).destination = e.destination ∧ (updateAddress e).op = e.op ∧ (updateAddress e).type = e.type ∧
      (updateAddress e).immediate = e.immediate ∧ (updateAddress e).requestSent = e.requestSent ∧
      (updateAddress e).base = e.base ∧ (updateAddress e).storeData = e.storeData := by
  unfold updateAddress
  split <;> exact ⟨rfl, rfl, rfl, rfl, rfl, rfl, rfl⟩

@[simp] theorem updateAddress_destination (e : LsqEntry) : (updateAddress e).destination = e.destination :=
  (updateAddress_frame e).1

@[simp] theorem wake_destination (cdb : CdbMsg) (e : LsqEntry) : (wake cdb e).destination = e.destination := rfl

def sent (e : LsqEntry) : LsqEntry := { e with requestSent := true }

/-! ## One cycle -/

/-- The queue after the head was served: gone, or marked as sent. -/
def serve (d : LsqDecision) (l : List LsqEntry) : List LsqEntry :=
  if d.removeHead then l.tail else if d.markRequestSent then l.modifyHead sent else l

theorem woken_spec (hs : s.Wf) (cdb : CdbMsg) (r : FuResult) :
    LsqState.Wf { s with entries := fun i => wakeEntry (s.entries i) cdb, loadResult := r } ∧
      LsqState.queue { s with entries := fun i => wakeEntry (s.entries i) cdb, loadResult := r } =
        s.queue.map (wake cdb) := by
  refine ⟨⟨Ring.wf_map (f := fun e => wakeEntry e cdb) hs.ring, fun i hi => ?_, ?_⟩, ?_⟩
  · exact (wakeEntry_valid _ cdb).trans (hs.valid i hi)
  · refine Ring.outside_map (f := fun e => wakeEntry e cdb) (P := (· = {})) (fun e he => ?_) hs.blank
    rw [he, wakeEntry_blank]
  · refine (Ring.contents_map (n := kCapacity) (q := s.ring) (fun e => wakeEntry e cdb)).trans ?_
    exact List.map_congr_left fun e he => wakeEntry_of_valid (queue_valid hs he) cdb

theorem removeNextHead_spec (hs : s.Wf) (h : 0 < s.count) :
    (removeNextHead s).Wf ∧ (removeNextHead s).queue = s.queue.tail := by
  have hring : (removeNextHead s).ring = s.ring.pop kCapacity {} := rfl
  refine ⟨⟨by rw [hring]; exact Ring.wf_pop hs.ring h _, fun i hi => ?_, ?_⟩, ?_⟩
  · have hi' : i + 1 < s.count := by
      have : i < s.count - 1 := hi
      omega
    have h0 : s.ring.slot kCapacity 0 = s.head := Nat.mod_eq_of_lt hs.ring.head_lt
    have hle : s.count ≤ kCapacity := hs.ring.count_le
    have hne : s.ring.slot kCapacity (i + 1) ≠ s.head := fun e => by
      have := Ring.slot_inj (by omega) (show 0 < kCapacity by decide) (e.trans h0.symm)
      omega
    rw [hring, Ring.slot_pop]
    show (Function.update s.entries s.head {} _).valid = true
    rw [Function.update_of_ne hne]
    exact hs.valid (i + 1) hi'
  · rw [hring]; exact Ring.outside_pop hs.ring hs.blank rfl
  · rw [queue, hring]; exact Ring.contents_pop hs.ring _

theorem markSent_spec (hs : s.Wf) (h : 0 < s.count) :
    LsqState.Wf { s with entries := Function.update s.entries s.head (sent (s.entries s.head)) } ∧
      LsqState.queue { s with entries := Function.update s.entries s.head (sent (s.entries s.head)) } =
        s.queue.modifyHead sent := by
  refine ⟨⟨Ring.wf_modify hs.ring s.head sent, fun i hi => ?_, fun j hj => ?_⟩, Ring.contents_modify_head hs.ring sent⟩
  · show (Function.update s.entries s.head (sent (s.entries s.head)) (s.ring.slot kCapacity i)).valid = true
    by_cases e : s.ring.slot kCapacity i = s.head
    · rw [e, Function.update_self, ← e]
      exact hs.valid i hi
    · rw [Function.update_of_ne e]
      exact hs.valid i hi
  · have h0 : s.ring.slot kCapacity 0 = s.head := Nat.mod_eq_of_lt hs.ring.head_lt
    have hne : j ≠ s.head := fun e => hj ⟨0, h, e.trans h0.symm⟩
    show Function.update s.entries s.head (sent (s.entries s.head)) j = {}
    rw [Function.update_of_ne hne]
    exact hs.blank j hj

/-- A removal and a mark, each only of a head that is there and never both. -/
structure Serves (s : LsqState) (d : LsqDecision) : Prop where
  remove : d.removeHead = true → 0 < s.count
  mark : d.markRequestSent = true → 0 < s.count
  apart : ¬ (d.removeHead = true ∧ d.markRequestSent = true)

theorem advance_spec (hs : s.Wf) (inputs : LsqInputs) {d : LsqDecision} (hd : Serves s d) :
    (advance s inputs d).Wf ∧ (advance s inputs d).queue = serve d (s.queue.map (wake inputs.cdb)) ∧
      (advance s inputs d).count ≤ s.count ∧ (advance s inputs d).loadResult =
        if d.installLoadResult then d.completedLoadResult else if d.clearLoadResult then {} else s.loadResult := by
  unfold advance
  generalize hr : (if d.installLoadResult = true then d.completedLoadResult
    else if d.clearLoadResult = true then {} else s.loadResult) = r
  obtain ⟨hw, hl⟩ := woken_spec hs inputs.cdb r
  simp only [hr]
  by_cases h1 : d.removeHead = true
  · have h2 : d.markRequestSent ≠ true := fun h2 => hd.apart ⟨h1, h2⟩
    obtain ⟨hpw, hpl⟩ := removeNextHead_spec hw (hd.remove h1)
    rw [if_pos h1, if_neg h2, serve, if_pos h1]
    refine ⟨hpw, by rw [hpl, hl], ?_, rfl⟩
    show s.count - 1 ≤ s.count
    omega
  · rw [if_neg h1, serve, if_neg h1]
    by_cases h2 : d.markRequestSent = true
    · obtain ⟨hmw, hml⟩ := markSent_spec hw (hd.mark h2)
      rw [if_pos h2, if_pos h2, ← hl]
      exact ⟨hmw, hml, Nat.le_refl _, rfl⟩
    · rw [if_neg h2, if_neg h2]
      exact ⟨hw, hl, Nat.le_refl _, rfl⟩

/-- The entry an accepted issue appends. -/
def queued (e : LsqEntry) : LsqEntry := { e with valid := true, requestSent := false }

theorem allocate_spec (hs : s.Wf) (room : s.count < 16) (e : LsqEntry) :
    (allocate s e).Wf ∧ (allocate s e).queue = s.queue ++ [queued e] := by
  have hring : (allocate s e).ring = s.ring.push kCapacity (queued e) := rfl
  refine ⟨⟨by rw [hring]; exact Ring.wf_push hs.ring room _, fun i hi => ?_, ?_⟩, ?_⟩
  · have hslot : (allocate s e).ring.slot kCapacity i = s.ring.slot kCapacity i := rfl
    rw [hslot]
    show (Function.update s.entries s.tail (queued e) _).valid = true
    by_cases h : i = s.count
    · have ht : s.ring.slot kCapacity i = s.tail := by
        rw [h]; exact (Ring.tail_eq_slot hs.ring).symm
      rw [ht, Function.update_self]
      rfl
    · have hi' : i < s.count := by
        have : i < s.count + 1 := hi
        omega
      have hne : s.ring.slot kCapacity i ≠ s.tail := fun h => Ring.tail_not_inWindow hs.ring room ⟨i, hi', h.symm⟩
      rw [Function.update_of_ne hne]
      exact hs.valid i hi'
  · rw [hring]; exact Ring.outside_push hs.ring hs.blank _
  · rw [queue, hring]; exact Ring.contents_push hs.ring room _

theorem updateAddresses_spec (hs : s.Wf) :
    (updateAddresses s).Wf ∧ (updateAddresses s).queue = s.queue.map updateAddress := by
  refine ⟨⟨Ring.wf_map (f := updateAddress) hs.ring, fun i hi => ?_, ?_⟩,
    Ring.contents_map (n := kCapacity) (q := s.ring) updateAddress⟩
  · exact (updateAddress_valid _).trans (hs.valid i hi)
  · refine Ring.outside_map (f := updateAddress) (P := (· = {})) (fun e he => ?_) hs.blank
    rw [he]; rfl

theorem step_flush (s : LsqState) {inputs : LsqInputs} (h : inputs.flush = true) (d : LsqDecision) :
    (step s inputs d).2 = resetState := by rw [step, if_pos h]

theorem step_spec (hs : s.Wf) (inputs : LsqInputs) (hf : inputs.flush = false) {d : LsqDecision} (hd : Serves s d) :
    (step s inputs d).2.Wf ∧
      (step s inputs d).2.queue =
        (serve d (s.queue.map (wake inputs.cdb)) ++
          if accepts s inputs then [queued inputs.issueEntry] else []).map updateAddress ∧
      (step s inputs d).2.loadResult =
        if d.installLoadResult then d.completedLoadResult else if d.clearLoadResult then {} else s.loadResult := by
  obtain ⟨hw, hl, hc, hr⟩ := advance_spec hs inputs hd
  rw [step, if_neg (by simp [hf])]
  simp only []
  by_cases ha : accepts s inputs = true
  · have hroom : (advance s inputs d).count < 16 := by
      simp only [accepts, full, kCapacity, Bool.and_eq_true, Bool.not_eq_true', beq_eq_false_iff_ne] at ha
      have : s.count ≤ 16 := hs.ring.count_le
      omega
    obtain ⟨haw, hal⟩ := allocate_spec hw hroom inputs.issueEntry
    obtain ⟨huw, hul⟩ := updateAddresses_spec haw
    rw [if_pos ha, if_pos ha]
    exact ⟨huw, by rw [hul, hal, hl], hr⟩
  · obtain ⟨huw, hul⟩ := updateAddresses_spec hw
    rw [if_neg ha, if_neg ha, List.append_nil]
    exact ⟨huw, by rw [hul, hl], hr⟩

end LoadStoreQueue

end TomasuloCpu
