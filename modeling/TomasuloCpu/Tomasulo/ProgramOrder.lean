/-
  TomasuloCpu.Tomasulo.ProgramOrder — the memory queue follows the reorder buffer.

  `mem_tick`: the load-result buffer and the queue hold, oldest first, exactly the live
  memory instructions that are not ready, through grant, response, flush and issue. The
  rest is what a queued access keeps: its address, its operands once sent, and that only
  the head is ever sent.
-/
import TomasuloCpu.Tomasulo.Conservation

namespace TomasuloCpu

open Keyed

namespace Core

variable {s : Core}

/-! ## The queue after a cycle -/

/-- The queue without the issue of the cycle, before addresses are computed. -/
def served (s : Core) : List LsqEntry :=
  LoadStoreQueue.serve s.lsqDecision (s.lsq.queue.map (LoadStoreQueue.wake s.broadcast))

theorem queue_tick (h : Inv s) (hrun : s.status = .running) (hfl : s.flush = false) :
    s.tick.lsq.queue = (s.served ++ s.newLsq).map LoadStoreQueue.updateAddress :=
  (tick_lsq hrun h.lsq hfl (serves h hfl)).2.1

theorem loadResult_tick (h : Inv s) (hrun : s.status = .running) (hfl : s.flush = false) :
    s.tick.lsq.loadResult =
      if s.lsqDecision.installLoadResult then s.lsqDecision.completedLoadResult
      else if s.lsqDecision.clearLoadResult then {} else s.lsq.loadResult :=
  (tick_lsq hrun h.lsq hfl (serves h hfl)).2.2

theorem lsq_tick_flush (hrun : s.status = .running) (hfl : s.flush = true) :
    s.tick.lsq.queue = [] ∧ s.tick.lsq.loadResult = {} := by
  rw [tick_lsq_flush hrun hfl]
  exact ⟨rfl, rfl⟩

theorem lsq_wf_tick (h : Inv s) (hrun : s.status = .running) : s.tick.lsq.Wf := by
  by_cases hfl : s.flush = true
  · rw [tick_lsq_flush hrun hfl]
    exact LoadStoreQueue.resetState_wf
  · have hfl : s.flush = false := by simpa using hfl
    exact (tick_lsq hrun h.lsq hfl (serves h hfl)).1

theorem mem_newLsq {e : LsqEntry} (he : e ∈ s.newLsq) :
    ∃ d, s.issuing = some d ∧ d.decoded.op.isMemory = true ∧ e = s.issuedLsq d := by
  unfold newLsq at he
  cases hd : s.issuing with
  | none => rw [hd] at he; cases he
  | some d =>
    by_cases hm : d.decoded.op.isMemory = true
    · exact ⟨d, rfl, hm, by simpa [hd, Option.filter, hm] using he⟩
    · simp [hd, Option.filter, hm] at he

/-- An access that stays in the queue, as the next cycle sees it. -/
def carried (s : Core) (sent : Bool) (e : LsqEntry) : LsqEntry :=
  let woken := LoadStoreQueue.wake s.broadcast e
  LoadStoreQueue.updateAddress (if sent then LoadStoreQueue.sent woken else woken)

/-- Each access of the next cycle is one carried over, marked only if it is the head and
    was sent, or the issued one. -/
theorem mem_tick_queue (h : Inv s) (hrun : s.status = .running) {e : LsqEntry} (he : e ∈ s.tick.lsq.queue) :
    s.flush = false ∧
      ((∃ x rest, s.lsq.queue = x :: rest ∧ s.lsqDecision.removeHead = false ∧
          e = s.carried s.lsqDecision.markRequestSent x) ∨
        (∃ x ∈ s.lsq.queue.tail, e = s.carried false x) ∨
        ∃ d, s.issuing = some d ∧ d.decoded.op.isMemory = true ∧ e = LoadStoreQueue.updateAddress (s.issuedLsq d)) := by
  by_cases hfl : s.flush = true
  · rw [(lsq_tick_flush hrun hfl).1] at he; cases he
  · have hfl : s.flush = false := by simpa using hfl
    refine ⟨hfl, ?_⟩
    rw [queue_tick h hrun hfl, List.map_append] at he
    rcases List.mem_append.mp he with he | he
    · obtain ⟨y, hy, rfl⟩ := List.mem_map.mp he
      unfold served LoadStoreQueue.serve at hy
      by_cases hr : s.lsqDecision.removeHead = true
      · rw [if_pos hr, ← List.map_tail] at hy
        obtain ⟨x, hx, rfl⟩ := List.mem_map.mp hy
        exact Or.inr (Or.inl ⟨x, hx, rfl⟩)
      · rw [if_neg hr] at hy
        have hr : s.lsqDecision.removeHead = false := by simpa using hr
        cases hq : s.lsq.queue with
        | nil => simp [hq] at hy
        | cons x rest =>
          rw [hq, List.map_cons] at hy
          by_cases hm : s.lsqDecision.markRequestSent = true
          · rw [if_pos hm, List.modifyHead_cons] at hy
            rcases List.mem_cons.mp hy with rfl | hy
            · exact Or.inl ⟨x, rest, rfl, hr, by rw [hm]; rfl⟩
            · obtain ⟨z, hz, rfl⟩ := List.mem_map.mp hy
              exact Or.inr (Or.inl ⟨z, hz, rfl⟩)
          · rw [if_neg hm] at hy
            rcases List.mem_cons.mp hy with rfl | hy
            · exact Or.inl ⟨x, rest, rfl, hr, by rw [Bool.not_eq_true] at hm; rw [hm]; rfl⟩
            · obtain ⟨z, hz, rfl⟩ := List.mem_map.mp hy
              exact Or.inr (Or.inl ⟨z, hz, rfl⟩)
    · obtain ⟨y, hy, rfl⟩ := List.mem_map.mp he
      obtain ⟨d, hd, hm, rfl⟩ := mem_newLsq hy
      exact Or.inr (Or.inr ⟨d, hd, hm, rfl⟩)

/-! ## One access -/

theorem wakeOperand_ready (x : Operand) (cdb : CdbMsg) (h : x.ready = true) : (wakeOperand x cdb).ready = true := by
  rw [wakeOperand_of_ready h, h]

theorem carried_frame (s : Core) (b : Bool) (e : LsqEntry) :
    (s.carried b e).destination = e.destination ∧ (s.carried b e).op = e.op ∧ (s.carried b e).type = e.type ∧
      (s.carried b e).immediate = e.immediate ∧ (s.carried b e).requestSent = (b || e.requestSent) ∧
      (s.carried b e).base = wakeOperand e.base s.broadcast ∧
      (s.carried b e).storeData = if e.type = .store then wakeOperand e.storeData s.broadcast else e.storeData := by
  cases b with
  | false => exact LoadStoreQueue.updateAddress_frame (LoadStoreQueue.wake s.broadcast e)
  | true => exact LoadStoreQueue.updateAddress_frame (LoadStoreQueue.sent (LoadStoreQueue.wake s.broadcast e))

/-- Computing the address once the base is there. -/
theorem updateAddress_ok {e : LsqEntry} (hv : e.valid = true) (himp : e.addressReady = true → e.base.ready = true)
    (haddr : e.addressReady = true → e.address = e.base.value + e.immediate) :
    (LoadStoreQueue.updateAddress e).addressReady = (LoadStoreQueue.updateAddress e).base.ready ∧
      ((LoadStoreQueue.updateAddress e).addressReady = true →
        (LoadStoreQueue.updateAddress e).address =
          (LoadStoreQueue.updateAddress e).base.value + (LoadStoreQueue.updateAddress e).immediate) ∧
      (e.addressReady = true → (LoadStoreQueue.updateAddress e).addressReady = true) := by
  unfold LoadStoreQueue.updateAddress
  cases ha : e.addressReady with
  | true => simp [hv, ha, himp ha, haddr ha]
  | false =>
    cases hb : e.base.ready with
    | true => simp [hv, hb]
    | false => simp [hv, ha, hb]

/-- A carried access keeps its invariant; it may be marked sent only if it was ready to go. -/
theorem access_carried (h : Inv s) {e : LsqEntry} (he : e ∈ s.lsq.queue) {b : Bool}
    (hb : b = true → e.addressReady = true ∧ (e.type = .store → e.storeData.ready = true)) :
    AccessOk (s.carried b e) := by
  obtain ⟨ht, hready, haddr, hsent, hstore⟩ := h.access e he
  have hv := LoadStoreQueue.queue_valid h.lsq he
  let w : LsqEntry :=
    if b then LoadStoreQueue.sent (LoadStoreQueue.wake s.broadcast e) else LoadStoreQueue.wake s.broadcast e
  have hw : w.valid = true ∧ w.addressReady = e.addressReady ∧ w.address = e.address ∧ w.immediate = e.immediate ∧
      w.base = wakeOperand e.base s.broadcast ∧ w.type = e.type ∧ w.op = e.op := by
    cases b <;> exact ⟨hv, rfl, rfl, rfl, rfl, rfl, rfl⟩
  obtain ⟨hwv, hwa, hwad, hwi, hwb, hwt, hwo⟩ := hw
  -- an address is there only with the base, and a base that is there does not change
  have hbase : e.addressReady = true → w.base = e.base := fun ha => by
    rw [hwb, wakeOperand_of_ready (by rw [← hready]; exact ha)]
  obtain ⟨h1, h2, h3⟩ := updateAddress_ok (e := w) hwv
    (fun ha => by rw [hbase (hwa ▸ ha), ← hready]; exact hwa ▸ ha)
    (fun ha => by rw [hwad, hwi, hbase (hwa ▸ ha)]; exact haddr (hwa ▸ ha))
  obtain ⟨-, hop, hty, -, hreq, -, hdata⟩ := carried_frame s b e
  have hgo : (b || e.requestSent) = true →
      e.addressReady = true ∧ (e.type = .store → e.storeData.ready = true) := by
    intro hx
    rcases Bool.or_eq_true_iff.mp hx with hx | hx
    · exact hb hx
    · exact ⟨hsent hx, hstore hx⟩
  refine ⟨by rw [hop, hty]; exact ht, h1, h2, fun hx => ?_, fun hx hst => ?_⟩
  · rw [hreq] at hx
    exact h3 (by rw [hwa]; exact (hgo hx).1)
  · rw [hreq] at hx
    rw [hty] at hst
    rw [hdata, if_pos hst]
    exact wakeOperand_ready _ _ ((hgo hx).2 hst)

theorem access_issued {d : DecodePacket} (hi : Issues s d) (hm : d.decoded.op.isMemory = true) :
    AccessOk (LoadStoreQueue.updateAddress (s.issuedLsq d)) ∧
      (LoadStoreQueue.updateAddress (s.issuedLsq d)).requestSent = false := by
  have hdec := hi.decoded
  obtain ⟨h1, h2, -⟩ := updateAddress_ok (e := s.issuedLsq d) rfl (fun hs => (by cases hs)) (fun ha => (by cases ha))
  obtain ⟨-, h5, h4, -, h3, -⟩ := LoadStoreQueue.updateAddress_frame (s.issuedLsq d)
  have hreq : (s.issuedLsq d).requestSent = false := rfl
  rw [hreq] at h3
  refine ⟨⟨?_, h1, h2, fun hx => ?_, fun hx => ?_⟩, h3⟩
  · rw [h4, h5]
    show (if d.decoded.isLoad = true then MemoryAccessType.load else .store) =
      if d.decoded.op.isStore = true then .store else .load
    rw [hdec.load]
    cases ho : d.decoded.op <;> first | rfl | (rw [ho] at hm; cases hm)
  · rw [h3] at hx; cases hx
  · rw [h3] at hx; cases hx

/-- The head is marked sent only with its address and, for a store, its data. -/
theorem mark_ready (h : Inv s) {e : LsqEntry} {rest : List LsqEntry}
    (hq : s.lsq.queue = e :: rest) (hm : s.lsqDecision.markRequestSent = true) :
    LoadStoreQueue.maySend s.lsq e s.observe.lsq = true ∧
      s.lsqDecision.outputs.memoryRequest = LoadStoreQueue.makeMemoryRequest e := by
  obtain ⟨e', rest', hq', hs, hd⟩ := marked h hm
  rw [hq, List.cons.injEq] at hq'
  rw [hd, hq'.1]
  exact ⟨hs, rfl⟩

theorem maySend_ready {l : LsqState} {e : LsqEntry} {inputs : LsqObserveInputs}
    (hs : LoadStoreQueue.maySend l e inputs = true) :
    e.requestSent = false ∧ e.addressReady = true ∧ inputs.memoryAvailable = true ∧
      (e.type = .load → l.loadResult.valid = false ∨ inputs.loadResultGranted = true) ∧
      (e.type = .store → e.storeData.ready = true ∧ inputs.storeRequest.valid = true ∧
        inputs.storeRequest.tag = e.destination) := by
  unfold LoadStoreQueue.maySend at hs
  simp only [Bool.and_eq_true, Bool.not_eq_true'] at hs
  obtain ⟨⟨⟨⟨-, h1⟩, h2⟩, h3⟩, h4⟩ := hs
  refine ⟨h1, h2, h3, fun ht => ?_, fun ht => ?_⟩
  · rw [if_pos ht] at h4
    simpa using h4
  · rw [if_neg (by simp [ht])] at h4
    simpa [and_assoc] using h4

theorem access_tick (h : Inv s) (hrun : s.status = .running) : ∀ e ∈ s.tick.lsq.queue, AccessOk e := by
  intro e he
  obtain ⟨hfl, ⟨x, rest, hq, -, rfl⟩ | ⟨x, hx, rfl⟩ | ⟨d, hd, hm, rfl⟩⟩ := mem_tick_queue h hrun he
  · have hx : x ∈ s.lsq.queue := by rw [hq]; exact List.mem_cons_self
    refine access_carried h hx fun hm => ?_
    obtain ⟨-, ha, -, -, hst⟩ := maySend_ready (mark_ready h hq hm).1
    exact ⟨ha, fun ht => (hst ht).1⟩
  · exact access_carried h (List.mem_of_mem_tail hx) (by simp)
  · exact (access_issued (issuing_some hd) hm).1

theorem lsqOp_tick (h : Inv s) (hrun : s.status = .running) :
    ∀ e ∈ s.tick.lsq.queue, ∃ x ∈ s.tick.rob.live, x.tag = e.destination ∧ x.op = e.op := by
  intro e he
  have hcarried : ∀ x ∈ s.lsq.queue, ∀ b, s.flush = false →
      ∃ y ∈ s.survivors, y.tag = (s.carried b x).destination ∧ y.op = (s.carried b x).op := by
    intro x hx b hfl
    obtain ⟨y, hy, ht, hop, hr, -⟩ := h.queued_entry hx
    obtain ⟨hcd, hco, -⟩ := carried_frame s b x
    exact ⟨s.finish y, survives h hfl hy hr, by rw [finish_tag, hcd, ht], by rw [finish_op, hco, hop]⟩
  rw [(tick_rob hrun h.rob).2]
  obtain ⟨hfl, ⟨x, rest, hq, -, rfl⟩ | ⟨x, hx, rfl⟩ | ⟨d, hd, hm, rfl⟩⟩ := mem_tick_queue h hrun he
  · obtain ⟨y, hy, hty⟩ := hcarried x (by rw [hq]; exact List.mem_cons_self) s.lsqDecision.markRequestSent hfl
    exact ⟨y, List.mem_append_left _ hy, hty⟩
  · obtain ⟨y, hy, hty⟩ := hcarried x (List.mem_of_mem_tail hx) false hfl
    exact ⟨y, List.mem_append_left _ hy, hty⟩
  · refine ⟨s.issuedRob d, List.mem_append_right _ (by simp [newRob, hd]), ?_, ?_⟩
    · rw [LoadStoreQueue.updateAddress_destination]; rfl
    · rw [(LoadStoreQueue.updateAddress_frame _).2.1]; rfl

/-! ## The order of the waiting memory instructions -/

theorem newLsq_destination (s : Core) : s.newLsq.map (·.destination) = s.issuedTag Op.isMemory := by
  unfold newLsq issuedTag
  cases s.issuing.filter fun d => d.decoded.op.isMemory with
  | none => rfl
  | some d => rfl

theorem lsq_map_destination {f : LsqEntry → LsqEntry} (hf : ∀ e, (f e).destination = e.destination) (l : List LsqEntry) :
    (l.map f).map (·.destination) = l.map (·.destination) := map_keys hf l

theorem modifyHead_sent_destination (l : List LsqEntry) :
    (l.modifyHead LoadStoreQueue.sent).map (·.destination) = l.map (·.destination) := by
  cases l with
  | nil => rfl
  | cons e t => rfl

/-- Serving the head drops its tag or leaves the tags alone. -/
theorem served_destination (s : Core) :
    s.served.map (·.destination) =
      if s.lsqDecision.removeHead then (s.lsq.queue.map (·.destination)).tail else s.lsq.queue.map (·.destination) := by
  have hw := lsq_map_destination (LoadStoreQueue.wake_destination s.broadcast) s.lsq.queue
  unfold served LoadStoreQueue.serve
  split
  · rw [List.map_tail, hw]
  · split
    · rw [modifyHead_sent_destination, hw]
    · exact hw

/-- The load-result buffer once its result left. -/
def keptLoad (s : Core) : FuResult := if s.loadGranted then {} else s.lsq.loadResult

theorem mem_nodup (h : Inv s) : (holds s.lsq.loadResult ++ s.lsq.queue.map (·.destination)).Nodup := by
  rw [h.mem]; exact nodup_pending h.nodup

/-- A queued access finishes only as the store that is done. -/
theorem finishes_queued (h : Inv s) {e : LsqEntry} (he : e ∈ s.lsq.queue) :
    s.finishes e.destination = (s.storeDone.valid && e.destination == s.storeDone.tag) := by
  rw [finishes_mem h (h.queue_pending he)]
  have hne : (s.loadGranted && e.destination == s.lsq.loadResult.tag) = false := by
    by_contra hc
    simp only [Bool.not_eq_false, Bool.and_eq_true, beq_iff_eq] at hc
    exact (List.nodup_append.mp (mem_nodup h)).2.2 s.lsq.loadResult.tag (by simp [holds, loadGranted_valid h hc.1])
      e.destination (List.mem_map_of_mem he) hc.2.symm
  rw [hne, Bool.false_or]

/-- The waiting memory tags that do not finish: the buffer unless granted, the queue
    unless its head is a store that is done. -/
theorem mem_kept (h : Inv s) :
    (pending (·.tag) memWaiting s.rob.live).filter (fun t => !s.finishes t) =
      holds s.keptLoad ++
        if s.storeDone.valid then (s.lsq.queue.map (·.destination)).tail else s.lsq.queue.map (·.destination) := by
  obtain ⟨-, hqn, hap⟩ := List.nodup_append.mp (mem_nodup h)
  rw [← h.mem, List.filter_append]
  have hfin : ∀ t ∈ holds s.lsq.loadResult ++ s.lsq.queue.map (·.destination), s.finishes t =
      ((s.loadGranted && t == s.lsq.loadResult.tag) || (s.storeDone.valid && t == s.storeDone.tag)) :=
    fun t ht => finishes_mem h (h.mem ▸ ht)
  congr 1
  · cases hv : s.lsq.loadResult.valid with
    | false => by_cases hg : s.loadGranted = true <;> simp [holds, keptLoad, hv, hg]
    | true =>
      have hin : s.lsq.loadResult.tag ∈ holds s.lsq.loadResult := by simp [holds, hv]
      have hst : (s.storeDone.valid && s.lsq.loadResult.tag == s.storeDone.tag) = false := by
        by_contra hc
        simp only [Bool.not_eq_false, Bool.and_eq_true, beq_iff_eq] at hc
        obtain ⟨-, e, rest, hq, hte, -⟩ := storeDone_head h hc.1
        exact hap _ hin e.destination (by rw [hq]; exact List.mem_cons_self) (hc.2.trans hte)
      have hf := hfin _ (List.mem_append_left _ hin)
      rw [hst, Bool.or_false] at hf
      by_cases hg : s.loadGranted = true
      · simp [holds, keptLoad, hv, hg, hf]
      · simp [holds, keptLoad, hv, hg, hf]
  · have hq : ∀ t ∈ s.lsq.queue.map (·.destination), s.finishes t = (s.storeDone.valid && t == s.storeDone.tag) := by
      intro t ht
      obtain ⟨e, he, rfl⟩ := List.mem_map.mp ht
      exact finishes_queued h he
    by_cases hd : s.storeDone.valid = true
    · obtain ⟨-, e, rest, hqe, hte, -⟩ := storeDone_head h hd
      rw [if_pos hd]
      rw [hqe, List.map_cons] at hq hqn ⊢
      rw [List.nodup_cons] at hqn
      have hhead := hq e.destination List.mem_cons_self
      rw [List.filter_cons_of_neg (by simp [hhead, hd, hte]), List.tail_cons]
      refine List.filter_eq_self.mpr fun t ht => ?_
      have hne : t ≠ e.destination := fun e' => hqn.1 (e' ▸ ht)
      simp [hq t (List.mem_cons_of_mem _ ht), hte, hne]
    · rw [if_neg hd]
      refine List.filter_eq_self.mpr fun t ht => ?_
      simp [hq t ht, hd]

theorem clearing_eq (s : Core) : s.clearing = { clearLoadResult := s.loadGranted && s.lsq.loadResult.valid } := rfl

/-- What the buffer and the queue hold after the head was served. -/
theorem served_mem (h : Inv s) (hrun : s.status = .running) (hfl : s.flush = false) :
    holds s.tick.lsq.loadResult ++ s.served.map (·.destination) =
      (pending (·.tag) memWaiting s.rob.live).filter fun t => !s.finishes t := by
  rw [mem_kept h, loadResult_tick h hrun hfl, served_destination]
  have hkept : (if (s.loadGranted && s.lsq.loadResult.valid) = true then ({} : FuResult) else s.lsq.loadResult) =
      s.keptLoad := by
    unfold keptLoad
    cases hg : s.loadGranted with
    | false => rfl
    | true => rw [loadGranted_valid h hg]; rfl
  have hev := lsq_event h hfl
  unfold storeDone
  generalize s.lsqDecision = d at hev
  cases hev with
  | idle => exact congrArg (fun r => holds r ++ _) hkept
  | failed => exact congrArg (fun r => holds r ++ _) hkept
  | send => exact congrArg (fun r => holds r ++ _) hkept
  | loaded hq hm hs ht =>
    have hv : s.lsq.loadResult.valid = false :=
      h.sentLoad _ (by rw [hq]; exact List.mem_cons_self) (h.matched hq hm).2.2 ht
    have hempty : holds s.keptLoad = [] := by
      by_cases hg : s.loadGranted = true <;> simp [holds, keptLoad, hg, hv]
    rw [hempty, hq]
    rfl
  | stored => exact congrArg (fun r => holds r ++ _) hkept

theorem mem_tick (h : Inv s) (hrun : s.status = .running) :
    holds s.tick.lsq.loadResult ++ s.tick.lsq.queue.map (·.destination) =
      pending (·.tag) memWaiting s.tick.rob.live := by
  by_cases hfl : s.flush = true
  · obtain ⟨hq, hl⟩ := lsq_tick_flush hrun hfl
    rw [hq, hl, live_flush hrun h.rob hfl]
    rfl
  · have hfl : s.flush = false := by simpa using hfl
    rw [memWaiting, pending_tick h hrun hfl rfl, queue_tick h hrun hfl,
      lsq_map_destination LoadStoreQueue.updateAddress_destination, List.map_append, newLsq_destination,
      ← List.append_assoc, served_mem h hrun hfl]
    rfl

theorem loaded_tick (h : Inv s) (hrun : s.status = .running) (hv : s.tick.lsq.loadResult.valid = true) :
    ∃ x ∈ s.tick.rob.live, x.tag = s.tick.lsq.loadResult.tag ∧ x.op.isLoad = true := by
  by_cases hfl : s.flush = true
  · rw [(lsq_tick_flush hrun hfl).2] at hv; cases hv
  · have hfl : s.flush = false := by simpa using hfl
    rw [loadResult_tick h hrun hfl] at hv ⊢
    rw [(tick_rob hrun h.rob).2]
    have hev := lsq_event h hfl
    generalize s.lsqDecision = d at hev hv
    -- the result that stays in the buffer
    have hkeep : (if (s.loadGranted && s.lsq.loadResult.valid) = true then ({} : FuResult)
        else s.lsq.loadResult).valid = true →
        ∃ x ∈ s.survivors ++ s.newRob, x.tag = (if (s.loadGranted && s.lsq.loadResult.valid) = true then
          ({} : FuResult) else s.lsq.loadResult).tag ∧ x.op.isLoad = true := by
      intro hk
      split at hk
      · cases hk
      · rename_i hc
        rw [if_neg hc]
        obtain ⟨x, hx, ht, hop⟩ := h.loaded hk
        have hw := of_key_mem_pending h.nodup hx (by rw [ht]; exact h.loadResult_pending hk)
        simp only [memWaiting, waits, Bool.and_eq_true, Bool.not_eq_true'] at hw
        exact ⟨s.finish x, List.mem_append_left _ (survives h hfl hx hw.1), by rw [finish_tag]; exact ht,
          by rw [finish_op]; exact hop⟩
    cases hev with
    | idle => exact hkeep hv
    | failed => exact hkeep hv
    | send => exact hkeep hv
    | stored => exact hkeep hv
    | @loaded e rest hq hm hs ht =>
      have he : e ∈ s.lsq.queue := by rw [hq]; exact List.mem_cons_self
      obtain ⟨x, hx, hxt, hop, hr, hmem⟩ := h.queued_entry he
      refine ⟨s.finish x, List.mem_append_left _ (survives h hfl hx hr), by rw [finish_tag]; exact hxt, ?_⟩
      have hns := (h.access e he).load_op ht
      rw [finish_op]
      rw [hop] at hmem ⊢
      simpa [Op.isMemory, hns] using hmem

/-! ## Only the head is sent -/

theorem mem_served_tail {y : LsqEntry} (hy : y ∈ s.served.tail) :
    ∃ x ∈ s.lsq.queue.tail, y = LoadStoreQueue.wake s.broadcast x := by
  have hmem : y ∈ (s.lsq.queue.map (LoadStoreQueue.wake s.broadcast)).tail := by
    unfold served LoadStoreQueue.serve at hy
    split at hy
    · exact List.mem_of_mem_tail hy
    · split at hy
      · rwa [List.tail_modifyHead] at hy
      · exact hy
  rw [← List.map_tail] at hmem
  obtain ⟨x, hx, rfl⟩ := List.mem_map.mp hmem
  exact ⟨x, hx, rfl⟩

theorem mem_tick_tail (h : Inv s) (hrun : s.status = .running) {e : LsqEntry} (he : e ∈ s.tick.lsq.queue.tail) :
    (∃ x ∈ s.lsq.queue.tail, e = s.carried false x) ∨
      ∃ d, s.issuing = some d ∧ d.decoded.op.isMemory = true ∧ e = LoadStoreQueue.updateAddress (s.issuedLsq d) := by
  have hfl := (mem_tick_queue h hrun (List.mem_of_mem_tail he)).1
  have hsplit : (∃ y ∈ s.served.tail, e = LoadStoreQueue.updateAddress y) ∨
      ∃ y ∈ s.newLsq, e = LoadStoreQueue.updateAddress y := by
    rw [queue_tick h hrun hfl] at he
    cases hs : s.served with
    | nil =>
      rw [hs, List.nil_append] at he
      obtain ⟨y, hy, rfl⟩ := List.mem_map.mp (List.mem_of_mem_tail he)
      exact Or.inr ⟨y, hy, rfl⟩
    | cons a t =>
      rw [hs, List.cons_append, List.map_cons, List.tail_cons, List.map_append] at he
      rcases List.mem_append.mp he with he | he
      · obtain ⟨y, hy, rfl⟩ := List.mem_map.mp he
        exact Or.inl ⟨y, hy, rfl⟩
      · obtain ⟨y, hy, rfl⟩ := List.mem_map.mp he
        exact Or.inr ⟨y, hy, rfl⟩
  rcases hsplit with ⟨y, hy, rfl⟩ | ⟨y, hy, rfl⟩
  · obtain ⟨x, hx, rfl⟩ := mem_served_tail hy
    exact Or.inl ⟨x, hx, rfl⟩
  · obtain ⟨d, hd, hm, rfl⟩ := mem_newLsq hy
    exact Or.inr ⟨d, hd, hm, rfl⟩

theorem sentHead_tick (h : Inv s) (hrun : s.status = .running) : ∀ e ∈ s.tick.lsq.queue.tail, e.requestSent = false := by
  intro e he
  rcases mem_tick_tail h hrun he with ⟨x, hx, rfl⟩ | ⟨d, hd, hm, rfl⟩
  · rw [(carried_frame s false x).2.2.2.2.1, h.sentHead x hx]; rfl
  · exact (access_issued (issuing_some hd) hm).2

/-- A load is sent only when the load-result buffer is or becomes free, and until its
    response nothing else can fill the buffer. -/
theorem sentLoad_tick (h : Inv s) (hrun : s.status = .running) :
    ∀ e ∈ s.tick.lsq.queue, e.requestSent = true → e.type = .load → s.tick.lsq.loadResult.valid = false := by
  intro e he hsent ht
  obtain ⟨hfl, ⟨x, rest, hq, hrem, rfl⟩ | ⟨x, hx, rfl⟩ | ⟨d, hd, hm, rfl⟩⟩ := mem_tick_queue h hrun he
  · obtain ⟨-, -, hty, -, hreq, -⟩ := carried_frame s s.lsqDecision.markRequestSent x
    rw [hreq] at hsent
    rw [hty] at ht
    have hxq : x ∈ s.lsq.queue := by rw [hq]; exact List.mem_cons_self
    have hfree : s.lsq.loadResult.valid = false ∨ s.loadGranted = true := by
      rcases Bool.or_eq_true_iff.mp hsent with hm | hm
      · exact (maySend_ready (mark_ready h hq hm).1).2.2.2.1 ht
      · exact Or.inl (h.sentLoad x hxq hm ht)
    have hinst : s.lsqDecision.installLoadResult = false ∧
        s.lsqDecision.clearLoadResult = (s.loadGranted && s.lsq.loadResult.valid) := by
      have hev := lsq_event h hfl
      generalize s.lsqDecision = d at hev hrem
      cases hev with
      | idle => exact ⟨rfl, rfl⟩
      | failed => exact ⟨rfl, rfl⟩
      | send => exact ⟨rfl, rfl⟩
      | loaded => cases hrem
      | stored => cases hrem
    rw [loadResult_tick h hrun hfl, hinst.1, hinst.2]
    cases hv : s.lsq.loadResult.valid with
    | false => simp [hv]
    | true =>
      rw [hv] at hfree
      simp [hfree.resolve_left (by simp)]
  · rw [(carried_frame s false x).2.2.2.2.1, h.sentHead x hx] at hsent
    cases hsent
  · rw [(access_issued (issuing_some hd) hm).2] at hsent
    cases hsent

end Core

end TomasuloCpu
