/-
  TomasuloCpu.Tomasulo.MemoryPort — the memory port works for the queue's head.

  A transaction outlives a flush, so the port may hold a request or a response whose
  sender is gone. `stale_tick` bounds how long: each cycle brings it one step nearer to
  its end and moves the generation of its slot by at most one, so the slot's new user
  never has its tag, even when the generation counter wraps. `port_tick` keeps `PortOk`.
-/
import TomasuloCpu.Tomasulo.ProgramOrder

namespace TomasuloCpu

open Keyed

namespace Core

variable {s : Core}

/-! ## Leftovers of a flush -/

theorem mem_tick_tags (hrun : s.status = .running) (hw : s.rob.Wf) {t : RobTag}
    (ht : t ∈ RobState.tags s.tick.rob.live) :
    t ∈ RobState.tags s.rob.live ∨ (s.issuing.isSome = true ∧ t = s.newTag) := by
  obtain ⟨e, he, rfl⟩ := List.mem_map.mp ht
  rcases mem_tick_live hrun hw he with ⟨-, x, hx, rfl⟩ | ⟨d, hd, rfl⟩
  · exact Or.inl (by rw [finish_tag]; exact List.mem_map_of_mem hx)
  · exact Or.inr ⟨by rw [hd]; rfl, rfl⟩

theorem newTag_eq (hw : s.rob.Wf) (hi : s.issuing.isSome = true) :
    s.newTag = ⟨BitVec.ofNat 32 s.rob.tail, s.rob.generations s.rob.tail + 1, true⟩ ∧ s.rob.tail < 32 := by
  obtain ⟨d, hd⟩ := Option.isSome_iff_exists.mp hi
  have hroom := (issuing_some hd).room
  have hc : s.rob.count ≤ 32 := hw.ring.count_le
  have hne : s.rob.count ≠ 32 := by
    intro e
    simp [ReorderBuffer.full, ReorderBuffer.kCapacity, e] at hroom
  refine ⟨ReorderBuffer.nextTag_of_room (by omega), ?_⟩
  have ht : s.rob.tail = (s.rob.head + s.rob.count) % 32 := hw.ring.tail_eq
  omega

/-- A new tag is no live entry's: its slot is one generation further. -/
theorem newTag_fresh (hw : s.rob.Wf) (hi : s.issuing.isSome = true) : s.newTag ∉ RobState.tags s.rob.live := by
  intro hm
  obtain ⟨hnew, hlt⟩ := newTag_eq hw hi
  obtain ⟨e, he, het⟩ := List.mem_map.mp hm
  obtain ⟨-, -, -, htag⟩ := ReorderBuffer.live_tagged hw he
  have hidx : RobState.slotOf e = s.rob.tail := by
    rw [RobState.slotOf, het, hnew]
    simp only [BitVec.toNat_ofNat]
    omega
  have hgen : e.tag.generation = s.rob.generations s.rob.tail := by rw [← hidx]; exact congrArg _ htag
  rw [het, hnew] at hgen
  have hgen : s.rob.generations s.rob.tail + 1 = s.rob.generations s.rob.tail := hgen
  bv_omega

/-- A live entry with a tag that was live is the old one, finished. -/
theorem mem_tick_old (h : Inv s) (hrun : s.status = .running) {e x : RobEntry} (he : e ∈ s.tick.rob.live)
    (hx : x ∈ s.rob.live) (ht : e.tag = x.tag) : e = s.finish x := by
  rcases mem_tick_live hrun h.rob he with ⟨-, y, hy, rfl⟩ | ⟨d, hd, rfl⟩
  · rw [finish_tag] at ht
    rw [inj h.nodup hy hx ht]
  · have hmem : s.newTag ∈ RobState.tags s.rob.live := List.mem_map.mpr ⟨x, hx, ht.symm⟩
    exact absurd hmem (newTag_fresh h.rob (by rw [hd]; rfl))

theorem stale_tick (hrun : s.status = .running) (hw : s.rob.Wf) {t : RobTag} {r : Nat} (h : s.Stale t (r + 1)) :
    s.tick.Stale t r := by
  obtain ⟨hnot, hage⟩ := h
  simp only [MemoryUnit.kDataLatency] at hage
  by_cases hi : s.issuing.isSome = true
  · obtain ⟨hnew, hlt⟩ := newTag_eq hw hi
    have hidx : (BitVec.ofNat 32 s.rob.tail).toNat = s.rob.tail := by
      simp only [BitVec.toNat_ofNat]; omega
    refine ⟨fun ht => ?_, ?_⟩
    · rcases mem_tick_tags hrun hw ht with ht | ⟨-, rfl⟩
      · exact hnot ht
      · -- the new tag is one generation ahead, so `t` would be 2 ^ 32 - 1 behind
        rw [hnew] at hage
        simp only [hidx] at hage
        have hback : s.rob.generations s.rob.tail - (s.rob.generations s.rob.tail + 1) = BitVec.allOnes 32 := by
          generalize s.rob.generations s.rob.tail = g
          rw [show g - (g + 1) = -(1#32) by bv_omega]
          decide
        rw [hback] at hage
        have hmax : (BitVec.allOnes 32).toNat = 4294967295 := by decide
        omega
    · rw [tick_generations hrun hw, if_pos hi]
      by_cases e : t.index.toNat = s.rob.tail
      · rw [e] at hage ⊢
        rw [Function.update_self, show ∀ g : TagGeneration, g + 1 - t.generation = (g - t.generation) + 1 by
          intro g; bv_omega, BitVec.toNat_add]
        have hone : (1 : TagGeneration).toNat = 1 := by decide
        simp only [MemoryUnit.kDataLatency]
        omega
      · rw [Function.update_of_ne e]
        simp only [MemoryUnit.kDataLatency]
        omega
  · refine ⟨fun ht => ?_, ?_⟩
    · rcases mem_tick_tags hrun hw ht with ht | ⟨hs, -⟩
      · exact hnot ht
      · exact hi hs
    · rw [tick_generations hrun hw, if_neg hi]
      simp only [MemoryUnit.kDataLatency]
      omega

/-- A flush makes a live tag a leftover: its slot's generation is still its own. -/
theorem stale_of_flush (hrun : s.status = .running) (hw : s.rob.Wf) (hfl : s.flush = true) {t : RobTag}
    (ht : t ∈ RobState.tags s.rob.live) {r : Nat} (hr : r ≤ MemoryUnit.kDataLatency) : s.tick.Stale t r := by
  obtain ⟨e, he, rfl⟩ := List.mem_map.mp ht
  refine ⟨by rw [live_flush hrun hw hfl]; exact List.not_mem_nil, ?_⟩
  rw [tick_generations hrun hw, issuing_flush hfl, if_neg (by simp)]
  have htag := (ReorderBuffer.live_tagged hw he).2.2.2
  have hg : e.tag.generation = s.rob.generations e.tag.index.toNat := congrArg RobTag.generation htag
  rw [hg, BitVec.sub_self]
  simpa using hr

/-! ## The port after a cycle -/

/-- The four things the port does. -/
inductive PortEvent (s : Core) : Prop where
  | counting (hv : s.port.transaction.valid = true) (hr : 1 < s.port.transaction.remainingCycles)
      (hp : s.tick.port = { transaction :=
        { s.port.transaction with remainingCycles := s.port.transaction.remainingCycles - 1 } })
      (hm : s.tick.memory = s.memory)
  | responding (hv : s.port.transaction.valid = true) (hr : s.port.transaction.remainingCycles ≤ 1)
      (hp : s.tick.port =
        { response := (MemoryUnit.completeCurrentTransaction s.memory s.port.transaction.request).1 })
      (hm : s.port.transaction.request.type = .load → s.tick.memory = s.memory)
  | taking {e : LsqEntry} {rest : List LsqEntry} (hv : s.port.transaction.valid = false) (hfl : s.flush = false)
      (hq : s.lsq.queue = e :: rest) (hs : LoadStoreQueue.maySend s.lsq e s.observe.lsq = true)
      (hd : s.lsqDecision = { s.clearing with
        outputs := { memoryRequest := LoadStoreQueue.makeMemoryRequest e }, markRequestSent := true })
      (hp : s.tick.port =
        { transaction := ⟨LoadStoreQueue.makeMemoryRequest e, MemoryUnit.kDataLatency, true⟩ })
      (hm : s.tick.memory = s.memory)
  | resting (hv : s.port.transaction.valid = false) (hd : s.lsqDecision.markRequestSent = false)
      (hp : s.tick.port = { transaction := s.port.transaction }) (hm : s.tick.memory = s.memory)

theorem complete_load {m : MemoryImage} {r : DataMemoryRequest} (h : r.type = .load) :
    (MemoryUnit.completeCurrentTransaction m r).2 = {} := by
  simp [MemoryUnit.completeCurrentTransaction, h]

/-- A store's response does not depend on the memory. -/
theorem complete_store (m m' : MemoryImage) {r : DataMemoryRequest} (h : r.type = .store) :
    MemoryUnit.completeCurrentTransaction m r = MemoryUnit.completeCurrentTransaction m' r := by
  simp [MemoryUnit.completeCurrentTransaction, h]

theorem complete_frame (m : MemoryImage) (r : DataMemoryRequest) :
    (MemoryUnit.completeCurrentTransaction m r).1.valid = true ∧
      (MemoryUnit.completeCurrentTransaction m r).1.tag = r.tag ∧
      (MemoryUnit.completeCurrentTransaction m r).1.isStore = decide (r.type = .store) := by
  unfold MemoryUnit.completeCurrentTransaction
  cases r.type <;> exact ⟨rfl, rfl, rfl⟩

theorem request_unsent (h : Inv s) (hm : s.lsqDecision.markRequestSent = false) :
    s.lsqDecision.outputs.memoryRequest = {} := by
  by_cases hfl : s.flush = true
  · rw [lsqDecision_flush hfl]
  · have hev := lsq_event h (by simpa using hfl)
    generalize s.lsqDecision = d at hev hm
    cases hev with
    | send => cases hm
    | _ => rfl

theorem port_event (h : Inv s) (hrun : s.status = .running) : PortEvent s := by
  have hport : s.tick.port = (MemoryUnit.step s.memory s.port s.lsqDecision.outputs.memoryRequest).port := by
    rw [tick_eq hrun]
  have hmem : s.tick.memory =
      if (MemoryUnit.step s.memory s.port s.lsqDecision.outputs.memoryRequest).storeWrite.valid then
        (MemoryUnit.applyStoreWrite s.memory
          (MemoryUnit.step s.memory s.port s.lsqDecision.outputs.memoryRequest).storeWrite).2
      else s.memory := by rw [tick_eq hrun]
  cases hv : s.port.transaction.valid with
  | true =>
    by_cases hr : 1 < s.port.transaction.remainingCycles
    · have hstep : MemoryUnit.step s.memory s.port s.lsqDecision.outputs.memoryRequest =
          ⟨false, { transaction := { s.port.transaction with
            remainingCycles := s.port.transaction.remainingCycles - 1 } }, {}⟩ := by
        rw [MemoryUnit.step, if_pos hv, if_pos hr]
      rw [hstep] at hport hmem
      exact .counting hv hr hport hmem
    · have hstep : MemoryUnit.step s.memory s.port s.lsqDecision.outputs.memoryRequest =
          ⟨false, { response := (MemoryUnit.completeCurrentTransaction s.memory s.port.transaction.request).1 },
            (MemoryUnit.completeCurrentTransaction s.memory s.port.transaction.request).2⟩ := by
        rw [MemoryUnit.step, if_pos hv, if_neg hr]
      rw [hstep] at hport hmem
      refine .responding hv (by omega) hport fun ht => ?_
      rw [hmem, complete_load ht]
      rfl
  | false =>
    cases hm : s.lsqDecision.markRequestSent with
    | false =>
      have hstep : MemoryUnit.step s.memory s.port s.lsqDecision.outputs.memoryRequest =
          ⟨false, { transaction := s.port.transaction }, {}⟩ := by
        rw [request_unsent h hm, MemoryUnit.step, if_neg (by simp [hv]), if_neg (by simp)]
      rw [hstep] at hport hmem
      exact .resting hv hm hport hmem
    | true =>
      obtain ⟨e, rest, hq, hs, hd⟩ := marked h hm
      have htag : e.destination.valid = true :=
        h.pending_valid (h.queue_pending (by rw [hq]; exact List.mem_cons_self))
      have hstep : MemoryUnit.step s.memory s.port (LoadStoreQueue.makeMemoryRequest e) =
          ⟨true, { transaction := ⟨LoadStoreQueue.makeMemoryRequest e, MemoryUnit.kDataLatency, true⟩ }, {}⟩ := by
        rw [MemoryUnit.step, if_neg (by simp [hv]), if_pos (by simp [LoadStoreQueue.makeMemoryRequest, htag])]
      rw [hd, hstep] at hport hmem
      exact .taking hv (noFlush_of_mark hm) hq hs hd hport hmem

/-! ## The head of the queue after a cycle -/

theorem queue_tick_head (h : Inv s) (hrun : s.status = .running) (hfl : s.flush = false) {e : LsqEntry}
    {rest : List LsqEntry} (hq : s.lsq.queue = e :: rest) (hr : s.lsqDecision.removeHead = false) :
    s.tick.lsq.queue.head? = some (s.carried s.lsqDecision.markRequestSent e) := by
  rw [queue_tick h hrun hfl]
  unfold served LoadStoreQueue.serve
  rw [if_neg (by simp [hr]), hq]
  by_cases hm : s.lsqDecision.markRequestSent = true
  · rw [if_pos hm, hm]; rfl
  · rw [if_neg hm]
    rw [Bool.not_eq_true] at hm
    rw [hm]; rfl

/-- While the port is busy the queue neither sends nor finishes anything. -/
theorem busy_quiet (h : Inv s) (hfl : s.flush = false) (hv : s.port.transaction.valid = true) :
    s.lsqDecision.removeHead = false ∧ s.lsqDecision.markRequestSent = false ∧ s.storeDone.valid = false := by
  have hev := lsq_event h hfl
  have hresp := h.port.apart hv
  unfold storeDone
  generalize s.lsqDecision = d at hev
  cases hev with
  | idle => exact ⟨rfl, rfl, rfl⟩
  | failed => exact ⟨rfl, rfl, rfl⟩
  | send hq hs =>
    have ha : s.observe.lsq.memoryAvailable = true := (maySend_ready hs).2.2.1
    have hb : s.observe.lsq.memoryAvailable = !s.port.transaction.valid := rfl
    rw [hb, hv] at ha
    cases ha
  | loaded hq hm => rw [(h.matched hq hm).1] at hresp; cases hresp
  | stored hq hm => rw [(h.matched hq hm).1] at hresp; cases hresp

/-- A request does not change once its access is complete. -/
theorem request_carried {e : LsqEntry} (ha : e.addressReady = true)
    (hd : e.type = .store → e.storeData.ready = true) (b : Bool) :
    LoadStoreQueue.makeMemoryRequest (s.carried b e) = LoadStoreQueue.makeMemoryRequest e := by
  have haddr : (s.carried b e).address = e.address := by
    unfold carried LoadStoreQueue.updateAddress
    cases b <;> simp [LoadStoreQueue.wake, LoadStoreQueue.sent, ha]
  obtain ⟨hdest, hop, hty, -, -, -, hdata⟩ := carried_frame s b e
  unfold LoadStoreQueue.makeMemoryRequest
  rw [haddr, hdest, hop, hty, hdata]
  by_cases hs : e.type = .store
  · rw [if_pos hs, if_pos hs, if_pos hs, wakeOperand_of_ready (hd hs)]
  · rw [if_neg hs, if_neg hs]

theorem head_mem {e : LsqEntry} (he : s.lsq.queue.head? = some e) : e ∈ s.lsq.queue := List.mem_of_mem_head? he

theorem cons_of_head {e : LsqEntry} (he : s.lsq.queue.head? = some e) : ∃ rest, s.lsq.queue = e :: rest :=
  List.head?_eq_some_iff.mp he

theorem queue_tag_live (h : Inv s) {e : LsqEntry} (he : e ∈ s.lsq.queue) :
    e.destination ∈ RobState.tags s.rob.live := by
  obtain ⟨x, hx, hxt, -⟩ := h.queued_entry he
  rw [← hxt]
  exact List.mem_map_of_mem hx

/-! ## The port's invariant after a cycle -/

/-- A transaction under way keeps its sender at the queue's head, or becomes a leftover. -/
theorem sender_kept (h : Inv s) (hrun : s.status = .running) (hv : s.port.transaction.valid = true) {r : Nat}
    (hr : s.port.transaction.remainingCycles = r + 1) :
    (∃ e, s.lsq.queue.head? = some e ∧ e.destination = s.port.transaction.request.tag ∧ e.requestSent = true ∧
        s.flush = false ∧ s.tick.lsq.queue.head? = some (s.carried false e)) ∨
      s.tick.Stale s.port.transaction.request.tag r := by
  have hp : s.port.pending = some (s.port.transaction.request.tag, r + 1) := by
    simp [DataPort.pending, hv, hr]
  rcases h.port.sender _ _ hp with ⟨e, he, ht, hs⟩ | hstale
  · by_cases hfl : s.flush = true
    · refine Or.inr (stale_of_flush hrun h.rob hfl ?_ ?_)
      · rw [← ht]; exact queue_tag_live h (head_mem he)
      · have := (h.port.busy hv).2
        omega
    · have hfl : s.flush = false := by simpa using hfl
      obtain ⟨hrem, hmark, -⟩ := busy_quiet h hfl hv
      obtain ⟨rest, hq⟩ := cons_of_head he
      have hhead := queue_tick_head h hrun hfl hq hrem
      rw [hmark] at hhead
      exact Or.inl ⟨e, he, ht, hs, hfl, hhead⟩
  · exact Or.inr (stale_tick hrun h.rob hstale)

theorem remaining_pos (h : Inv s) (hv : s.port.transaction.valid = true) :
    ∃ r, s.port.transaction.remainingCycles = r + 1 ∧ r ≤ 2 := by
  obtain ⟨h1, h2⟩ := h.port.busy hv
  simp only [MemoryUnit.kDataLatency] at h2
  exact ⟨s.port.transaction.remainingCycles - 1, by omega, by omega⟩

theorem pending_counting {t : DataTransaction} (hv : t.valid = true) (n : Nat) :
    DataPort.pending { transaction := { t with remainingCycles := n } } = some (t.request.tag, n) := by
  simp [DataPort.pending, hv]

theorem pending_responding {r : DataMemoryResponse} (hv : r.valid = true) :
    DataPort.pending { response := r } = some (r.tag, 0) := by
  simp [DataPort.pending, hv]

theorem pending_resting {t : DataTransaction} (hv : t.valid = false) : DataPort.pending { transaction := t } = none := by
  simp [DataPort.pending, hv]

theorem sender_tick (h : Inv s) (hrun : s.status = .running) (t : RobTag) (r : Nat)
    (hp : s.tick.port.pending = some (t, r)) :
    (∃ e, s.tick.lsq.queue.head? = some e ∧ e.destination = t ∧ e.requestSent = true) ∨ s.tick.Stale t r := by
  have hkept : ∀ {n}, s.port.transaction.valid = true → s.port.transaction.remainingCycles = n + 1 →
      (∃ e, s.tick.lsq.queue.head? = some e ∧ e.destination = s.port.transaction.request.tag ∧
        e.requestSent = true) ∨ s.tick.Stale s.port.transaction.request.tag n := by
    intro n hv hn
    rcases sender_kept h hrun hv hn with ⟨e, -, ht, hs, -, hhead⟩ | hstale
    · obtain ⟨hd, -, -, -, hreq, -⟩ := carried_frame s false e
      exact Or.inl ⟨_, hhead, by rw [hd, ht], by rw [hreq, hs]; rfl⟩
    · exact Or.inr hstale
  cases port_event h hrun with
  | counting hv hr hport =>
    obtain ⟨n, hn, -⟩ := remaining_pos h hv
    rw [hport, pending_counting hv, Option.some.injEq, Prod.mk.injEq, hn] at hp
    obtain ⟨rfl, rfl⟩ := hp
    exact hkept hv hn
  | responding hv hr hport =>
    obtain ⟨n, hn, -⟩ := remaining_pos h hv
    obtain ⟨hcv, hct, -⟩ := complete_frame s.memory s.port.transaction.request
    rw [hport, pending_responding hcv, Option.some.injEq, Prod.mk.injEq, hct] at hp
    obtain ⟨rfl, rfl⟩ := hp
    have hn0 : n = 0 := by omega
    rw [hn0] at hn
    exact hkept hv hn
  | @taking e rest hv hfl hq hs hd hport =>
    rw [hport, DataPort.pending, if_pos rfl, Option.some.injEq, Prod.mk.injEq] at hp
    obtain ⟨rfl, rfl⟩ := hp
    have hhead := queue_tick_head h hrun hfl hq (by rw [hd]; rfl)
    have hm : s.lsqDecision.markRequestSent = true := by rw [hd]
    rw [hm] at hhead
    obtain ⟨hcd, -, -, -, hreq, -⟩ := carried_frame s true e
    exact Or.inl ⟨_, hhead, hcd, by rw [hreq]; rfl⟩
  | resting hv hd hport =>
    rw [hport, pending_resting hv] at hp
    cases hp

/-- The head the port's transaction belongs to after a cycle was its sender before. -/
theorem sender_of_head (h : Inv s) (hrun : s.status = .running) (hv : s.port.transaction.valid = true) {e : LsqEntry}
    (he : s.tick.lsq.queue.head? = some e) (ht : e.destination = s.port.transaction.request.tag) :
    ∃ x, s.lsq.queue.head? = some x ∧ x.destination = s.port.transaction.request.tag ∧ x.requestSent = true ∧
      e = s.carried false x := by
  obtain ⟨r, hr, -⟩ := remaining_pos h hv
  rcases sender_kept h hrun hv hr with ⟨x, hx, hxt, hxs, -, hhead⟩ | ⟨hstale, -⟩
  · rw [he, Option.some.injEq] at hhead
    exact ⟨x, hx, hxt, hxs, hhead⟩
  · obtain ⟨y, hy, hyt, -⟩ := lsqOp_tick h hrun e (List.mem_of_mem_head? he)
    exact absurd (by rw [← ht, ← hyt]; exact List.mem_map_of_mem hy) hstale

/-- The transaction's request is its sender's, before and after. -/
theorem request_of_head (h : Inv s) (hrun : s.status = .running) (hv : s.port.transaction.valid = true) {e : LsqEntry}
    (he : s.tick.lsq.queue.head? = some e) (ht : e.destination = s.port.transaction.request.tag) :
    s.port.transaction.request = LoadStoreQueue.makeMemoryRequest e := by
  obtain ⟨x, hx, hxt, hxs, rfl⟩ := sender_of_head h hrun hv he ht
  have hacc := h.access x (head_mem hx)
  rw [request_carried (hacc.sent hxs) (hacc.sent_store hxs)]
  exact h.port.asked hv x hx hxt

theorem asked_tick (h : Inv s) (hrun : s.status = .running) (hv' : s.tick.port.transaction.valid = true) (e : LsqEntry)
    (he : s.tick.lsq.queue.head? = some e) (ht : e.destination = s.tick.port.transaction.request.tag) :
    s.tick.port.transaction.request = LoadStoreQueue.makeMemoryRequest e := by
  cases port_event h hrun with
  | counting hv hr hport =>
    rw [hport] at ht ⊢
    exact request_of_head h hrun hv he ht
  | responding hv hr hport => rw [hport] at hv'; cases hv'
  | @taking x rest hv hfl hq hs hd hport =>
    rw [hport]
    have hhead := queue_tick_head h hrun hfl hq (by rw [hd]; rfl)
    rw [he, Option.some.injEq] at hhead
    obtain ⟨-, ha, -, -, hst⟩ := maySend_ready hs
    rw [hhead, request_carried ha fun ht => (hst ht).1]
  | resting hv hd hport => rw [hport, hv] at hv'; cases hv'

theorem answered_tick (h : Inv s) (hrun : s.status = .running) (hv' : s.tick.port.response.valid = true) (e : LsqEntry)
    (he : s.tick.lsq.queue.head? = some e) (ht : e.destination = s.tick.port.response.tag) :
    s.tick.port.response =
      (MemoryUnit.completeCurrentTransaction s.tick.memory (LoadStoreQueue.makeMemoryRequest e)).1 := by
  cases port_event h hrun with
  | counting hv hr hport => rw [hport] at hv'; cases hv'
  | responding hv hr hport hm =>
    rw [hport, (complete_frame s.memory _).2.1] at ht
    have hreq := request_of_head h hrun hv he ht
    rw [hport, ← hreq]
    cases hty : s.port.transaction.request.type with
    | load => rw [hm hty]
    | store => rw [complete_store s.memory s.tick.memory hty]
  | taking hv hfl hq hs hd hport => rw [hport] at hv'; cases hv'
  | resting hv hd hport => rw [hport] at hv'; cases hv'

/-- A head that is not ready stays the head. -/
theorem head_kept (h : Inv s) (hrun : s.status = .running) {x : RobEntry} (hx : s.rob.live.head? = some x)
    (hr : x.ready = false) : s.flush = false ∧ s.tick.rob.live.head? = some (s.finish x) := by
  have hfl : s.flush = false := by
    by_contra hc
    obtain ⟨y, hy, hyr, -⟩ := (flush_iff h.rob).mp (by simpa using hc)
    rw [hx, Option.some.injEq] at hy
    rw [hy, hyr] at hr
    cases hr
  refine ⟨hfl, ?_⟩
  obtain ⟨t, ht⟩ := List.head?_eq_some_iff.mp hx
  rw [(tick_rob hrun h.rob).2]
  rcases survivors_cases h.rob hfl with ⟨y, t', hl, hyr, -⟩ | ⟨-, -, hs⟩
  · rw [ht, List.cons.injEq] at hl
    rw [hl.1, hyr] at hr
    cases hr
  · rw [hs, ht]
    rfl

theorem storing_counting {t : DataTransaction} (hv : t.valid = true) (n : Nat) :
    DataPort.storing { transaction := { t with remainingCycles := n } } =
      if t.request.type = .store then some t.request.tag else none := by
  cases ht : t.request.type <;> simp [DataPort.storing, hv, ht]

/-- A store under way stays with the ROB head, which nothing finishes meanwhile. -/
theorem storing_kept (h : Inv s) (hrun : s.status = .running) (hv : s.port.transaction.valid = true)
    (hst : s.port.transaction.request.type = .store) :
    ∃ x, s.tick.rob.live.head? = some x ∧ x.tag = s.port.transaction.request.tag ∧ x.ready = false := by
  obtain ⟨x, hx, hxt, hxr⟩ := h.port.store s.port.transaction.request.tag (by simp [DataPort.storing, hv, hst])
  obtain ⟨hfl, hhead⟩ := head_kept h hrun hx hxr
  have hxl := List.mem_of_mem_head? hx
  obtain ⟨r, hr, -⟩ := remaining_pos h hv
  have hsender := h.port.sender s.port.transaction.request.tag (r + 1) (by simp [DataPort.pending, hv, hr])
  have hfin : s.finishes x.tag = false := by
    rcases hsender with ⟨e, he, het, -⟩ | ⟨hstale, -⟩
    · rw [hxt, ← het, finishes_queued h (head_mem he), (busy_quiet h hfl hv).2.2]
      rfl
    · exact absurd (by rw [← hxt]; exact List.mem_map_of_mem hxl) hstale
  exact ⟨_, hhead, by rw [finish_tag, hxt], by rw [finish_ready h hxl, hxr, hfin]; rfl⟩

/-- The queue is authorized to store for the ROB head while this waits. -/
theorem authorized_head (h : Inv s) (hv : s.observe.lsq.storeRequest.valid = true) :
    ∃ x, s.rob.live.head? = some x ∧ x.ready = false ∧ x.tag = s.observe.lsq.storeRequest.tag := by
  have hpreview : s.observe.lsq.storeRequest = ReorderBuffer.planStoreRequest (ReorderBuffer.front s.rob) :=
    (previewRob_eq s).2
  rw [hpreview, ReorderBuffer.front_eq h.rob] at hv ⊢
  cases hx : s.rob.live.head? with
  | none => rw [hx] at hv; cases hv
  | some x =>
    rw [hx] at hv
    simp only [ReorderBuffer.planStoreRequest] at hv ⊢
    split at hv
    · rename_i hc
      rw [if_pos hc]
      simp only [Bool.and_eq_true, Bool.not_eq_true'] at hc
      exact ⟨x, rfl, hc.2, rfl⟩
    · cases hv

theorem store_tick (h : Inv s) (hrun : s.status = .running) (t : RobTag) (hp : s.tick.port.storing = some t) :
    ∃ x, s.tick.rob.live.head? = some x ∧ x.tag = t ∧ x.ready = false := by
  cases port_event h hrun with
  | counting hv hr hport =>
    rw [hport, storing_counting hv] at hp
    split at hp
    · rename_i hst
      rw [Option.some.injEq] at hp
      rw [← hp]
      exact storing_kept h hrun hv hst
    · cases hp
  | responding hv hr hport =>
    obtain ⟨hcv, hct, hcs⟩ := complete_frame s.memory s.port.transaction.request
    rw [hport, DataPort.storing, if_neg (by simp)] at hp
    simp only [hcv, hct, hcs, Bool.true_and, decide_eq_true_eq] at hp
    split at hp
    · rename_i hst
      rw [Option.some.injEq] at hp
      rw [← hp]
      exact storing_kept h hrun hv hst
    · cases hp
  | @taking e rest hv hfl hq hs hd hport =>
    have hty : e.type = .store ∧ e.destination = t := by
      rw [hport, DataPort.storing] at hp
      cases hty : e.type <;> simp [LoadStoreQueue.makeMemoryRequest, hty] at hp
      exact ⟨rfl, hp⟩
    obtain ⟨-, hsr, htag⟩ := (maySend_ready hs).2.2.2.2 hty.1
    obtain ⟨x, hx, hxr, hxt⟩ := authorized_head h hsr
    rw [htag] at hxt
    have hxl := List.mem_of_mem_head? hx
    obtain ⟨-, hhead⟩ := head_kept h hrun hx hxr
    have hnd : s.storeDone.valid = false := by unfold storeDone; rw [hd]
    have hfin : s.finishes x.tag = false := by
      rw [hxt, finishes_queued h (by rw [hq]; exact List.mem_cons_self), hnd]; rfl
    exact ⟨_, hhead, by rw [finish_tag, hxt, hty.2], by rw [finish_ready h hxl, hxr, hfin]; rfl⟩
  | resting hv hd hport =>
    rw [hport] at hp
    simp [DataPort.storing, hv] at hp

/-- The head's own response is always taken. -/
theorem response_matches (h : Inv s) {e : LsqEntry} (he : s.lsq.queue.head? = some e)
    (hv : s.port.response.valid = true) (ht : e.destination = s.port.response.tag) :
    LoadStoreQueue.matchingResponse e s.port.response = true := by
  have hm := head_mem he
  have hvalid := LoadStoreQueue.queue_valid h.lsq hm
  have htag := h.pending_valid (h.queue_pending hm)
  have hst : s.port.response.isStore = decide (e.type = .store) := by
    rw [h.port.answered hv e he ht, (complete_frame _ _).2.2]
    rfl
  rw [ht] at htag
  unfold LoadStoreQueue.matchingResponse
  rw [if_neg (by simp [hvalid, hv, htag]), if_neg (not_not.mpr ht), hst, beq_self_eq_true]

/-- A failed response stops the machine. -/
theorem status_of_error (hrun : s.status = .running) (he : s.lsqDecision.outputs.memoryError = true) :
    s.tick.status ≠ .running := by
  rw [tick_eq hrun]
  show s.nextStatus s.outs ≠ .running
  unfold nextStatus
  have he' : s.outs.lsq.outputs.memoryError = true := he
  simp only [he', if_true]
  split <;> decide

theorem own_tick (h : Inv s) (hrun : s.status = .running) (hrun' : s.tick.status = .running) (e : LsqEntry)
    (he : s.tick.lsq.queue.head? = some e) (hsent : e.requestSent = true) :
    ∃ r, s.tick.port.pending = some (e.destination, r) := by
  obtain ⟨hfl, ⟨x, rest, hq, hrem, rfl⟩ | ⟨x, hx, rfl⟩ | ⟨d, hd, hm, rfl⟩⟩ :=
    mem_tick_queue h hrun (List.mem_of_mem_head? he)
  · obtain ⟨hdest, -, -, -, hreq, -⟩ := carried_frame s s.lsqDecision.markRequestSent x
    rw [hreq] at hsent
    rw [hdest]
    have hx : s.lsq.queue.head? = some x := by rw [hq]; rfl
    have hown : x.requestSent = true → s.port.transaction.valid = false →
        s.lsqDecision.markRequestSent = false → False := by
      -- the sender's response is visible now; the queue would have removed it or stopped
      intro hxs hv hm
      obtain ⟨r, hp⟩ := h.port.own hrun x hx hxs
      unfold DataPort.pending at hp
      rw [if_neg (by simp [hv])] at hp
      split at hp
      · rename_i hrv
        rw [Option.some.injEq, Prod.mk.injEq] at hp
        have hmatch := response_matches h hx hrv hp.1.symm
        cases answer_event h hfl hq hmatch with
        | failed _ hd => exact status_of_error hrun (by rw [hd]) hrun'
        | loaded _ _ hd => rw [hd] at hrem; cases hrem
        | stored _ _ hd => rw [hd] at hrem; cases hrem
      · cases hp
    cases port_event h hrun with
    | counting hv hr hport =>
      rw [(busy_quiet h hfl hv).2.1, Bool.false_or] at hsent
      obtain ⟨r, hp⟩ := h.port.own hrun x hx hsent
      rw [DataPort.pending, if_pos hv, Option.some.injEq, Prod.mk.injEq] at hp
      exact ⟨_, by rw [hport, pending_counting hv, hp.1]⟩
    | responding hv hr hport =>
      rw [(busy_quiet h hfl hv).2.1, Bool.false_or] at hsent
      obtain ⟨r, hp⟩ := h.port.own hrun x hx hsent
      rw [DataPort.pending, if_pos hv, Option.some.injEq, Prod.mk.injEq] at hp
      obtain ⟨hcv, hct, -⟩ := complete_frame s.memory s.port.transaction.request
      exact ⟨0, by rw [hport, pending_responding hcv, hct, hp.1]⟩
    | @taking y rest' hv hfl hq' hs hd hport =>
      rw [hq, List.cons.injEq] at hq'
      exact ⟨_, by rw [hport, DataPort.pending, if_pos rfl, hq'.1]; rfl⟩
    | resting hv hd hport =>
      rw [hd, Bool.false_or] at hsent
      exact absurd (hown hsent hv hd) not_false
  · rw [(carried_frame s false x).2.2.2.2.1, h.sentHead x hx] at hsent
    cases hsent
  · rw [(access_issued (issuing_some hd) hm).2] at hsent
    cases hsent

theorem port_tick (h : Inv s) (hrun : s.status = .running) : PortOk s.tick where
  apart hv := by
    cases port_event h hrun with
    | counting _ _ hport => rw [hport]
    | responding _ _ hport => rw [hport] at hv; cases hv
    | taking _ _ _ _ _ hport => rw [hport]
    | resting _ _ hport => rw [hport]
  busy hv := by
    cases port_event h hrun with
    | counting hv hr hport =>
      rw [hport]
      have := (h.port.busy hv).2
      exact ⟨by show 1 ≤ s.port.transaction.remainingCycles - 1; omega,
        by show s.port.transaction.remainingCycles - 1 ≤ _; omega⟩
    | responding _ _ hport => rw [hport] at hv; cases hv
    | taking _ _ _ _ _ hport => rw [hport]; exact ⟨Nat.le_add_left 1 2, Nat.le_refl _⟩
    | resting hv' _ hport => rw [hport, hv'] at hv; cases hv
  sender := sender_tick h hrun
  asked := asked_tick h hrun
  answered := answered_tick h hrun
  store := store_tick h hrun
  own := own_tick h hrun

/-! ## Finished stores -/

/-- The store that is done is the ROB head, still waiting. -/
theorem storeDone_rob_head (h : Inv s) (hv : s.storeDone.valid = true) :
    ∃ x, s.rob.live.head? = some x ∧ x.tag = s.storeDone.tag ∧ x.ready = false := by
  obtain ⟨-, e, rest, hq, ht, hst, hm, -⟩ := storeDone_head h hv
  obtain ⟨hrv, hrt, -⟩ := h.matched hq hm
  have hstore : s.port.response.isStore = true := by
    rw [h.port.answered hrv e (by rw [hq]; rfl) hrt, (complete_frame _ _).2.2]
    simp [LoadStoreQueue.makeMemoryRequest, hst]
  have hnt : s.port.transaction.valid = false := by
    cases hx : s.port.transaction.valid with
    | false => rfl
    | true => rw [h.port.apart hx] at hrv; cases hrv
  rw [ht, hrt]
  exact h.port.store _ (by simp [DataPort.storing, hnt, hrv, hstore])

theorem mem_tick_live_tail (hrun : s.status = .running) (hw : s.rob.Wf) {e : RobEntry}
    (he : e ∈ s.tick.rob.live.tail) :
    (∃ x ∈ s.rob.live.tail, e = s.finish x) ∨ ∃ d, s.issuing = some d ∧ e = s.issuedRob d := by
  have hmem := mem_tick_live hrun hw (List.mem_of_mem_tail he)
  by_cases hfl : s.flush = true
  · rw [live_flush hrun hw hfl] at he; cases he
  · have hfl : s.flush = false := by simpa using hfl
    rw [(tick_rob hrun hw).2] at he
    have hsub : ∀ y ∈ s.survivors.tail, ∃ x ∈ s.rob.live.tail, y = s.finish x := by
      intro y hy
      rcases survivors_cases hw hfl with ⟨x, t, hl, -, -, hs⟩ | ⟨-, -, hs⟩
      · rw [hs] at hy
        obtain ⟨z, hz, rfl⟩ := List.mem_map.mp (List.mem_of_mem_tail hy)
        exact ⟨z, by rw [hl]; exact hz, rfl⟩
      · rw [hs, ← List.map_tail] at hy
        obtain ⟨z, hz, rfl⟩ := List.mem_map.mp hy
        exact ⟨z, hz, rfl⟩
    cases hs : s.survivors with
    | nil =>
      rw [hs, List.nil_append] at he
      exact Or.inr (mem_newRob (List.mem_of_mem_tail he))
    | cons a t =>
      rw [hs, List.cons_append, List.tail_cons] at he
      rcases List.mem_append.mp he with he | he
      · exact Or.inl (hsub e (by rw [hs]; exact he))
      · exact Or.inr (mem_newRob he)

/-- A store is ready only as the ROB head, where it is about to commit. -/
theorem storeHead_tick (h : Inv s) (hrun : s.status = .running) :
    ∀ e ∈ s.tick.rob.live.tail, e.op.isStore = true → e.ready = false := by
  intro e he hst
  rcases mem_tick_live_tail hrun h.rob he with ⟨x, hx, rfl⟩ | ⟨d, hd, rfl⟩
  · have hxl := List.mem_of_mem_tail hx
    rw [finish_op] at hst
    have hxr := h.storeHead x hx hst
    rw [finish_ready h hxl, hxr, Bool.false_or]
    have hm : x.tag ∈ pending (·.tag) memWaiting s.rob.live :=
      mem_pending.mpr ⟨x, hxl, by simp [memWaiting, waits, hxr, Op.isMemory, hst], rfl⟩
    rw [finishes_mem h hm]
    by_contra hc
    simp only [Bool.not_eq_false, Bool.or_eq_true, Bool.and_eq_true, beq_iff_eq] at hc
    rcases hc with ⟨hg, ht⟩ | ⟨hv, ht⟩
    · obtain ⟨y, hy, hyt, hyl⟩ := h.loaded (loadGranted_valid h hg)
      rw [inj h.nodup hy hxl (hyt.trans ht.symm), Op.isLoad_of_isStore hst] at hyl
      cases hyl
    · -- the store that is done heads the buffer, so it is not behind the head
      obtain ⟨y, hy, hyt, -⟩ := storeDone_rob_head h hv
      obtain ⟨t, hl⟩ := List.head?_eq_some_iff.mp hy
      have hn := h.nodup
      rw [hl] at hx hn
      rw [RobState.tags, List.map_cons, List.nodup_cons] at hn
      exact hn.1 (by rw [hyt, ← ht]; exact List.mem_map_of_mem hx)
  · show (d.decoded.op == .halt) = false
    exact beq_eq_false_iff_ne.mpr (Op.ne_halt_of_isStore hst)

end Core

end TomasuloCpu
