/-
  TomasuloCpu.Tomasulo.StoreCommit — when and what a store writes.

  The latch of a cycle changes the memory only with the write of the transaction that
  completes in it, which is a store's (`storeWrite_spec`). That store is the ROB head, it
  has not committed, and the queue's head carries its operands (`storing_head`). Its
  response is visible in the next cycle, it becomes ready in that one and commits in the
  cycle after (`Writes.commits`); a store commits in no other way (`commits_written`).
-/
import TomasuloCpu.Memory.MemoryProofs
import TomasuloCpu.Tomasulo.MemoryOrder
import TomasuloCpu.Tomasulo.Stopping

namespace TomasuloCpu

open Keyed

namespace Core

variable {s : Core} {tr : Nat → Core}

/-! ## The write of a cycle -/

/-- The write the latch of the cycle applies. -/
def storeWrite (s : Core) : PendingStoreWrite :=
  if s.status = .running then (MemoryUnit.step s.memory s.port s.lsqDecision.outputs.memoryRequest).storeWrite
  else {}

/-- The latch of the cycle writes memory. -/
def written (s : Core) : Bool := s.storeWrite.valid

theorem tick_memory (s : Core) :
    s.tick.memory = if s.written then (MemoryUnit.applyStoreWrite s.memory s.storeWrite).2 else s.memory := by
  unfold written storeWrite
  by_cases hrun : s.status = .running
  · rw [tick_eq hrun, if_pos hrun]
  · rw [tick_of_stopped hrun, if_neg hrun]
    rfl

theorem storeWrite_spec (hw : s.written = true) :
    s.status = .running ∧ s.port.transaction.valid = true ∧ s.port.transaction.remainingCycles ≤ 1 ∧
      s.port.transaction.request.type = .store ∧
      MemoryImage.inBounds s.port.transaction.request.address
        (MemoryUnit.widthInBytes s.port.transaction.request.width) = true ∧
      s.storeWrite =
        { address := s.port.transaction.request.address, value := s.port.transaction.request.value
          width := s.port.transaction.request.width, valid := true } := by
  unfold written storeWrite at hw
  unfold storeWrite
  split at hw
  · rename_i hrun
    rw [if_pos hrun]
    unfold MemoryUnit.step at hw ⊢
    split at hw
    · rename_i hv
      rw [if_pos hv]
      split at hw
      · cases hw
      · rename_i hrem
        rw [if_neg hrem]
        cases ht : s.port.transaction.request.type with
        | load =>
          have hc := complete_load (m := s.memory) ht
          simp only [hc] at hw
          cases hw
        | store =>
          simp only [MemoryUnit.completeCurrentTransaction, ht, MemoryUnit.scheduleStore] at hw ⊢
          split at hw
          · rename_i hb
            rw [if_pos hb]
            exact ⟨hrun, hv, by omega, trivial, hb, rfl⟩
          · cases hw
    · split at hw <;> cases hw
  · cases hw

/-- A store under way is the ROB head's, and the queue's head asked for it. -/
theorem storing_head (h : Inv s) (hv : s.port.transaction.valid = true)
    (ht : s.port.transaction.request.type = .store) :
    ∃ x e rest, s.rob.live.head? = some x ∧ x.ready = false ∧ x.tag = s.port.transaction.request.tag ∧
      x.op = e.op ∧ s.lsq.queue = e :: rest ∧ e.destination = x.tag ∧ e.requestSent = true ∧ e.type = .store ∧
      s.port.transaction.request = LoadStoreQueue.makeMemoryRequest e := by
  obtain ⟨x, hx, hxt, hxr⟩ := h.port.store s.port.transaction.request.tag (by simp [DataPort.storing, hv, ht])
  have hlive : s.port.transaction.request.tag ∈ RobState.tags s.rob.live := by
    rw [← hxt]
    exact List.mem_map_of_mem (List.mem_of_mem_head? hx)
  obtain ⟨e, he, het, hes⟩ := port_head h (r := s.port.transaction.remainingCycles) (by simp [DataPort.pending, hv]) hlive
  obtain ⟨rest, hq⟩ := cons_of_head he
  have hreq := h.port.asked hv e he het
  obtain ⟨y, hy, hyt, hyop, -⟩ := h.queued_entry (head_mem he)
  have hxy : x = y := inj h.nodup (List.mem_of_mem_head? hx) hy (by rw [hyt, het, hxt])
  have hty : e.type = .store := by
    rw [hreq] at ht
    exact ht
  exact ⟨x, e, rest, hx, hxr, hxt, by rw [hxy, hyop], hq, by rw [het, hxt], hes, hty, hreq⟩

/-- A write stores the low bytes of the data at base + immediate, as the queue's head has
    them. -/
theorem memory_written (h : Inv s) (hw : s.written = true) :
    ∃ x e rest, s.rob.live.head? = some x ∧ x.ready = false ∧ x.op.isStore = true ∧ x.op = e.op ∧
      s.lsq.queue = e :: rest ∧ e.destination = x.tag ∧ e.base.ready = true ∧ e.storeData.ready = true ∧
      (e.base.value + e.immediate).toNat + MemoryUnit.widthInBytes (LoadStoreQueue.memoryWidth e.op) ≤ kMemorySize ∧
      s.tick.memory =
        { s.memory with
          bytes := LittleEndian.store s.memory.bytes (e.base.value + e.immediate).toNat
            (MemoryUnit.widthInBytes (LoadStoreQueue.memoryWidth e.op)) e.storeData.value } := by
  obtain ⟨-, hv, -, ht, hb, hwr⟩ := storeWrite_spec hw
  obtain ⟨x, e, rest, hx, hxr, -, hop, hq, hd, hsent, hty, hreq⟩ := storing_head h hv ht
  have hacc := h.access e (by rw [hq]; exact List.mem_cons_self)
  have haddr := hacc.sent hsent
  have hbase : e.base.ready = true := by rw [← hacc.address, haddr]
  have hmake : LoadStoreQueue.makeMemoryRequest e =
      { type := .store, width := LoadStoreQueue.memoryWidth e.op, address := e.base.value + e.immediate
        value := e.storeData.value, tag := e.destination, valid := true } := by
    rw [LoadStoreQueue.makeMemoryRequest, hty, if_pos rfl, hacc.address_eq haddr]
  rw [hreq, hmake] at hb hwr
  refine ⟨x, e, rest, hx, hxr, ?_, hop, hq, hd, hbase, hacc.sent_store hsent hty,
    MemoryImage.inBounds_width.mp hb, ?_⟩
  · rw [hop]
    exact hacc.store_op hty
  · rw [tick_memory, if_pos hw, hwr]
    exact MemoryUnit.applyStoreWrite_spec _ _ _ _ hb

/-! ## From the write to the commit -/

/-- A running machine with live instructions, none of them HALT at the head, stops only on
    a failed response. -/
theorem running_tick (h : Inv s) (hrun : s.status = .running) (hl : s.rob.live ≠ []) (hh : s.halts = false)
    (hm : s.memoryFails = false) : s.tick.status = .running := by
  cases status_event h hrun with
  | running hs => exact hs
  | halted _ hh' => rw [hh] at hh'; cases hh'
  | memory _ _ hm' => rw [hm] at hm'; cases hm'
  | fetch _ hl' => exact absurd hl' hl
  | invalid _ hl' => exact absurd hl' hl

/-- While the ROB head is not ready nothing commits. -/
theorem waiting_head (h : Inv s) {x : RobEntry} (hx : s.rob.live.head? = some x) (hr : x.ready = false) :
    s.committing = false ∧ s.halts = false ∧ s.flush = false := by
  have hne : ∀ y, s.rob.live.head? = some y → y.ready = false := by
    intro y hy
    rw [hx, Option.some.injEq] at hy
    rw [← hy, hr]
  refine ⟨?_, ?_, ?_⟩
  · by_contra hc
    obtain ⟨y, hy, hyr⟩ := (committing_iff h.rob).mp (by simpa using hc)
    rw [hne y hy] at hyr
    cases hyr
  · by_contra hc
    obtain ⟨y, hy, hyr, -⟩ := halts_head h (by simpa using hc)
    rw [hne y hy] at hyr
    cases hyr
  · by_contra hc
    obtain ⟨y, hy, hyr, -⟩ := (flush_iff h.rob).mp (by simpa using hc)
    rw [hne y hy] at hyr
    cases hyr

theorem live_ne_nil {x : RobEntry} (hx : s.rob.live.head? = some x) : s.rob.live ≠ [] := by
  intro hc
  rw [hc] at hx
  cases hx

/-- The oldest identity stays while its entry is not ready. -/
theorem head_id_kept (h : IsRun tr) {n : Nat} (hrun : (tr n).status = .running) {x : RobEntry}
    (hx : (tr n).rob.live.head? = some x) (hr : x.ready = false) :
    (liveIds tr (n + 1)).head? = (liveIds tr n).head? := by
  obtain ⟨hc, -, hfl⟩ := waiting_head (h.inv n) hx hr
  obtain ⟨id, hid, -⟩ := head_id h hx
  obtain ⟨rest, hl⟩ := List.head?_eq_some_iff.mp hid
  rw [liveIds_running hrun, keptIds, if_neg (by simp [hfl]), if_neg (by simp [hc]), hl]
  rfl

/-- The write of a cycle is that of the instruction issued in cycle `id`: it sent the
    request of the transaction that completes. -/
structure Writes (tr : Nat → Core) (n id : Nat) : Prop where
  written : (tr n).written = true
  sender : ∃ k, LastTaken tr n k ∧ Sends tr k id (tr n).port.transaction.request

theorem Writes.unique_id (h : IsRun tr) {n a b : Nat} (ha : Writes tr n a) (hb : Writes tr n b) : a = b := by
  obtain ⟨k, hk, hsa⟩ := ha.sender
  obtain ⟨k', hk', hsb⟩ := hb.sender
  obtain rfl := hk.unique hk'
  exact tagOf_inj h hsa.live hsb.live (by rw [← hsa.tag, ← hsb.tag])

/-- A write is that of the oldest instruction. -/
theorem writes_head (h : IsRun tr) {n : Nat} (hw : (tr n).written = true) :
    ∃ id, Writes tr n id ∧ (liveIds tr n).head? = some id := by
  have hi := h.inv n
  obtain ⟨hrun, hv, -, ht, -⟩ := storeWrite_spec hw
  obtain ⟨x, e, rest, hx, hxr, hxt, -, hq, hd, hsent, -, hreq⟩ := storing_head hi hv ht
  obtain ⟨k, hl, -, htk⟩ := (port_history h hrun).1 hv
  have he : e ∈ (tr n).lsq.queue := by rw [hq]; exact List.mem_cons_self
  obtain ⟨-, id, hid, hidt, hsend⟩ := sends_of_last h hrun he hsent hl htk (by rw [← hxt, hd])
  obtain ⟨id', hhead, hidt'⟩ := head_id h hx
  have heq : id = id' := tagOf_inj h hid (List.mem_of_mem_head? hhead) (by rw [hidt, hidt', hd])
  rw [← heq] at hhead
  exact ⟨id, ⟨hw, k, hl, by rw [hreq]; exact hsend⟩, hhead⟩

/-- The cycle after the write: the store has its response and gets ready. -/
theorem store_answered (h : Inv s) (hw : s.written = true) {x : RobEntry} (hx : s.rob.live.head? = some x) :
    s.tick.status = .running ∧ s.tick.rob.live.head? = some (s.finish x) ∧ (s.finish x).ready = false ∧
      s.tick.memoryFails = false ∧ s.tick.finishes x.tag = true := by
  obtain ⟨hrun, hv, hrem, ht, hb, -⟩ := storeWrite_spec hw
  obtain ⟨y, e, rest, hy, hxr, hxt, -, hq, hd, hsent, hty, -⟩ := storing_head h hv ht
  obtain rfl : x = y := Option.some.inj (hx.symm.trans hy)
  have hxl := List.mem_of_mem_head? hx
  have he : e ∈ s.lsq.queue := by rw [hq]; exact List.mem_cons_self
  obtain ⟨-, hh, hfl⟩ := waiting_head h hx hxr
  obtain ⟨hrm, hmark, hdone⟩ := busy_quiet h hfl hv
  have hm : s.memoryFails = false := by
    by_contra hc
    obtain ⟨-, y, rest', hq', hmatch, -⟩ := memoryFails_head h (by simpa using hc)
    have hresp := (h.matched hq' hmatch).1
    rw [h.port.apart hv] at hresp
    cases hresp
  have hrun' := running_tick h hrun (live_ne_nil hx) hh hm
  have hport : s.tick.port =
      { response := (MemoryUnit.completeCurrentTransaction s.memory s.port.transaction.request).1 } := by
    cases port_event h hrun with
    | counting _ hr => omega
    | responding _ _ hp => exact hp
    | taking hv' => rw [hv] at hv'; cases hv'
    | resting hv' => rw [hv] at hv'; cases hv'
  obtain ⟨-, hhead⟩ := head_kept h hrun hx hxr
  have hfin : (s.finish x).ready = false := by
    rw [finish_ready h hxl, hxr, ← hd, finishes_queued h he, hdone]
    rfl
  have hqhead := queue_tick_head h hrun hfl hq hrm
  rw [hmark] at hqhead
  have h' := h.tick
  obtain ⟨-, -, hfl'⟩ := waiting_head h' hhead hfin
  -- the response is the head's own, and a store in bounds succeeds
  obtain ⟨hdest, -, hty', -⟩ := carried_frame s false e
  obtain ⟨hcv, hct, -⟩ := complete_frame s.memory s.port.transaction.request
  have hmatch : LoadStoreQueue.matchingResponse (s.carried false e) s.tick.port.response = true := by
    refine response_matches h' hqhead ?_ ?_
    · rw [hport]; exact hcv
    · rw [hport, hdest, hd, hxt]; exact hct.symm
  have hsucc : s.tick.port.response.success = true := by
    rw [hport]
    simp only [MemoryUnit.completeCurrentTransaction, ht, MemoryUnit.scheduleStore, hb, if_true]
  obtain ⟨rest', hq'⟩ := cons_of_head hqhead
  have hfinishes := finishes_queued h' (head_mem hqhead)
  rw [hdest, hd] at hfinishes
  refine ⟨hrun', hhead, hfin, ?_⟩
  cases answer_event h' hfl' hq' hmatch with
  | failed hs => rw [hsucc] at hs; cases hs
  | loaded _ hload => rw [hty', hty] at hload; cases hload
  | stored _ _ hdone =>
    rw [memoryFails, hfinishes, storeDone, hdone, hdest, hd]
    simp

/-- The store that wrote is the next to commit, two cycles later. -/
theorem Writes.commits (h : IsRun tr) {n id : Nat} (hw : Writes tr n id) :
    (tr n).committing = false ∧ (tr (n + 1)).committing = false ∧ Commits tr (n + 2) id := by
  have hi := h.inv n
  have hi' := h.inv (n + 1)
  obtain ⟨hrun, hv, -, ht, -⟩ := storeWrite_spec hw.written
  obtain ⟨x, -, -, hx, hxr, -⟩ := storing_head hi hv ht
  obtain ⟨hrun', hhead, hfin, hm, hdone⟩ := store_answered hi hw.written hx
  rw [← h.step] at hrun' hhead hm hdone
  obtain ⟨hc', hh', -⟩ := waiting_head hi' hhead hfin
  have hrun'' := running_tick hi' hrun' (live_ne_nil hhead) hh' hm
  obtain ⟨-, hhead'⟩ := head_kept hi' hrun' hhead hfin
  rw [← h.step] at hrun'' hhead'
  have hready : ((tr (n + 1)).finish ((tr n).finish x)).ready = true := by
    rw [finish_ready hi' (List.mem_of_mem_head? hhead), finish_tag, hdone, Bool.or_true]
  obtain ⟨id', hw', hid'⟩ := writes_head h hw.written
  obtain rfl := hw.unique_id h hw'
  refine ⟨(waiting_head hi hx hxr).1, hc', hrun'', (committing_iff (h.inv (n + 2)).rob).mpr ⟨_, hhead', hready⟩, ?_⟩
  rw [head_id_kept h hrun' hhead hfin, head_id_kept h hrun hx hxr, hid']

/-! ## From the commit to the write -/

theorem LastTaken.pred {n k : Nat} (h : LastTaken tr (n + 1) k) (hlt : k < n) : LastTaken tr n k :=
  ⟨hlt, h.taken, fun j hj hjn => h.quiet j hj (Nat.lt_succ_of_lt hjn)⟩

/-- A store gets ready only by its response, two cycles after its write. -/
theorem storeDone_written (h : IsRun tr) {n : Nat} (hrun : (tr n).status = .running)
    (hv : (tr n).storeDone.valid = true) :
    ∃ m id, n = m + 1 ∧ Writes tr m id ∧ id ∈ liveIds tr n ∧ tagOf tr id = (tr n).storeDone.tag := by
  have hi := h.inv n
  obtain ⟨hfl, e, rest, hq, hd, hty, hm, hs, -⟩ := storeDone_head hi hv
  obtain ⟨-, k, id, rfl, hl, hsend, hid, hidt, hresp, htv, hreq, hone⟩ :=
    answered_history h (answered_of_matching hi hrun hfl hq hm)
  have hrun' := h.running_of_succ hrun
  have htype : (LoadStoreQueue.makeMemoryRequest e).type = .store := hty
  have hb : MemoryImage.inBounds (LoadStoreQueue.makeMemoryRequest e).address
      (MemoryUnit.widthInBytes (LoadStoreQueue.makeMemoryRequest e).width) = true := by
    rw [hresp] at hs
    simp only [MemoryUnit.completeCurrentTransaction, htype, MemoryUnit.scheduleStore] at hs
    split at hs
    · assumption
    · cases hs
  refine ⟨k + 3, id, rfl, ⟨?_, k, hl.pred (by omega), by rw [hreq]; exact hsend⟩, hid, by rw [hidt, hd]⟩
  rw [written, storeWrite, if_pos hrun', MemoryUnit.step, if_pos htv, if_neg (by omega), hreq]
  simp only [MemoryUnit.completeCurrentTransaction, htype, MemoryUnit.scheduleStore, hb, if_true]

/-- A store that commits wrote memory two cycles before. -/
theorem commits_written (h : IsRun tr) {n id : Nat} (hc : Commits tr n id) {x : RobEntry}
    (hx : (tr n).rob.live.head? = some x) (hst : x.op.isStore = true) : ∃ m, n = m + 2 ∧ Writes tr m id := by
  obtain ⟨y, hy, hxr⟩ := (committing_iff (h.inv n).rob).mp hc.committing
  obtain rfl : y = x := Option.some.inj (hy.symm.trans hx)
  obtain ⟨id', hid', hidt⟩ := head_id h hx
  obtain rfl : id = id' := Option.some.inj (hc.head.symm.trans hid')
  have hxl := List.mem_of_mem_head? hx
  cases n with
  | zero => cases hc.mem
  | succ n =>
    have hi := h.inv n
    have hrun := h.running_of_succ hc.running
    rw [h.step] at hxl
    rcases mem_tick_live hrun hi.rob hxl with ⟨hfl, z, hz, rfl⟩ | ⟨d, hd, rfl⟩
    · rw [finish_op] at hst
      rw [finish_tag] at hidt
      obtain ⟨id'', hid'', hidt''⟩ := id_of_tag h (List.mem_map_of_mem (f := (·.tag)) hz)
      have hold : id ∈ liveIds tr n := kept_id h hrun hc.mem hz hidt.symm
      obtain rfl := tagOf_inj h hold hid'' (hidt.trans hidt''.symm)
      have hzr : z.ready = false := by
        by_contra hzr
        have hzr : z.ready = true := by simpa using hzr
        -- a ready store is the head, and would have committed in the cycle before
        have hhead : (tr n).rob.live.head? = some z := by
          cases hl : (tr n).rob.live with
          | nil => rw [hl] at hz; cases hz
          | cons a t =>
            rw [hl] at hz
            rcases List.mem_cons.mp hz with rfl | hz
            · rfl
            · rw [hi.storeHead z (by rw [hl]; exact hz) hst] at hzr
              cases hzr
        obtain ⟨b, hb, hbt⟩ := head_id h hhead
        obtain rfl := tagOf_inj h hold (List.mem_of_mem_head? hb) (hidt.trans hbt.symm)
        exact (Commits.gone ⟨hrun, (committing_iff hi.rob).mpr ⟨z, hhead, hzr⟩, hb⟩) hc.mem
      have hfin : (tr n).finishes z.tag = true := by
        have := finish_ready hi hz
        rw [hxr, hzr, Bool.false_or] at this
        exact this.symm
      have hpend : z.tag ∈ pending (·.tag) memWaiting (tr n).rob.live :=
        mem_pending.mpr ⟨z, hz, by simp [memWaiting, waits, hzr, Op.isMemory, hst], rfl⟩
      rw [finishes_mem hi hpend, Bool.or_eq_true, Bool.and_eq_true, Bool.and_eq_true, beq_iff_eq, beq_iff_eq] at hfin
      rcases hfin with ⟨hg, ht⟩ | ⟨hv, ht⟩
      · exfalso
        obtain ⟨y, hy, hyt, hyl⟩ := hi.loaded (loadGranted_valid hi hg)
        rw [inj hi.nodup hy hz (hyt.trans ht.symm), Op.isLoad_of_isStore hst] at hyl
        cases hyl
      · obtain ⟨m, w, rfl, hw, hwl, hwt⟩ := storeDone_written h hrun hv
        obtain rfl := tagOf_inj h hold hwl (by rw [hidt, hwt, ht])
        exact ⟨m, rfl, hw⟩
    · exfalso
      have hh : (d.decoded.op == .halt) = true := hxr
      exact Op.ne_halt_of_isStore hst (beq_iff_eq.mp hh)

theorem Writes.unique (h : IsRun tr) {m n id : Nat} (hm : Writes tr m id) (hn : Writes tr n id) : m = n := by
  have := (hm.commits h).2.2.unique (hn.commits h).2.2
  omega

end Core

namespace Cpu

open TomasuloCpu.Core

/-- In any run the memory changes only at the latch of a cycle whose ROB head is a store
    that is not ready. Then exactly the low bytes of that store's data are written,
    little-endian, at base + immediate of the queue entry with its tag; it is the next
    instruction to commit, two cycles later. A store that commits wrote exactly once, and
    a flushed instruction never writes. -/
theorem store_commit_safety (cpu : Cpu) (input : Istream) :
    (∀ n, (cpu.history input (n + 1)).memory ≠ (cpu.history input n).memory → (cpu.history input n).written = true) ∧
    (∀ n, (cpu.history input n).written = true → ∃ id x i, Writes (cpu.history input) n id ∧
      ReorderBuffer.front (cpu.history input n).rob = some x ∧ x.isStore = true ∧ x.ready = false ∧
      tagOf (cpu.history input) id = x.tag ∧
      ((cpu.history input n).lsq.entries i).valid = true ∧ ((cpu.history input n).lsq.entries i).destination = x.tag ∧
      ((cpu.history input n).lsq.entries i).op = x.op ∧
      ((cpu.history input n).lsq.entries i).base.ready = true ∧
      ((cpu.history input n).lsq.entries i).storeData.ready = true ∧
      (cpu.history input (n + 1)).memory =
        { (cpu.history input n).memory with
          bytes := LittleEndian.store (cpu.history input n).memory.bytes
            (((cpu.history input n).lsq.entries i).base.value + ((cpu.history input n).lsq.entries i).immediate).toNat
            (MemoryUnit.widthInBytes (LoadStoreQueue.memoryWidth x.op))
            ((cpu.history input n).lsq.entries i).storeData.value } ∧
      (cpu.history input n).committing = false ∧ (cpu.history input (n + 1)).committing = false ∧
      Commits (cpu.history input) (n + 2) id) ∧
    (∀ n id, Commits (cpu.history input) n id → (cpu.history input n).commit.entry.isStore = true →
      ∃! m, Writes (cpu.history input) m id) ∧
    ∀ j id, Flushes (cpu.history input) j id → ∀ n, ¬ Writes (cpu.history input) n id := by
  have h := history_isRun cpu input
  refine ⟨fun n hne => ?_, fun n hw => ?_, fun n id hc hst => ?_, fun j id hf n hw => ?_⟩
  · by_contra hw
    refine hne ?_
    rw [h.step, tick_memory, if_neg hw]
  · have hi := h.inv n
    obtain ⟨id, hwr, hid⟩ := writes_head h hw
    obtain ⟨x, e, rest, hx, hxr, hst, hop, hq, hd, hb, hsd, -, hmem⟩ := memory_written hi hw
    obtain ⟨id', hid', ht⟩ := head_id h hx
    obtain rfl : id = id' := Option.some.inj (hid.symm.trans hid')
    have he := LoadStoreQueue.entries_head hi.lsq hq
    refine ⟨id, x, (cpu.history input n).lsq.head, hwr, by rw [ReorderBuffer.front_eq hi.rob, hx], ?_, hxr, ht, ?_⟩
    · rw [(hi.entry x (List.mem_of_mem_head? hx)).store, hst]
    · rw [he, hop]
      exact ⟨LoadStoreQueue.queue_valid hi.lsq (by rw [hq]; exact List.mem_cons_self), hd, rfl, hb, hsd,
        by rw [h.step, hmem], hwr.commits h⟩
  · have hi := h.inv n
    obtain ⟨x, hx, hr⟩ := (committing_iff hi.rob).mp hc.committing
    rw [(commit_entry hi.rob hx hr).1, (hi.entry x (List.mem_of_mem_head? hx)).store] at hst
    obtain ⟨m, -, hw⟩ := commits_written h hc hx hst
    exact ⟨m, hw, fun m' hw' => hw'.unique h hw⟩
  · exact (hw.commits h).2.2.not_flushes hf

/-- The store of the sample writes at the latch of cycle 9, commits in cycle 11 and writes
    in no other cycle. -/
theorem store_commit_safety_sample :
    ∃ id, Writes ((sample 0).history sampleImage) 9 id ∧ Commits ((sample 0).history sampleImage) 11 id ∧
      ∃! m, Writes ((sample 0).history sampleImage) m id := by
  have hw : ((sample 0).history sampleImage 9).written = true := by
    rw [history_eq]
    decide +kernel
  have hst : ((sample 0).history sampleImage 11).commit.entry.isStore = true := by
    rw [history_eq]
    decide +kernel
  obtain ⟨id, -, -, hwr, -, -, -, -, -, -, -, -, -, -, -, -, hc⟩ :=
    (store_commit_safety (sample 0) sampleImage).2.1 9 hw
  exact ⟨id, hwr, hc, (store_commit_safety (sample 0) sampleImage).2.2.1 11 id hc hst⟩

end Cpu

end TomasuloCpu
