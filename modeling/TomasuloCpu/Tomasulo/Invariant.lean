/-
  TomasuloCpu.Tomasulo.Invariant — what holds of every reachable machine.

  The reorder buffer's live list is the reference: every other module's contents are
  stated against it.
  - `alu`, `mem`: the waiting entries' tags are, as a bag, those in the reservation
    station and the integer unit, and, in order, those in the load-result buffer and the
    load/store queue.
  - `rat`: the rename table names the youngest live writer of each register.
  - `rsOperands`, `lsqOperands`: a waiting operand names an older live writer that has
    not finished.
  - `PortOk`: what the memory port holds was sent by the queue's head, or is a leftover
    of a flushed access whose tag no live entry carries; a store's is the ROB head's.

  `LsqEvent` lists what the queue's head can do in a cycle; `lsq_event` reads it off the
  plan.
-/
import TomasuloCpu.Lib.Keyed
import TomasuloCpu.Tomasulo.Edge

namespace TomasuloCpu

open Keyed

/-! ## Entries -/

/-- The flags of a live ROB entry follow from its operation. -/
structure EntryOk (e : RobEntry) : Prop where
  op_ne : e.op ≠ .invalid
  store : e.isStore = e.op.isStore
  branch : e.isBranch = e.op.isBranch
  jump : e.isJump = e.op.isJump
  writes : e.writesRd = (e.op.writes && e.rd != 0)
  rd_lt : e.rd.toNat < 32
  halt : e.op = .halt → e.ready = true

/-- Not ready, and an operation of the kind `q`. -/
def waits (q : Op → Bool) (e : RobEntry) : Bool := !e.ready && q e.op

def aluWaiting : RobEntry → Bool := waits Op.isAlu

def memWaiting : RobEntry → Bool := waits Op.isMemory

def writesTo (r : RegisterIndex) (e : RobEntry) : Bool := e.writesRd && e.rd == r

/-- The tag a result buffer holds, if it holds a result. -/
def holds (r : FuResult) : List RobTag := if r.valid then [r.tag] else []

/-- An operand of the instruction tagged `t` is there, or an older live writer will
    broadcast it. -/
def Awaits (l : List RobEntry) (t : RobTag) (x : Operand) : Prop :=
  x.ready = true ∨ (Before (·.tag) l x.tag t ∧ ∃ e ∈ l, e.tag = x.tag ∧ e.writesRd = true ∧ e.ready = false)

/-- A queued access has its address as soon as its base, and is sent only with all it needs. -/
structure AccessOk (e : LsqEntry) : Prop where
  type : e.type = if e.op.isStore then .store else .load
  address : e.addressReady = e.base.ready
  address_eq : e.addressReady = true → e.address = e.base.value + e.immediate
  sent : e.requestSent = true → e.addressReady = true
  sent_store : e.requestSent = true → e.type = .store → e.storeData.ready = true

theorem AccessOk.store_op {e : LsqEntry} (h : AccessOk e) (ht : e.type = .store) : e.op.isStore = true := by
  have htype := h.type
  rw [ht] at htype
  by_contra hc
  rw [if_neg hc] at htype
  cases htype

theorem AccessOk.load_op {e : LsqEntry} (h : AccessOk e) (ht : e.type = .load) : e.op.isStore = false := by
  have htype := h.type
  rw [ht] at htype
  by_contra hc
  rw [if_pos (by simpa using hc)] at htype
  cases htype

/-! ## The memory port -/

/-- The tag the port works for, and the cycles until its response is visible. -/
def DataPort.pending (p : DataPort) : Option (RobTag × Nat) :=
  if p.transaction.valid then some (p.transaction.request.tag, p.transaction.remainingCycles)
  else if p.response.valid then some (p.response.tag, 0) else none

/-- The tag of the store under way. -/
def DataPort.storing (p : DataPort) : Option RobTag :=
  if p.transaction.valid && p.transaction.request.type == .store then some p.transaction.request.tag
  else if p.response.valid && p.response.isStore then some p.response.tag else none

namespace Core

/-- No live entry carries `t`, and its slot has not been reused often enough for that to
    change before the port lets go of it. -/
def Stale (s : Core) (t : RobTag) (remaining : Nat) : Prop :=
  t ∉ RobState.tags s.rob.live ∧
    (s.rob.generations t.index.toNat - t.generation).toNat + remaining ≤ MemoryUnit.kDataLatency

structure PortOk (s : Core) : Prop where
  apart : s.port.transaction.valid = true → s.port.response.valid = false
  busy : s.port.transaction.valid = true →
    1 ≤ s.port.transaction.remainingCycles ∧ s.port.transaction.remainingCycles ≤ MemoryUnit.kDataLatency
  sender : ∀ t r, s.port.pending = some (t, r) →
    (∃ e, s.lsq.queue.head? = some e ∧ e.destination = t ∧ e.requestSent = true) ∨ s.Stale t r
  asked : s.port.transaction.valid = true → ∀ e, s.lsq.queue.head? = some e →
    e.destination = s.port.transaction.request.tag →
      s.port.transaction.request = LoadStoreQueue.makeMemoryRequest e
  answered : s.port.response.valid = true → ∀ e, s.lsq.queue.head? = some e → e.destination = s.port.response.tag →
    s.port.response = (MemoryUnit.completeCurrentTransaction s.memory (LoadStoreQueue.makeMemoryRequest e)).1
  store : ∀ t, s.port.storing = some t → ∃ h, s.rob.live.head? = some h ∧ h.tag = t ∧ h.ready = false
  own : s.status = .running → ∀ e, s.lsq.queue.head? = some e → e.requestSent = true →
    ∃ r, s.port.pending = some (e.destination, r)

/-! ## The invariant -/

structure Inv (s : Core) : Prop where
  rob : s.rob.Wf
  lsq : s.lsq.Wf
  entry : ∀ e ∈ s.rob.live, EntryOk e
  alu : (s.rs.waiting.map (·.destination) ++ holds s.fu).Perm (pending (·.tag) aluWaiting s.rob.live)
  mem : holds s.lsq.loadResult ++ s.lsq.queue.map (·.destination) = pending (·.tag) memWaiting s.rob.live
  rsOp : ∀ e ∈ s.rs.waiting, ∃ x ∈ s.rob.live, x.tag = e.destination ∧ x.op = e.op
  lsqOp : ∀ e ∈ s.lsq.queue, ∃ x ∈ s.rob.live, x.tag = e.destination ∧ x.op = e.op
  loaded : s.lsq.loadResult.valid = true → ∃ x ∈ s.rob.live, x.tag = s.lsq.loadResult.tag ∧ x.op.isLoad = true
  access : ∀ e ∈ s.lsq.queue, AccessOk e
  sentHead : ∀ e ∈ s.lsq.queue.tail, e.requestSent = false
  sentLoad : ∀ e ∈ s.lsq.queue, e.requestSent = true → e.type = .load → s.lsq.loadResult.valid = false
  port : PortOk s
  storeHead : ∀ e ∈ s.rob.live.tail, e.op.isStore = true → e.ready = false
  rat : ∀ r, s.rat r = (latest (·.tag) (writesTo r) s.rob.live).getD {}
  rsOperands : ∀ e ∈ s.rs.waiting,
    Awaits s.rob.live e.destination e.lhs ∧ Awaits s.rob.live e.destination e.rhs
  lsqOperands : ∀ e ∈ s.lsq.queue, Awaits s.rob.live e.destination e.base ∧
    (e.type = .store → Awaits s.rob.live e.destination e.storeData)

variable {s : Core}

/-! ## Consequences -/

namespace Inv

theorem nodup (h : Inv s) : (RobState.tags s.rob.live).Nodup := ReorderBuffer.nodup_tags h.rob

theorem tag_mem {e : RobEntry} (he : e ∈ s.rob.live) : e.tag ∈ RobState.tags s.rob.live := List.mem_map_of_mem he

/-- A queued access belongs to a live memory instruction that is not ready. -/
theorem queued_entry (h : Inv s) {e : LsqEntry} (he : e ∈ s.lsq.queue) :
    ∃ x ∈ s.rob.live, x.tag = e.destination ∧ x.op = e.op ∧ x.ready = false ∧ x.op.isMemory = true := by
  obtain ⟨x, hx, ht, hop⟩ := h.lsqOp e he
  have hm : x.tag ∈ pending (·.tag) memWaiting s.rob.live := by
    rw [ht, ← h.mem]
    exact List.mem_append_right _ (List.mem_map_of_mem he)
  have hw := of_key_mem_pending h.nodup hx hm
  simp only [memWaiting, waits, Bool.and_eq_true, Bool.not_eq_true'] at hw
  exact ⟨x, hx, ht, hop, hw.1, hw.2⟩

/-- A waiting station entry belongs to a live integer instruction that is not ready. -/
theorem station_entry (h : Inv s) {e : RsEntry} (he : e ∈ s.rs.waiting) :
    ∃ x ∈ s.rob.live, x.tag = e.destination ∧ x.op = e.op ∧ x.ready = false ∧ x.op.isAlu = true := by
  obtain ⟨x, hx, ht, hop⟩ := h.rsOp e he
  have hm : x.tag ∈ pending (·.tag) aluWaiting s.rob.live := by
    rw [ht, ← h.alu.mem_iff]
    exact List.mem_append_left _ (List.mem_map_of_mem he)
  have hw := of_key_mem_pending h.nodup hx hm
  simp only [aluWaiting, waits, Bool.and_eq_true, Bool.not_eq_true'] at hw
  exact ⟨x, hx, ht, hop, hw.1, hw.2⟩

theorem fu_pending (h : Inv s) (hv : s.fu.valid = true) : s.fu.tag ∈ pending (·.tag) aluWaiting s.rob.live := by
  rw [← h.alu.mem_iff]
  exact List.mem_append_right _ (by simp [holds, hv])

theorem loadResult_pending (h : Inv s) (hv : s.lsq.loadResult.valid = true) :
    s.lsq.loadResult.tag ∈ pending (·.tag) memWaiting s.rob.live := by
  rw [← h.mem]
  exact List.mem_append_left _ (by simp [holds, hv])

theorem queue_pending (h : Inv s) {e : LsqEntry} (he : e ∈ s.lsq.queue) :
    e.destination ∈ pending (·.tag) memWaiting s.rob.live := by
  rw [← h.mem]
  exact List.mem_append_right _ (List.mem_map_of_mem he)

theorem pending_valid (h : Inv s) {p : RobEntry → Bool} {t : RobTag} (ht : t ∈ pending (·.tag) p s.rob.live) :
    t.valid = true := by
  obtain ⟨x, hx, -, rfl⟩ := mem_pending.mp ht
  exact ReorderBuffer.live_tag_valid h.rob hx

/-- What the unit and the load buffer hold, the bus can take. -/
theorem offered_fu (h : Inv s) : offered s.fu = s.fu.valid := by
  unfold offered CommonDataBus.validCandidate
  cases hv : s.fu.valid with
  | false => rfl
  | true => rw [h.pending_valid (h.fu_pending hv)]; rfl

theorem offered_loadResult (h : Inv s) : offered s.lsq.loadResult = s.lsq.loadResult.valid := by
  unfold offered CommonDataBus.validCandidate
  cases hv : s.lsq.loadResult.valid with
  | false => rfl
  | true => rw [h.pending_valid (h.loadResult_pending hv)]; rfl

/-- A response with a live tag is for the queue's head, which has sent its request. -/
theorem matched (h : Inv s) {e : LsqEntry} {rest : List LsqEntry} (hq : s.lsq.queue = e :: rest)
    (hm : LoadStoreQueue.matchingResponse e s.port.response = true) :
    s.port.response.valid = true ∧ e.destination = s.port.response.tag ∧ e.requestSent = true := by
  unfold LoadStoreQueue.matchingResponse at hm
  split at hm
  · cases hm
  · rename_i hv
    simp only [Bool.or_eq_true, Bool.not_eq_true', not_or, Bool.not_eq_false] at hv
    split at hm
    · cases hm
    · rename_i ht
      have ht : e.destination = s.port.response.tag := not_not.mp ht
      have hnt : s.port.transaction.valid = false := by
        cases hx : s.port.transaction.valid with
        | false => rfl
        | true => rw [h.port.apart hx] at hv; cases hv.1.2
      have hp : s.port.pending = some (s.port.response.tag, 0) := by simp [DataPort.pending, hnt, hv.1.2]
      refine ⟨hv.1.2, ht, ?_⟩
      rcases h.port.sender _ _ hp with ⟨e', he', -, hs⟩ | ⟨hstale, -⟩
      · rw [hq] at he'
        cases he'
        exact hs
      · have he : e ∈ s.lsq.queue := by rw [hq]; exact List.mem_cons_self
        obtain ⟨x, hx, hxt, -⟩ := h.queued_entry he
        exact absurd (by rw [← ht, ← hxt]; exact tag_mem hx) hstale

end Inv

/-! ## The queue's head in one cycle -/

def clearing (s : Core) : LsqDecision := LoadStoreQueue.planClear s.lsq s.observe.lsq

/-- What the load/store queue decides in a cycle without a flush. -/
inductive LsqEvent (s : Core) : LsqDecision → Prop where
  | idle (hq : ∀ e rest, s.lsq.queue = e :: rest →
      LoadStoreQueue.matchingResponse e s.port.response = false ∧
        LoadStoreQueue.maySend s.lsq e s.observe.lsq = false) : LsqEvent s s.clearing
  | failed {e : LsqEntry} {rest : List LsqEntry} (hq : s.lsq.queue = e :: rest)
      (hm : LoadStoreQueue.matchingResponse e s.port.response = true) (hs : s.port.response.success = false) :
      LsqEvent s { s.clearing with outputs := { memoryError := true } }
  | send {e : LsqEntry} {rest : List LsqEntry} (hq : s.lsq.queue = e :: rest)
      (hs : LoadStoreQueue.maySend s.lsq e s.observe.lsq = true) :
      LsqEvent s { s.clearing with
        outputs := { memoryRequest := LoadStoreQueue.makeMemoryRequest e }, markRequestSent := true }
  | loaded {e : LsqEntry} {rest : List LsqEntry} (hq : s.lsq.queue = e :: rest)
      (hm : LoadStoreQueue.matchingResponse e s.port.response = true) (hs : s.port.response.success = true)
      (ht : e.type = .load) :
      LsqEvent s { s.clearing with
        completedLoadResult :=
          { tag := e.destination, result := LoadStoreQueue.extendLoadResult e.op s.port.response.value, valid := true }
        installLoadResult := true, removeHead := true }
  | stored {e : LsqEntry} {rest : List LsqEntry} (hq : s.lsq.queue = e :: rest)
      (hm : LoadStoreQueue.matchingResponse e s.port.response = true) (hs : s.port.response.success = true)
      (ht : e.type = .store) :
      LsqEvent s { s.clearing with
        outputs := { storeCompletion := { tag := e.destination, valid := true } }, removeHead := true }

theorem maySend_of_sent {l : LsqState} {e : LsqEntry} (h : e.requestSent = true) (inputs : LsqObserveInputs) :
    LoadStoreQueue.maySend l e inputs = false := by
  simp [LoadStoreQueue.maySend, h]

theorem lsq_event (h : Inv s) (hfl : s.flush = false) : LsqEvent s s.lsqDecision := by
  have hdec : s.lsqDecision = LoadStoreQueue.plan s.lsq s.observe.lsq := rfl
  have hresp : s.observe.lsq.memoryResponse = s.port.response := rfl
  cases hq : s.lsq.queue with
  | nil =>
    rw [hdec, LoadStoreQueue.plan_nil hq hfl]
    exact .idle fun e rest h => by rw [hq] at h; cases h
  | cons e rest =>
    rw [hdec, LoadStoreQueue.plan_cons h.lsq hq hfl, hresp]
    by_cases hm : LoadStoreQueue.matchingResponse e s.port.response = true
    · have hsent := (h.matched hq hm).2.2
      rw [LoadStoreQueue.planSend, maySend_of_sent hsent, LoadStoreQueue.planResponse, if_pos hm]
      simp only [Bool.false_eq_true, if_false]
      by_cases hs : s.port.response.success = true
      · rw [if_neg (by simp [hs])]
        cases ht : e.type with
        | load => exact .loaded hq hm hs ht
        | store => exact .stored hq hm hs ht
      · rw [if_pos (by simp [hs])]
        exact .failed hq hm (by simpa using hs)
    · have hm' : LoadStoreQueue.matchingResponse e s.port.response = false := by simpa using hm
      rw [LoadStoreQueue.planResponse, if_neg hm, LoadStoreQueue.planSend]
      by_cases hs : LoadStoreQueue.maySend s.lsq e s.observe.lsq = true
      · rw [if_pos hs]
        exact .send hq hs
      · rw [if_neg hs]
        refine .idle fun e' rest' h' => ?_
        rw [hq] at h'
        cases h'
        exact ⟨hm', by simpa using hs⟩

/-- What the queue decides when the head `e` has its response. -/
inductive AnswerEvent (s : Core) (e : LsqEntry) : Prop where
  | failed (hs : s.port.response.success = false)
      (hd : s.lsqDecision = { s.clearing with outputs := { memoryError := true } })
  | loaded (hs : s.port.response.success = true) (ht : e.type = .load)
      (hd : s.lsqDecision =
        { s.clearing with
          completedLoadResult :=
            { tag := e.destination, result := LoadStoreQueue.extendLoadResult e.op s.port.response.value
              valid := true }
          installLoadResult := true, removeHead := true })
  | stored (hs : s.port.response.success = true) (ht : e.type = .store)
      (hd : s.lsqDecision =
        { s.clearing with
          outputs := { storeCompletion := { tag := e.destination, valid := true } }, removeHead := true })

theorem answer_event (h : Inv s) (hfl : s.flush = false) {e : LsqEntry} {rest : List LsqEntry}
    (hq : s.lsq.queue = e :: rest) (hm : LoadStoreQueue.matchingResponse e s.port.response = true) :
    AnswerEvent s e := by
  have hsent : e.requestSent = true := (h.matched hq hm).2.2
  have hev := lsq_event h hfl
  generalize hd : s.lsqDecision = d at hev
  cases hev with
  | idle hidle =>
    rw [(hidle e rest hq).1] at hm
    cases hm
  | send hq' hs =>
    rw [hq, List.cons.injEq] at hq'
    rw [← hq'.1, maySend_of_sent hsent] at hs
    cases hs
  | failed _ _ hs => exact .failed hs hd
  | loaded hq' _ hs ht =>
    rw [hq, List.cons.injEq] at hq'
    rw [← hq'.1] at ht hd
    exact .loaded hs ht hd
  | stored hq' _ hs ht =>
    rw [hq, List.cons.injEq] at hq'
    rw [← hq'.1] at ht hd
    exact .stored hs ht hd

/-- Only the head is marked as sent, and its request goes out. -/
theorem marked (h : Inv s) (hm : s.lsqDecision.markRequestSent = true) :
    ∃ e rest, s.lsq.queue = e :: rest ∧ LoadStoreQueue.maySend s.lsq e s.observe.lsq = true ∧
      s.lsqDecision =
        { s.clearing with
          outputs := { memoryRequest := LoadStoreQueue.makeMemoryRequest e }, markRequestSent := true } := by
  have hev := lsq_event h (noFlush_of_mark hm)
  generalize s.lsqDecision = d at hev hm
  cases hev with
  | idle => cases hm
  | failed => cases hm
  | loaded => cases hm
  | stored => cases hm
  | send hq hs => exact ⟨_, _, hq, hs, rfl⟩

/-- A head that may be sent is sent. -/
theorem sends_head (h : Inv s) (hfl : s.flush = false) {e : LsqEntry} {rest : List LsqEntry}
    (hq : s.lsq.queue = e :: rest) (hs : LoadStoreQueue.maySend s.lsq e s.observe.lsq = true) :
    s.lsqDecision =
      { s.clearing with
        outputs := { memoryRequest := LoadStoreQueue.makeMemoryRequest e }, markRequestSent := true } := by
  have hno : ∀ x rest', s.lsq.queue = x :: rest' →
      LoadStoreQueue.matchingResponse x s.port.response = true → False := by
    intro x rest' hx hm
    have hsent := (h.matched hx hm).2.2
    rw [hq, List.cons.injEq] at hx
    rw [← hx.1] at hsent
    rw [maySend_of_sent hsent] at hs
    cases hs
  have hev := lsq_event h hfl
  generalize s.lsqDecision = d at hev
  cases hev with
  | idle hidle =>
    rw [(hidle e rest hq).2] at hs
    cases hs
  | send hq' =>
    rw [hq, List.cons.injEq] at hq'
    rw [hq'.1]
  | failed hq' hm => exact (hno _ _ hq' hm).elim
  | loaded hq' hm => exact (hno _ _ hq' hm).elim
  | stored hq' hm => exact (hno _ _ hq' hm).elim

/-- The queue never removes its head and marks it sent in one cycle. -/
theorem serves (h : Inv s) (hfl : s.flush = false) : LoadStoreQueue.Serves s.lsq s.lsqDecision := by
  have hpos : ∀ {e : LsqEntry} {rest : List LsqEntry}, s.lsq.queue = e :: rest → 0 < s.lsq.count := by
    intro e rest hq
    rw [← LoadStoreQueue.length_queue, hq]
    exact Nat.succ_pos _
  have hev := lsq_event h hfl
  generalize s.lsqDecision = d at hev
  cases hev with
  | idle => exact ⟨fun hr => (by cases hr), fun hm => (by cases hm), fun hb => (by cases hb.1)⟩
  | failed => exact ⟨fun hr => (by cases hr), fun hm => (by cases hm), fun hb => (by cases hb.1)⟩
  | send hq => exact ⟨fun hr => (by cases hr), fun _ => hpos hq, fun hb => (by cases hb.1)⟩
  | loaded hq => exact ⟨fun _ => hpos hq, fun hm => (by cases hm), fun hb => (by cases hb.2)⟩
  | stored hq => exact ⟨fun _ => hpos hq, fun hm => (by cases hm), fun hb => (by cases hb.2)⟩

end Core

end TomasuloCpu
