/-
  TomasuloCpu.Tomasulo.MemoryTrace — requests and responses along a run.

  A request taken in cycle `k` is answered by the response visible in cycle `k + 4`, with
  nothing taken in between (`port_history`). A queued access is marked as sent exactly
  when it has sent its request (`queue_history`). From the two: a response is accepted
  only by the access that asked for it (`response_answers_own_request`), and accesses are
  sent once each, in program order (`memory_in_program_order`).
-/
import TomasuloCpu.Tomasulo.Trace

namespace TomasuloCpu

open Keyed

namespace Core

/-! ## Events -/

/-- The request the data port takes in the cycle. -/
def taken (s : Core) : Option DataMemoryRequest :=
  if s.status == .running && (MemoryUnit.step s.memory s.port s.lsqDecision.outputs.memoryRequest).accepted then
    some s.lsqDecision.outputs.memoryRequest
  else none

/-- The queue's head when the LSQ accepts a response for it in the cycle. -/
def answered (s : Core) : Option LsqEntry :=
  if s.status == .running && !s.flush && !LoadStoreQueue.empty s.lsq &&
      LoadStoreQueue.matchingResponse (s.lsq.entries s.lsq.head) s.port.response then
    some (s.lsq.entries s.lsq.head)
  else none

variable {s : Core} {tr : Nat → Core}

theorem taken_busy (hv : s.port.transaction.valid = true) : s.taken = none := by
  have h : (MemoryUnit.step s.memory s.port s.lsqDecision.outputs.memoryRequest).accepted = false := by
    unfold MemoryUnit.step
    rw [if_pos hv]
    split <;> rfl
  rw [taken, h, Bool.and_false, if_neg (by simp)]

theorem taken_unsent (h : Inv s) (hm : s.lsqDecision.markRequestSent = false) : s.taken = none := by
  by_cases hv : s.port.transaction.valid = true
  · exact taken_busy hv
  · have hacc : (MemoryUnit.step s.memory s.port s.lsqDecision.outputs.memoryRequest).accepted = false := by
      rw [request_unsent h hm, MemoryUnit.step, if_neg hv, if_neg (by simp)]
    rw [taken, hacc, Bool.and_false, if_neg (by simp)]

/-- The port takes a request exactly when the queue's head is marked as sent. -/
theorem taken_some (h : Inv s) {r : DataMemoryRequest} (ht : s.taken = some r) :
    s.status = .running ∧ s.flush = false ∧ s.lsqDecision.markRequestSent = true ∧
      s.lsqDecision.removeHead = false ∧ s.storeDone.valid = false ∧ ∃ e rest, s.lsq.queue = e :: rest ∧
        LoadStoreQueue.maySend s.lsq e s.observe.lsq = true ∧ r = LoadStoreQueue.makeMemoryRequest e := by
  have hm : s.lsqDecision.markRequestSent = true := by
    by_contra hc
    rw [taken_unsent h (by simpa using hc)] at ht
    cases ht
  have hfl : s.flush = false := noFlush_of_mark hm
  unfold taken at ht
  split at ht
  · rename_i hc
    simp only [Bool.and_eq_true, beq_iff_eq] at hc
    rw [Option.some.injEq] at ht
    refine ⟨hc.1, hfl, hm, ?_⟩
    obtain ⟨e, rest, hq, hs, hd⟩ := marked h hm
    rw [storeDone, hd]
    rw [hd] at ht
    exact ⟨rfl, rfl, e, rest, hq, hs, ht.symm⟩
  · cases ht

theorem taken_send (h : Inv s) (hrun : s.status = .running) {e : LsqEntry} {rest : List LsqEntry}
    (hq : s.lsq.queue = e :: rest) (hm : s.lsqDecision.markRequestSent = true) :
    s.taken = some (LoadStoreQueue.makeMemoryRequest e) := by
  cases port_event h hrun with
  | counting hv =>
    rw [(busy_quiet h (noFlush_of_mark hm) hv).2.1] at hm
    cases hm
  | responding hv =>
    rw [(busy_quiet h (noFlush_of_mark hm) hv).2.1] at hm
    cases hm
  | resting hv hd => rw [hd] at hm; cases hm
  | taking hv hfl hq' hs hd =>
    rw [hq, List.cons.injEq] at hq'
    have htag : e.destination.valid = true :=
      h.pending_valid (h.queue_pending (by rw [hq]; exact List.mem_cons_self))
    have hreq : s.lsqDecision.outputs.memoryRequest = LoadStoreQueue.makeMemoryRequest e := by rw [hd, ← hq'.1]
    have hacc : (MemoryUnit.step s.memory s.port (LoadStoreQueue.makeMemoryRequest e)).accepted = true := by
      rw [MemoryUnit.step, if_neg (by simp [hv]), if_pos (by simp [LoadStoreQueue.makeMemoryRequest, htag])]
    rw [taken, hreq, hacc, hrun]
    rfl

/-- An accepted response is for the head, and it is in the cycle's decision. -/
theorem answered_some (h : Inv s) {e : LsqEntry} (ha : s.answered = some e) :
    s.status = .running ∧ s.flush = false ∧ (∃ rest, s.lsq.queue = e :: rest) ∧
      LoadStoreQueue.matchingResponse e s.port.response = true := by
  unfold answered at ha
  split at ha
  · rename_i hc
    simp only [Bool.and_eq_true, Bool.not_eq_true', beq_iff_eq] at hc
    obtain ⟨⟨⟨hr, hfl⟩, hemp⟩, hm⟩ := hc
    rw [Option.some.injEq] at ha
    have hpos : 0 < s.lsq.count := by
      refine Nat.pos_of_ne_zero fun h0 => ?_
      simp [LoadStoreQueue.empty, h0] at hemp
    have hq := LoadStoreQueue.queue_cons h.lsq hpos
    rw [ha] at hq hm
    exact ⟨hr, hfl, ⟨_, hq⟩, hm⟩
  · cases ha

theorem answered_of_matching (h : Inv s) (hrun : s.status = .running) (hfl : s.flush = false) {e : LsqEntry}
    {rest : List LsqEntry} (hq : s.lsq.queue = e :: rest)
    (hm : LoadStoreQueue.matchingResponse e s.port.response = true) : s.answered = some e := by
  have hc : s.lsq.count ≠ 0 := by
    rw [← LoadStoreQueue.length_queue, hq]
    exact Nat.succ_ne_zero _
  have hh := LoadStoreQueue.entries_head h.lsq hq
  unfold answered
  rw [hh, if_pos]
  simp [hrun, hfl, hm, LoadStoreQueue.empty, hc]

/-- The instruction issued in cycle `id` has its request `r` taken in cycle `k`. -/
structure Sends (tr : Nat → Core) (k id : Nat) (r : DataMemoryRequest) : Prop where
  taken : (tr k).taken = some r
  live : id ∈ liveIds tr k
  tag : r.tag = tagOf tr id

/-- The last request taken before cycle `n` was taken in cycle `k`. -/
structure LastTaken (tr : Nat → Core) (n k : Nat) : Prop where
  lt : k < n
  taken : (tr k).taken.isSome = true
  quiet : ∀ j, k < j → j < n → (tr j).taken = none

/-! ## The port -/

theorem LastTaken.succ {n k : Nat} (h : LastTaken tr n k) (hq : (tr n).taken = none) : LastTaken tr (n + 1) k := by
  refine ⟨Nat.lt_succ_of_lt h.lt, h.taken, fun j hj hjn => ?_⟩
  rcases Nat.lt_succ_iff_lt_or_eq.mp hjn with hjn | rfl
  · exact h.quiet j hj hjn
  · exact hq

theorem lastTaken_now {n : Nat} {r : DataMemoryRequest} (h : (tr n).taken = some r) : LastTaken tr (n + 1) n :=
  ⟨Nat.lt_succ_self n, by rw [h]; rfl, fun j hj hjn => by omega⟩

/-- A transaction with `remaining` cycles to go was taken `4 - remaining` cycles ago; a
    visible response answers the request taken 4 cycles ago. -/
theorem port_history (h : IsRun tr) {n : Nat} (hr : (tr n).status = .running) :
    ((tr n).port.transaction.valid = true → ∃ k, LastTaken tr n k ∧
        n + (tr n).port.transaction.remainingCycles = k + 4 ∧
        (tr k).taken = some (tr n).port.transaction.request) ∧
      ((tr n).port.response.valid = true → ∃ k r, LastTaken tr n k ∧ n = k + 4 ∧ (tr k).taken = some r ∧
        (tr (k + 3)).port.transaction.valid = true ∧ (tr (k + 3)).port.transaction.request = r ∧
        (tr (k + 3)).port.transaction.remainingCycles = 1 ∧
        (tr n).port.response = (MemoryUnit.completeCurrentTransaction (tr (k + 3)).memory r).1) := by
  induction n with
  | zero =>
    obtain ⟨counters, input, h0⟩ := h.start
    rw [h0]
    exact ⟨fun hc => (by cases hc), fun hc => by cases hc⟩
  | succ n ih =>
    have hrn := h.running_of_succ hr
    obtain ⟨ihb, -⟩ := ih hrn
    have hi := h.inv n
    rw [h.step]
    cases port_event hi hrn with
    | counting hv hrem hport =>
      obtain ⟨k, hk, hn, ht⟩ := ihb hv
      rw [hport]
      refine ⟨fun _ => ⟨k, hk.succ (taken_busy hv), ?_, ht⟩, fun hc => by cases hc⟩
      show n + 1 + ((tr n).port.transaction.remainingCycles - 1) = k + 4
      omega
    | responding hv hrem hport =>
      obtain ⟨k, hk, hn, ht⟩ := ihb hv
      have hone : (tr n).port.transaction.remainingCycles = 1 := by
        have := (hi.port.busy hv).1
        omega
      have hnk : n = k + 3 := by omega
      rw [hport]
      exact ⟨fun hc => (by cases hc), fun _ => ⟨k, (tr n).port.transaction.request, hk.succ (taken_busy hv), by omega, ht,
        hnk ▸ hv, hnk ▸ rfl, hnk ▸ hone, by rw [← hnk]⟩⟩
    | @taking e rest hv hfl hq hs hd hport =>
      have ht : (tr n).taken = some (LoadStoreQueue.makeMemoryRequest e) :=
        taken_send hi hrn hq (by rw [hd])
      rw [hport]
      refine ⟨fun _ => ⟨n, lastTaken_now ht, ?_, ht⟩, fun hc => by cases hc⟩
      show n + 1 + 3 = n + 4
      omega
    | resting hv hd hport =>
      rw [hport]
      refine ⟨fun hc => ?_, fun hc => (by cases hc)⟩
      rw [hv] at hc
      cases hc

/-! ## The queue -/

theorem queued_id (h : IsRun tr) {n : Nat} {e : LsqEntry} (he : e ∈ (tr n).lsq.queue) :
    ∃ id ∈ liveIds tr n, tagOf tr id = e.destination := id_of_tag h (queue_tag_live (h.inv n) he)

/-- A queued access of an earlier cycle's instruction was already queued, and carries its
    mark on unless it is sent now. -/
theorem queue_back (h : IsRun tr) {n : Nat} (hr : (tr n).status = .running) {e : LsqEntry}
    (he : e ∈ (tr (n + 1)).lsq.queue) {id : Nat} (hid : id ∈ liveIds tr (n + 1)) (ht : tagOf tr id = e.destination)
    (hlt : id < n) :
    (tr n).flush = false ∧ id ∈ liveIds tr n ∧ ∃ x ∈ (tr n).lsq.queue, x.destination = e.destination ∧
      ((∃ rest, (tr n).lsq.queue = x :: rest ∧ (tr n).lsqDecision.removeHead = false ∧
          e = (tr n).carried (tr n).lsqDecision.markRequestSent x) ∨
        (x ∈ (tr n).lsq.queue.tail ∧ e = (tr n).carried false x)) := by
  have hidn := ids_of_le hid hlt (Nat.le_succ n)
  rw [h.step] at he
  obtain ⟨hfl, ⟨x, rest, hq, hrem, rfl⟩ | ⟨x, hx, rfl⟩ | ⟨d, hd, hm, rfl⟩⟩ := mem_tick_queue (h.inv n) hr he
  · refine ⟨hfl, hidn, x, by rw [hq]; exact List.mem_cons_self, ?_, Or.inl ⟨rest, hq, hrem, rfl⟩⟩
    exact ((carried_frame (tr n) _ x).1).symm
  · refine ⟨hfl, hidn, x, List.mem_of_mem_tail hx, ?_, Or.inr ⟨hx, rfl⟩⟩
    exact ((carried_frame (tr n) _ x).1).symm
  · -- the issued access belongs to the instruction of this cycle
    exfalso
    have hnew : n ∈ liveIds tr (n + 1) := by
      rw [liveIds_running hr, hd]
      exact List.mem_append_right _ List.mem_cons_self
    have htag : tagOf tr id = tagOf tr n := by
      rw [ht, LoadStoreQueue.updateAddress_destination]; rfl
    exact absurd (tagOf_inj h hid hnew htag) (Nat.ne_of_lt hlt)

/-- The access of the instruction that the cycle issues is not sent yet. -/
theorem fresh_unsent (h : IsRun tr) {n : Nat} (hrun : (tr n).status = .running) {e : LsqEntry}
    (he : e ∈ (tr (n + 1)).lsq.queue) (hid : n ∈ liveIds tr (n + 1)) (ht : tagOf tr n = e.destination) :
    e.requestSent = false := by
  have hi := h.inv n
  rw [h.step] at he
  have hnot : ∀ x ∈ (tr n).lsq.queue, ∀ b, e ≠ (tr n).carried b x := by
    rintro x hx b rfl
    rw [(carried_frame (tr n) b x).1] at ht
    obtain ⟨y, hy, hyt⟩ := List.mem_map.mp (queue_tag_live hi hx)
    exact Nat.lt_irrefl n (ids_lt (kept_id h hrun hid hy (hyt.trans ht.symm)))
  obtain ⟨-, ⟨x, rest, hq, -, hex⟩ | ⟨x, hx, hex⟩ | ⟨d, hd, hm, hex⟩⟩ := mem_tick_queue hi hrun he
  · exact absurd hex (hnot x (by rw [hq]; exact List.mem_cons_self) _)
  · exact absurd hex (hnot x (List.mem_of_mem_tail hx) _)
  · rw [hex]
    exact (access_issued (issuing_some hd) hm).2

/-- Only the head sends, and its tag does not occur behind it. -/
theorem Sends.not_tail {n id : Nat} {r : DataMemoryRequest} (hs : Sends tr n id r) (hi : Inv (tr n)) {x : LsqEntry}
    (ht : x.destination = tagOf tr id) : x ∉ (tr n).lsq.queue.tail := by
  intro hx
  obtain ⟨-, -, -, -, -, y, rest, hq, -, hy⟩ := taken_some hi hs.taken
  have hyx : y.destination = x.destination := by
    rw [ht, ← hs.tag, hy]
    rfl
  have hnd := (List.nodup_append.mp (mem_nodup hi)).2.1
  rw [hq, List.map_cons, List.nodup_cons] at hnd
  rw [hq] at hx
  exact hnd.1 (by rw [hyx]; exact List.mem_map_of_mem hx)

theorem queue_history (h : IsRun tr) {n : Nat} (hr : (tr n).status = .running) {e : LsqEntry}
    (he : e ∈ (tr n).lsq.queue) {id : Nat} (hid : id ∈ liveIds tr n) (ht : tagOf tr id = e.destination) :
    (e.requestSent = true → ∃ k < n, Sends tr k id (LoadStoreQueue.makeMemoryRequest e)) ∧
      ∀ k r, k < n → Sends tr k id r → e.requestSent = true := by
  induction n generalizing e with
  | zero => cases hid
  | succ n ih =>
    have hrn := h.running_of_succ hr
    have hi := h.inv n
    by_cases hlt : id < n
    · obtain ⟨-, hidn, x, hx, hxd, hcase⟩ := queue_back h hrn he hid ht hlt
      obtain ⟨ihs, ihu⟩ := ih hrn hx hidn (ht.trans hxd.symm)
      have hxa := hi.access x hx
      -- an access that was sent before this cycle
      have hold : x.requestSent = true → ∀ b, e = (tr n).carried b x →
          ∃ k < n + 1, Sends tr k id (LoadStoreQueue.makeMemoryRequest e) := by
        rintro hs b rfl
        obtain ⟨k, hk, hsend⟩ := ihs hs
        rw [request_carried (hxa.sent hs) (hxa.sent_store hs)]
        exact ⟨k, Nat.lt_succ_of_lt hk, hsend⟩
      rcases hcase with ⟨rest, hq, hrem, hex⟩ | ⟨hxt, hex⟩
      · have hreq : e.requestSent = ((tr n).lsqDecision.markRequestSent || x.requestSent) := by
          rw [hex]; exact (carried_frame (tr n) _ x).2.2.2.2.1
        refine ⟨fun hs => ?_, fun k r hk hsend => ?_⟩
        · cases hm : (tr n).lsqDecision.markRequestSent with
          | false => rw [hreq, hm, Bool.false_or] at hs; exact hold hs _ hex
          | true =>
            have htk := taken_send hi hrn hq hm
            obtain ⟨-, hfl, -⟩ := taken_some hi htk
            obtain ⟨-, ha, -, -, hst⟩ := maySend_ready (mark_ready hi hq hm).1
            have hmake : LoadStoreQueue.makeMemoryRequest e = LoadStoreQueue.makeMemoryRequest x := by
              rw [hex]; exact request_carried ha (fun hty => (hst hty).1) _
            refine ⟨n, Nat.lt_succ_self n, ?_, hidn, ?_⟩
            · rw [hmake]; exact htk
            · exact ht.symm
        · rcases Nat.lt_succ_iff_lt_or_eq.mp hk with hk | rfl
          · rw [hreq, ihu k r hk hsend, Bool.or_true]
          · rw [hreq, (taken_some hi hsend.taken).2.2.1, Bool.true_or]
      · have hreq : e.requestSent = x.requestSent := by
          rw [hex, (carried_frame (tr n) _ x).2.2.2.2.1]; rfl
        refine ⟨fun hs => hold (hreq ▸ hs) _ hex, fun k r hk hsend => ?_⟩
        rcases Nat.lt_succ_iff_lt_or_eq.mp hk with hk | rfl
        · rw [hreq]; exact ihu k r hk hsend
        · exact absurd hxt (hsend.not_tail hi (by rw [hxd, ht]))
    · -- the access was issued in this cycle
      obtain rfl : id = n := by have := ids_lt hid; omega
      refine ⟨fun hs => ?_, fun k r hk hsend => ?_⟩
      · rw [fresh_unsent h hrn he hid ht] at hs
        cases hs
      · have hl := ids_lt hsend.live
        omega

theorem LastTaken.unique {n j k : Nat} (hj : LastTaken tr n j) (hk : LastTaken tr n k) : j = k := by
  have htj := hj.taken
  have htk := hk.taken
  rcases Nat.lt_trichotomy j k with hlt | heq | hlt
  · rw [hj.quiet k hlt hk.lt] at htk; cases htk
  · exact heq
  · rw [hk.quiet j hlt hj.lt] at htj; cases htj

theorem Sends.not_lt (h : IsRun tr) {j k id : Nat} {r r' : DataMemoryRequest} (hj : Sends tr j id r)
    (hk : Sends tr k id r') : ¬ j < k := by
  intro hlt
  obtain ⟨hr, -, -, -, -, x, rest, hq, hs, hx⟩ := taken_some (h.inv k) hk.taken
  have hxt : tagOf tr id = x.destination := by rw [← hk.tag, hx]; rfl
  have hsent := (queue_history h hr (by rw [hq]; exact List.mem_cons_self) hk.live hxt).2 j _ hlt hj
  rw [(maySend_ready hs).1] at hsent
  cases hsent

/-- An access is sent at most once. -/
theorem Sends.unique (h : IsRun tr) {j k id : Nat} {r r' : DataMemoryRequest} (hj : Sends tr j id r)
    (hk : Sends tr k id r') : j = k :=
  Nat.le_antisymm (Nat.not_lt.mp (hk.not_lt h hj)) (Nat.not_lt.mp (hj.not_lt h hk))

/-- The last request taken is the head's own, once the head is sent and the tags agree. -/
theorem sends_of_last (h : IsRun tr) {n k : Nat} (hr : (tr n).status = .running) {e : LsqEntry}
    (he : e ∈ (tr n).lsq.queue) (hsent : e.requestSent = true) {r : DataMemoryRequest} (hl : LastTaken tr n k)
    (htk : (tr k).taken = some r) (hrt : r.tag = e.destination) :
    r = LoadStoreQueue.makeMemoryRequest e ∧
      ∃ id ∈ liveIds tr n, tagOf tr id = e.destination ∧ Sends tr k id (LoadStoreQueue.makeMemoryRequest e) := by
  obtain ⟨id, hid, ht⟩ := queued_id h he
  obtain ⟨k', hk', hsend⟩ := (queue_history h hr he hid ht).1 hsent
  have hle : k' ≤ k := by
    by_contra hc
    have hquiet := hl.quiet k' (by omega) hk'
    rw [hsend.taken] at hquiet
    cases hquiet
  have hidk : id ∈ liveIds tr k :=
    ids_of_le hid (Nat.lt_of_lt_of_le (ids_lt hsend.live) hle) (Nat.le_of_lt hl.lt)
  have hkk : k' = k := hsend.unique h (⟨htk, hidk, by rw [hrt, ht]⟩ : Sends tr k id r)
  rw [hkk] at hsend
  exact ⟨Option.some.inj (htk.symm.trans hsend.taken), id, hid, ht, hsend⟩

/-- An accepted response was produced for the request the head itself sent. -/
theorem answered_history (h : IsRun tr) {n : Nat} {e : LsqEntry} (ha : (tr n).answered = some e) :
    e.requestSent = true ∧ ∃ k id, n = k + 4 ∧ LastTaken tr n k ∧
      Sends tr k id (LoadStoreQueue.makeMemoryRequest e) ∧ id ∈ liveIds tr n ∧ tagOf tr id = e.destination ∧
      (tr n).port.response =
        (MemoryUnit.completeCurrentTransaction (tr (k + 3)).memory (LoadStoreQueue.makeMemoryRequest e)).1 ∧
      (tr (k + 3)).port.transaction.valid = true ∧
      (tr (k + 3)).port.transaction.request = LoadStoreQueue.makeMemoryRequest e ∧
      (tr (k + 3)).port.transaction.remainingCycles = 1 := by
  have hi := h.inv n
  obtain ⟨hr, hfl, ⟨rest, hq⟩, hm⟩ := answered_some hi ha
  obtain ⟨hrv, hrt, hsent⟩ := hi.matched hq hm
  have he : e ∈ (tr n).lsq.queue := by rw [hq]; exact List.mem_cons_self
  obtain ⟨k, r, hl, hn, htk, hv, hreq, hone, hresp⟩ := (port_history h hr).2 hrv
  -- the response carries this tag, so the last request taken is this access's own
  have hrtag : r.tag = e.destination := by rw [hrt, hresp, (complete_frame _ r).2.1]
  obtain ⟨rfl, id, hid, ht, hsend⟩ := sends_of_last h hr he hsent hl htk hrtag
  exact ⟨hsent, k, id, hn, hl, hsend, hid, ht, hresp, hv, hreq, hone⟩

/-- A head is removed only by its own successful response. -/
theorem answered_of_remove (h : Inv s) (hr : s.status = .running) (hrem : s.lsqDecision.removeHead = true) :
    ∃ e rest, s.lsq.queue = e :: rest ∧ s.answered = some e ∧ s.port.response.success = true ∧
      s.lsqDecision.markRequestSent = false := by
  have hfl : s.flush = false := by
    by_contra hc
    rw [lsqDecision_flush (by simpa using hc)] at hrem
    cases hrem
  have hev := lsq_event h hfl
  generalize s.lsqDecision = d at hev hrem
  cases hev with
  | idle => cases hrem
  | failed => cases hrem
  | send => cases hrem
  | loaded hq hm hs => exact ⟨_, _, hq, answered_of_matching h hr hfl hq hm, hs, rfl⟩
  | stored hq hm hs => exact ⟨_, _, hq, answered_of_matching h hr hfl hq hm, hs, rfl⟩

/-! ## Program order -/

/-- The instruction issued in cycle `id` is a load or a store. -/
def IssuesMemory (tr : Nat → Core) (id : Nat) : Prop :=
  (tr id).status = .running ∧ ∃ d, (tr id).issuing = some d ∧ d.decoded.op.isMemory = true

/-- The instruction issued in cycle `id` gets its successful response in cycle `n`. -/
def Receives (tr : Nat → Core) (n id : Nat) : Prop :=
  id ∈ liveIds tr n ∧ (tr n).port.response.success = true ∧
    ∃ e, (tr n).answered = some e ∧ e.destination = tagOf tr id

theorem mem_served {e : LsqEntry} (he : e ∈ s.lsq.queue)
    (hne : s.lsqDecision.removeHead = true → s.lsq.queue.head? ≠ some e) :
    ∃ b : Bool, (if b then LoadStoreQueue.sent (LoadStoreQueue.wake s.broadcast e)
      else LoadStoreQueue.wake s.broadcast e) ∈ s.served := by
  unfold served LoadStoreQueue.serve
  cases hq : s.lsq.queue with
  | nil => rw [hq] at he; cases he
  | cons x rest =>
    rw [hq] at he hne
    by_cases hr : s.lsqDecision.removeHead = true
    · rw [if_pos hr]
      rcases List.mem_cons.mp he with rfl | he
      · exact absurd rfl (hne hr)
      · exact ⟨false, List.mem_map_of_mem he⟩
    · rw [if_neg hr]
      by_cases hm : s.lsqDecision.markRequestSent = true
      · rw [if_pos hm, List.map_cons, List.modifyHead_cons]
        rcases List.mem_cons.mp he with rfl | he
        · exact ⟨true, List.mem_cons_self⟩
        · exact ⟨false, List.mem_cons_of_mem _ (List.mem_map_of_mem he)⟩
      · rw [if_neg hm]
        exact ⟨false, List.mem_map_of_mem he⟩

/-- An access that is not removed is in the queue of the next cycle. -/
theorem mem_queue_tick (h : Inv s) (hrun : s.status = .running) (hfl : s.flush = false) {e : LsqEntry}
    (he : e ∈ s.lsq.queue) (hne : s.lsqDecision.removeHead = true → s.lsq.queue.head? ≠ some e) :
    ∃ b, s.carried b e ∈ s.tick.lsq.queue := by
  obtain ⟨b, hb⟩ := mem_served he hne
  refine ⟨b, ?_⟩
  rw [queue_tick h hrun hfl, List.map_append]
  exact List.mem_append_left _ (List.mem_map_of_mem hb)

/-- A load or store waits in the queue until its response or a flush. -/
theorem memory_history (h : IsRun tr) {id : Nat} (hid : IssuesMemory tr id) {n : Nat} (hlt : id < n) :
    (id ∈ liveIds tr n ∧ ∃ e ∈ (tr n).lsq.queue, e.destination = tagOf tr id) ∨
      (∃ j < n, Receives tr j id) ∨ ∃ j < n, Flushes tr j id := by
  induction n with
  | zero => cases hlt
  | succ n ih =>
    rcases Nat.lt_succ_iff_lt_or_eq.mp hlt with hlt | rfl
    · rcases ih hlt with ⟨hlive, e, he, ht⟩ | ⟨j, hj, hrec⟩ | ⟨j, hj, hfl⟩
      · by_cases hr : (tr n).status = .running
        · have hi := h.inv n
          obtain ⟨x, hx, hxt, -, hxr, -⟩ := hi.queued_entry he
          -- a head that commits is ready, this access is not
          have hnothead : ∀ y, (tr n).rob.live.head? = some y → y.ready = true → tagOf tr id ≠ y.tag := by
            intro y hy hyr hc
            have hxy := inj hi.nodup hx (List.mem_of_mem_head? hy) (hxt.trans (ht.trans hc))
            rw [hxy, hyr] at hxr
            cases hxr
          have hnc : ¬ Commits tr n id := by
            intro hc
            obtain ⟨y, hy, hyr⟩ := (committing_iff hi.rob).mp hc.committing
            obtain ⟨id', hid', ht'⟩ := head_id h hy
            rw [hc.head, Option.some.injEq] at hid'
            exact hnothead y hy hyr (by rw [hid', ht'])
          by_cases hfn : Flushes tr n id
          · exact Or.inr (Or.inr ⟨n, Nat.lt_succ_self n, hfn⟩)
          · have hlive' := stays hlive hnc hfn
            have hfl : (tr n).flush = false := by
              by_contra hc
              have hc : (tr n).flush = true := by simpa using hc
              rw [liveIds_running hr, keptIds, if_pos hc, issuing_flush hc] at hlive'
              cases hlive'
            by_cases hrem : (tr n).lsqDecision.removeHead = true ∧ (tr n).lsq.queue.head? = some e
            · obtain ⟨y, rest, hq, hans, hsucc, -⟩ := answered_of_remove hi hr hrem.1
              have hye : y = e := by
                have := hrem.2
                rw [hq] at this
                exact Option.some.inj this
              exact Or.inr (Or.inl ⟨n, Nat.lt_succ_self n, hlive, hsucc, y, hans, by rw [hye, ht]⟩)
            · obtain ⟨b, hb⟩ := mem_queue_tick hi hr hfl he fun hc he' => hrem ⟨hc, he'⟩
              refine Or.inl ⟨hlive', (tr n).carried b e, by rw [h.step]; exact hb, ?_⟩
              rw [(carried_frame (tr n) b e).1, ht]
        · refine Or.inl ⟨by rw [liveIds_stopped hr]; exact hlive, e, ?_, ht⟩
          rw [h.step, tick_of_stopped hr]
          exact he
      · exact Or.inr (Or.inl ⟨j, Nat.lt_succ_of_lt hj, hrec⟩)
      · exact Or.inr (Or.inr ⟨j, Nat.lt_succ_of_lt hj, hfl⟩)
    · obtain ⟨hr, d, hd, hm⟩ := hid
      have hi := h.inv id
      refine Or.inl ⟨?_, LoadStoreQueue.updateAddress ((tr id).issuedLsq d), ?_, ?_⟩
      · rw [liveIds_running hr, hd]
        exact List.mem_append_right _ List.mem_cons_self
      · rw [h.step, queue_tick hi hr (issuing_some hd).noFlush]
        exact List.mem_map_of_mem (List.mem_append_right _ (by simp [newLsq, hd, hm, Option.filter]))
      · rw [LoadStoreQueue.updateAddress_destination]
        rfl

/-- When an access is sent, every older one has its response or was flushed. -/
theorem sends_in_order (h : IsRun tr) {k id : Nat} {r : DataMemoryRequest} (hs : Sends tr k id r) {id' : Nat}
    (hlt : id' < id) (hid' : IssuesMemory tr id') :
    (∃ j < k, Receives tr j id') ∨ ∃ j < k, Flushes tr j id' := by
  have hi := h.inv k
  rcases memory_history h hid' (Nat.lt_trans hlt (ids_lt hs.live)) with ⟨hlive, e, he, ht⟩ | hrec
  · exfalso
    obtain ⟨-, -, -, -, -, x, rest, hq, -, hx⟩ := taken_some hi hs.taken
    have hxt : x.destination = tagOf tr id := by rw [← hs.tag, hx]; rfl
    rw [hq] at he
    rcases List.mem_cons.mp he with rfl | he
    · exact absurd (tagOf_inj h hlive hs.live (ht.symm.trans hxt)) (Nat.ne_of_lt hlt)
    · have hsub : [x.destination, e.destination].Sublist ((tr k).lsq.queue.map (·.destination)) := by
        rw [hq, List.map_cons]
        exact (List.singleton_sublist.mpr (List.mem_map_of_mem he)).cons_cons _
      have hbefore : Before (·.tag) (tr k).rob.live x.destination e.destination := by
        have hall := List.sublist_append_right (holds (tr k).lsq.loadResult)
          ((tr k).lsq.queue.map (·.destination))
        rw [hi.mem] at hall
        exact (hsub.trans hall).trans (pending_sublist _ _ _)
      rw [hxt, ht] at hbefore
      exact absurd (id_lt_of_before h hs.live hlive hbefore) (Nat.not_lt.mpr (Nat.le_of_lt hlt))
  · exact hrec

end Core

end TomasuloCpu
