/-
  TomasuloCpu.Tomasulo.MemoryOrder — what the memory system promises over whole runs.

  `response_answers_own_request`: no stale response is ever accepted, however long the
  run is. `memory_in_program_order`: the load/store queue mirrors the live loads and
  stores, only its head talks to memory, and accesses are sent once each in program order.
-/
import TomasuloCpu.Tomasulo.MemoryTrace

namespace TomasuloCpu

open Keyed

namespace Core

variable {s : Core} {tr : Nat → Core}

/-- A response whose asker was flushed is dropped. -/
theorem flushed_response_dropped (h : IsRun tr) {n k id j : Nat} {r : DataMemoryRequest} (hl : LastTaken tr n k)
    (hs : Sends tr k id r) (hf : Flushes tr j id) (hj : j ≤ n) : (tr n).answered = none := by
  cases ha : (tr n).answered with
  | none => rfl
  | some e =>
    exfalso
    obtain ⟨-, hfl, -⟩ := answered_some (h.inv n) ha
    obtain ⟨-, k', id', -, hl', hs', hlive, -⟩ := answered_history h ha
    have hkk := hl.unique hl'
    rw [← hkk] at hs'
    have hrr : r = LoadStoreQueue.makeMemoryRequest e := Option.some.inj (hs.taken.symm.trans hs'.taken)
    have hid : id = id' := tagOf_inj h hs.live hs'.live (by rw [← hs.tag, ← hs'.tag, hrr])
    rw [← hid] at hlive
    rcases Nat.lt_or_eq_of_le hj with hj | rfl
    · exact not_mem_after hf.gone (Nat.lt_succ_of_lt (ids_lt hf.mem)) hj hlive
    · rw [hf.flush] at hfl
      cases hfl

/-- The live loads and stores that are not ready, without the load whose value is in the
    load-result buffer. -/
def waitingAccesses (s : Core) : List RobEntry :=
  s.rob.live.filter fun e =>
    e.op.isMemory && !e.ready && !(s.lsq.loadResult.valid && s.lsq.loadResult.tag == e.tag)

theorem queue_eq_waitingAccesses (h : Inv s) :
    s.lsq.queue.map (·.destination) = s.waitingAccesses.map (·.tag) := by
  have hsplit : s.waitingAccesses.map (·.tag) = (pending (·.tag) memWaiting s.rob.live).filter fun t =>
      !(s.lsq.loadResult.valid && s.lsq.loadResult.tag == t) := by
    rw [pending, List.filter_map, List.filter_filter, waitingAccesses]
    congr 1
    refine List.filter_congr fun e _ => ?_
    simp only [memWaiting, waits, Function.comp]
    cases e.ready <;> cases e.op.isMemory <;> simp
  have hn := mem_nodup h
  rw [hsplit, ← h.mem, List.filter_append]
  cases hv : s.lsq.loadResult.valid with
  | false => simp [holds, hv]
  | true =>
    have hnot : s.lsq.loadResult.tag ∉ s.lsq.queue.map (·.destination) := by
      intro hm
      exact (List.nodup_append.mp hn).2.2 _ (by simp [holds, hv]) _ hm rfl
    have hall : (s.lsq.queue.map (·.destination)).filter (fun t => !(true && s.lsq.loadResult.tag == t)) =
        s.lsq.queue.map (·.destination) := by
      refine List.filter_eq_self.mpr fun t ht => ?_
      have : s.lsq.loadResult.tag ≠ t := fun e => hnot (e ▸ ht)
      simp [this]
    rw [hall]
    simp [holds, hv]

theorem sent_is_head (h : Inv s) {e : LsqEntry} (he : e ∈ s.lsq.queue) (hs : e.requestSent = true) :
    s.lsq.queue.head? = some e := by
  cases hq : s.lsq.queue with
  | nil => rw [hq] at he; cases he
  | cons x rest =>
    rw [hq] at he
    rcases List.mem_cons.mp he with rfl | he
    · rfl
    · rw [h.sentHead e (by rw [hq]; exact he)] at hs
      cases hs

theorem port_head (h : Inv s) {t : RobTag} {r : Nat} (hp : s.port.pending = some (t, r))
    (ht : t ∈ RobState.tags s.rob.live) :
    ∃ e, s.lsq.queue.head? = some e ∧ e.destination = t ∧ e.requestSent = true := by
  rcases h.port.sender t r hp with he | ⟨hstale, -⟩
  · exact he
  · exact absurd ht hstale

/-- A memory instruction that waits at the ROB head has its value in the result buffer, or
    heads the queue. -/
theorem memory_head (h : Inv s) {x : RobEntry} (hx : s.rob.live.head? = some x) (hop : x.op.isMemory = true)
    (hr : x.ready = false) :
    (s.lsq.loadResult.valid = true ∧ s.lsq.loadResult.tag = x.tag) ∨
      (s.lsq.loadResult.valid = false ∧ ∃ e, s.lsq.queue.head? = some e ∧ e.destination = x.tag) := by
  obtain ⟨rest, hl⟩ := List.head?_eq_some_iff.mp hx
  have hw : memWaiting x = true := by simp [memWaiting, waits, hr, hop]
  have hm := h.mem
  rw [hl] at hm
  have hp : pending (·.tag) memWaiting (x :: rest) = x.tag :: pending (·.tag) memWaiting rest := by
    simp [pending, hw]
  rw [hp] at hm
  cases hv : s.lsq.loadResult.valid with
  | true =>
    rw [holds, if_pos hv, List.singleton_append, List.cons.injEq] at hm
    exact Or.inl ⟨rfl, hm.1⟩
  | false =>
    rw [holds, if_neg (by simp [hv]), List.nil_append] at hm
    cases hq : s.lsq.queue with
    | nil => rw [hq] at hm; cases hm
    | cons e t =>
      rw [hq, List.map_cons, List.cons.injEq] at hm
      exact Or.inr ⟨rfl, e, rfl, hm.1⟩

/-- A store that waits at the ROB head heads the queue. -/
theorem store_head (h : Inv s) {x : RobEntry} (hx : s.rob.live.head? = some x) (hst : x.op.isStore = true)
    (hr : x.ready = false) : ∃ e, s.lsq.queue.head? = some e ∧ e.destination = x.tag := by
  rcases memory_head h hx (by simp [Op.isMemory, hst]) hr with ⟨hv, ht⟩ | ⟨-, he⟩
  · obtain ⟨y, hy, hyt, hyl⟩ := h.loaded hv
    rw [inj h.nodup hy (List.mem_of_mem_head? hx) (hyt.trans ht), Op.isLoad_of_isStore hst] at hyl
    cases hyl
  · exact he

/-- The order of the queue and of the memory port in one state. -/
structure QueueMirrorsRob (s : Core) : Prop where
  /-- The valid slots are those from head to tail. -/
  window : ∀ j < LoadStoreQueue.kCapacity, (s.lsq.entries j).valid = true ↔
    ∃ i < s.lsq.count, j = (s.lsq.head + i) % LoadStoreQueue.kCapacity
  order : s.lsq.queue.map (·.destination) = s.waitingAccesses.map (·.tag)
  sent : ∀ e ∈ s.lsq.queue, e.requestSent = true → s.lsq.queue.head? = some e
  transaction : s.port.transaction.valid = true → s.port.transaction.request.tag ∈ RobState.tags s.rob.live →
    ∃ e, s.lsq.queue.head? = some e ∧ e.destination = s.port.transaction.request.tag ∧ e.requestSent = true
  response : s.port.response.valid = true → s.port.response.tag ∈ RobState.tags s.rob.live →
    ∃ e, s.lsq.queue.head? = some e ∧ e.destination = s.port.response.tag ∧ e.requestSent = true
  store : ∀ x, s.rob.live.head? = some x → x.isStore = true → x.ready = false →
    ∃ e, s.lsq.queue.head? = some e ∧ e.destination = x.tag

theorem queueMirrorsRob (h : Inv s) : s.QueueMirrorsRob where
  window j _ := by
    constructor
    · intro hv
      by_contra hw
      have hb : s.lsq.entries j = {} := h.lsq.blank j fun ⟨i, hi, e⟩ => hw ⟨i, hi, e⟩
      rw [hb] at hv
      cases hv
    · rintro ⟨i, hi, rfl⟩
      exact h.lsq.valid i hi
  order := queue_eq_waitingAccesses h
  sent _ := sent_is_head h
  transaction hv := port_head h (r := s.port.transaction.remainingCycles)
    (by simp [DataPort.pending, hv])
  response hv := by
    have hnt : s.port.transaction.valid = false := by
      cases hx : s.port.transaction.valid with
      | false => rfl
      | true => rw [h.port.apart hx] at hv; cases hv
    exact port_head h (r := 0) (by simp [DataPort.pending, hnt, hv])
  store x hx hst hr := by
    rw [(h.entry x (List.mem_of_mem_head? hx)).store] at hst
    exact store_head h hx hst hr

end Core

namespace Cpu

open TomasuloCpu.Core

/-- In any run of any length: an accepted response was produced for the request that very
    head sent four cycles ago, and no request was taken in between; a response whose
    asker was flushed is dropped; the head leaves only by its own successful response,
    and never in the cycle it is marked as sent. -/
theorem response_answers_own_request (cpu : Cpu) (input : Istream) :
    (∀ n e, (cpu.history input n).answered = some e → e.requestSent = true ∧
      ∃ k id, n = k + 4 ∧ LastTaken (cpu.history input) n k ∧
        Sends (cpu.history input) k id (LoadStoreQueue.makeMemoryRequest e) ∧
        id ∈ liveIds (cpu.history input) n ∧ tagOf (cpu.history input) id = e.destination ∧
        (cpu.history input n).port.response =
          (MemoryUnit.completeCurrentTransaction (cpu.history input (k + 3)).memory
            (LoadStoreQueue.makeMemoryRequest e)).1) ∧
    (∀ n k id r j, LastTaken (cpu.history input) n k → Sends (cpu.history input) k id r →
      Flushes (cpu.history input) j id → j ≤ n → (cpu.history input n).answered = none) ∧
    (∀ n, (cpu.history input n).status = .running → (cpu.history input n).lsqDecision.removeHead = true →
      (∃ e, (cpu.history input n).answered = some e) ∧ (cpu.history input n).port.response.success = true ∧
        (cpu.history input n).lsqDecision.markRequestSent = false) := by
  have h := history_isRun cpu input
  refine ⟨fun n e ha => ?_, fun n k id r j hl hs hf hj => flushed_response_dropped h hl hs hf hj,
    fun n hr hrem => ?_⟩
  · obtain ⟨hsent, k, id, hn, hl, hs, hlive, ht, hresp, -⟩ := answered_history h ha
    exact ⟨hsent, k, id, hn, hl, hs, hlive, ht, hresp⟩
  · obtain ⟨e, -, -, ha, hsucc, hm⟩ := answered_of_remove (h.inv n) hr hrem
    exact ⟨⟨e, ha⟩, hsucc, hm⟩

/-- The store of the sample gets the response to its own request in cycle 10. -/
theorem response_answers_own_request_sample :
    ∃ e, ((sample 0).history sampleImage 10).answered = some e ∧ e.requestSent = true := by
  have hsome : ((sample 0).history sampleImage 10).answered.isSome = true := by
    rw [history_eq]
    decide +kernel
  obtain ⟨e, he⟩ := Option.isSome_iff_exists.mp hsome
  exact ⟨e, he, ((response_answers_own_request (sample 0) sampleImage).1 10 e he).1⟩

/-- In every reachable machine the queue mirrors the live loads and stores and only its
    head talks to memory; over any run a request is sent only after every older access
    got its successful response or was flushed, and each access is sent at most once. -/
theorem memory_in_program_order :
    (∀ cpu, Reachable cpu → cpu.core.QueueMirrorsRob) ∧
    ∀ (cpu : Cpu) (input : Istream),
      (∀ k id r, Sends (cpu.history input) k id r → ∀ id' < id, IssuesMemory (cpu.history input) id' →
        (∃ j < k, Receives (cpu.history input) j id') ∨ ∃ j < k, Flushes (cpu.history input) j id') ∧
      ∀ j k id r r', Sends (cpu.history input) j id r → Sends (cpu.history input) k id r' → j = k := by
  refine ⟨fun cpu h => queueMirrorsRob h.inv, fun cpu input => ?_⟩
  have h := history_isRun cpu input
  exact ⟨fun k id r hs id' hlt hid' => sends_in_order h hs hlt hid', fun j k id r r' hj hk => hj.unique h hk⟩

/-- The waiting store and load of the sample, in the queue after six cycles. -/
theorem memory_in_program_order_sample :
    (sample 6).core.lsq.queue.length = 2 ∧
      (sample 6).core.lsq.queue.map (·.destination) = (sample 6).core.waitingAccesses.map (·.tag) := by
  refine ⟨?_, (memory_in_program_order.1 (sample 6) (sample_reachable 6)).order⟩
  rw [sample_core]
  decide +kernel

end Cpu

end TomasuloCpu
