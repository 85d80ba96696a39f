/-
  TomasuloCpu.Tomasulo.AccessTrace — what the memory is asked for.

  `requestLog` lists the requests that the data port takes, with the instructions that send
  them; they are in program order (`requestLog_sorted`). Those of the committed instructions
  are the accesses of the sequential run, one for one and in its order, and what is left are
  loads, the request of the oldest instruction apart (`committed_requests`).
-/
import TomasuloCpu.Tomasulo.Accounting
import TomasuloCpu.Tomasulo.Dataflow

namespace TomasuloCpu

open Keyed Rv32i

/-! ## The accesses of the sequential run -/

/-- The access of the step, without a tag. -/
def Rv32i.Machine.access (m : Machine) : Option DataMemoryRequest :=
  if m.instruction.op.isMemory then some (m.request {}) else none

/-- The accesses of the first `n` steps, in order. -/
def Rv32i.accesses (memory : Nat → Byte) : Nat → List DataMemoryRequest
  | 0 => []
  | n + 1 => accesses memory n ++ ((run memory n).bind Machine.access).toList

namespace Core

variable {tr : Nat → Core} {n k j id : Nat} {r : DataMemoryRequest} {m : Machine}

/-! ## The log -/

/-- The request taken in cycle `k`, with the instruction that sent it. -/
def sentAt (tr : Nat → Core) (k : Nat) : Option (Nat × DataMemoryRequest) :=
  (tr k).taken.bind fun r => ((liveIds tr k).find? fun id => tagOf tr id == r.tag).map fun id => (id, r)

/-- The requests taken before cycle `n`. -/
def requestLog (tr : Nat → Core) : Nat → List (Nat × DataMemoryRequest)
  | 0 => []
  | n + 1 => requestLog tr n ++ (sentAt tr n).toList

theorem sentAt_eq_some (h : IsRun tr) : sentAt tr k = some (id, r) ↔ Sends tr k id r := by
  unfold sentAt
  constructor
  · intro hs
    obtain ⟨r', htk, hfind⟩ := Option.bind_eq_some_iff.mp hs
    obtain ⟨id', hid, heq⟩ := Option.map_eq_some_iff.mp hfind
    obtain ⟨rfl, rfl⟩ := Prod.mk.inj heq
    have ht := List.find?_some hid
    exact ⟨htk, List.mem_of_find?_eq_some hid, (beq_iff_eq.mp ht).symm⟩
  · intro hs
    have hfound : ((liveIds tr k).find? fun id => tagOf tr id == r.tag).isSome = true :=
      List.find?_isSome.mpr ⟨id, hs.live, by rw [hs.tag]; exact beq_self_eq_true _⟩
    obtain ⟨id', hid⟩ := Option.isSome_iff_exists.mp hfound
    have ht := List.find?_some hid
    obtain rfl := tagOf_inj h (List.mem_of_find?_eq_some hid) hs.live ((beq_iff_eq.mp ht).trans hs.tag)
    rw [hs.taken, Option.bind_some, hid]
    rfl

theorem mem_requestLog (h : IsRun tr) : (id, r) ∈ requestLog tr n ↔ ∃ k < n, Sends tr k id r := by
  induction n with
  | zero =>
    constructor
    · intro hm
      cases hm
    · rintro ⟨k, hk, -⟩
      exact absurd hk (Nat.not_lt_zero k)
  | succ n ih =>
    rw [requestLog, List.mem_append, ih, Option.mem_toList, sentAt_eq_some h]
    constructor
    · rintro (⟨k, hk, hs⟩ | hs)
      · exact ⟨k, Nat.lt_succ_of_lt hk, hs⟩
      · exact ⟨n, Nat.lt_succ_self n, hs⟩
    · rintro ⟨k, hk, hs⟩
      rcases Nat.lt_succ_iff_lt_or_eq.mp hk with hk | rfl
      · exact Or.inl ⟨k, hk, hs⟩
      · exact Or.inr hs

theorem Sends.issuesMemory (h : IsRun tr) (hs : Sends tr k id r) : IssuesMemory tr id := by
  have hid : id ∈ liveIds tr (id + 1) := ids_of_le hs.live (Nat.lt_succ_self id) (ids_lt hs.live)
  obtain ⟨hrun, hissue, -⟩ := fresh_entry h hid
  obtain ⟨d, hd⟩ := Option.isSome_iff_exists.mp hissue
  refine ⟨hrun, d, hd, ?_⟩
  rw [← opOf_issuing hd]
  exact hs.op h

/-- A request is sent four cycles before its response. -/
theorem Receives.sent (h : IsRun tr) (hr : Receives tr n id) : ∃ k r, n = k + 4 ∧ Sends tr k id r := by
  obtain ⟨hlive, -, e, ha, ht⟩ := hr
  obtain ⟨-, k, id', rfl, -, hs, hlive', ht', -⟩ := answered_history h ha
  obtain rfl := tagOf_inj h hlive' hlive (ht'.trans ht)
  exact ⟨k, _, rfl, hs⟩

/-- Requests leave in program order. -/
theorem Sends.lt (h : IsRun tr) {a b : Nat} {r' : DataMemoryRequest} (ha : Sends tr j a r) (hb : Sends tr k b r')
    (hjk : j < k) : a < b := by
  rcases Nat.lt_trichotomy a b with hlt | rfl | hlt
  · exact hlt
  · exact absurd (ha.unique h hb) (Nat.ne_of_lt hjk)
  · exfalso
    rcases sends_in_order h ha hlt (hb.issuesMemory h) with ⟨i, hi, hrec⟩ | ⟨i, hi, hfl⟩
    · obtain ⟨k', r'', hk', hs⟩ := hrec.sent h
      have := hs.unique h hb
      omega
    · exact not_mem_after hfl.gone (Nat.lt_succ_of_lt (ids_lt hfl.mem)) (by omega) hb.live

theorem Sends.time_lt (h : IsRun tr) {a b : Nat} {r' : DataMemoryRequest} (ha : Sends tr j a r) (hb : Sends tr k b r')
    (hab : a < b) : j < k := by
  rcases Nat.lt_trichotomy j k with hlt | rfl | hlt
  · exact hlt
  · obtain rfl := Option.some.inj (ha.taken.symm.trans hb.taken)
    exact absurd (tagOf_inj h ha.live hb.live (ha.tag.symm.trans hb.tag)) (Nat.ne_of_lt hab)
  · have := hb.lt h ha hlt
    omega

theorem requestLog_sorted (h : IsRun tr) (n : Nat) : (requestLog tr n).Pairwise (fun p q => p.1 < q.1) := by
  induction n with
  | zero => exact .nil
  | succ n ih =>
    rw [requestLog, List.pairwise_append]
    refine ⟨ih, ?_, ?_⟩
    · cases sentAt tr n with
      | none => exact .nil
      | some p => exact List.pairwise_singleton _ p
    · rintro ⟨a, r⟩ ha ⟨b, r'⟩ hb
      obtain ⟨j, hj, hs⟩ := (mem_requestLog h).mp ha
      exact hs.lt h ((sentAt_eq_some h).mp (Option.mem_toList.mp hb)) hj

/-! ## Those who commit -/

/-- The requests of the instructions that committed before cycle `n`. -/
def committedLog (tr : Nat → Core) (n : Nat) : List (Nat × DataMemoryRequest) :=
  (requestLog tr n).filter fun p => p.1 ∈ committedIds tr n

/-- What is sent in a cycle is not yet committed behind it. -/
theorem Sends.not_committed (h : IsRun tr) (hs : Sends tr n id r) : id ∉ committedIds tr (n + 1) := by
  intro hmem
  obtain ⟨k, hk, hc⟩ := mem_committedIds.mp hmem
  have hkn : k = n := Nat.le_antisymm (Nat.le_of_lt_succ hk) (live_le hc hs.live)
  subst hkn
  obtain ⟨-, -, -, -, -, e, rest, hq, -, hr⟩ := taken_some (h.inv k) hs.taken
  have he : e ∈ (tr k).lsq.queue := by rw [hq]; exact List.mem_cons_self
  obtain ⟨x, hx, hxt, -, hready, -⟩ := (h.inv k).queued_entry he
  refine not_finished h hx ?_ hready (commits_finished h hc)
  rw [hxt, ← hs.tag, hr]
  rfl

theorem committedIds_succ (tr : Nat → Core) (n : Nat) : committedIds tr (n + 1) =
    committedIds tr n ++ Line.served (flushesAt tr) (commitsAt tr) (issuesAt tr) n := Line.servedLog_succ n

/-- The log of the committed, one cycle later: what was sent in the cycle is not in it. -/
theorem committedLog_succ (h : IsRun tr) (n : Nat) :
    committedLog tr (n + 1) = (requestLog tr n).filter fun p => p.1 ∈ committedIds tr (n + 1) := by
  rw [committedLog, requestLog, List.filter_append]
  have hnew : (sentAt tr n).toList.filter (fun p => p.1 ∈ committedIds tr (n + 1)) = [] := by
    refine List.filter_eq_nil_iff.mpr ?_
    rintro ⟨id, r⟩ hm hmem
    exact ((sentAt_eq_some h).mp (Option.mem_toList.mp hm)).not_committed h (of_decide_eq_true hmem)
  rw [hnew, List.append_nil]

/-- An instruction that commits has its step's operation. -/
theorem op_of_commits (h : IsRun tr) (hs : ¬ ModifiesWithin ReorderBuffer.kCapacity (tr 0).memory.bytes)
    (hc : Commits tr n id) (hm : run (tr 0).memory.bytes (retired tr n) = some m) :
    opOf tr id = m.instruction.op := by
  obtain ⟨-, w, hw, hdec⟩ := issued_step h hs hc hm
  rw [opOf, hw, ← hdec]
  rfl

theorem requests_of_access (h : IsRun tr) (hc : Commits tr n id) (hop : (opOf tr id).isMemory = true) :
    ∃ k r, k + 4 < n ∧ Sends tr k id r ∧ (requestLog tr n).filter (fun p => p.1 = id) = [(id, r)] := by
  obtain ⟨k, -, hkn, ⟨r, hr⟩, -⟩ := access_way h hc hop
  exact ⟨k, r, hkn, hr, Line.filter_owner (requestLog_sorted h n) ((mem_requestLog h).mpr ⟨k, by omega, hr⟩)⟩

theorem requests_of_other (h : IsRun tr) (hop : (opOf tr id).isMemory = false) :
    (requestLog tr n).filter (fun p => p.1 = id) = [] := by
  refine List.filter_eq_nil_iff.mpr ?_
  rintro ⟨a, r⟩ hlog heq
  obtain rfl : a = id := of_decide_eq_true heq
  obtain ⟨k, -, hk⟩ := (mem_requestLog h).mp hlog
  rw [hk.op h] at hop
  cases hop

/-- The request of an instruction that commits is its step's access. -/
theorem requests_of_commits (h : IsRun tr) (hs : ¬ ModifiesWithin ReorderBuffer.kCapacity (tr 0).memory.bytes)
    (hc : Commits tr n id) (hm : run (tr 0).memory.bytes (retired tr n) = some m) :
    ((requestLog tr n).filter fun p => p.1 = id).map (fun p => { p.2 with tag := {} }) = m.access.toList := by
  have hop := op_of_commits h hs hc hm
  rw [Machine.access, ← hop]
  cases hmem : (opOf tr id).isMemory with
  | true =>
    obtain ⟨k, r, -, hr, hone⟩ := requests_of_access h hc hmem
    obtain ⟨-, hsim, i, y, hpy, hty⟩ := committed_onPath h hs hc hm (ids_lt hr.live) (live_le hc hr.live)
    have hreq : r = m.request r.tag := sent_request (h.inv k) hsim hr.taken hpy (hty.trans hr.tag.symm)
    rw [hone, List.map_singleton, hreq]
    rfl
  | false =>
    rw [requests_of_other h hmem]
    rfl

theorem committedLog_commits (h : IsRun tr) (hc : Commits tr n id) :
    committedLog tr (n + 1) = committedLog tr n ++ (requestLog tr n).filter fun p => p.1 = id := by
  have hserved : Line.served (flushesAt tr) (commitsAt tr) (issuesAt tr) n = [id] := by
    have hs : commitsAt tr n = true := by simp [commitsAt, running, hc.running, hc.committing]
    rw [Line.served, if_pos hs, ← liveIds_line, hc.head]
    rfl
  have hsorted := Line.served_sorted (flushesAt tr) (commitsAt tr) (issuesAt tr) n
  have hbefore : ∀ a ∈ committedIds tr n, a < id := fun a ha =>
    (List.pairwise_append.mp hsorted).2.2 a ha id (liveIds_line tr n ▸ hc.mem)
  rw [committedLog_succ h, committedIds_succ, hserved]
  exact Line.filter_owners (requestLog_sorted h n) hbefore

theorem committedLog_idle (h : IsRun tr) (hno : ∀ id, ¬ Commits tr n id) :
    committedLog tr (n + 1) = committedLog tr n := by
  have hserved : Line.served (flushesAt tr) (commitsAt tr) (issuesAt tr) n = [] :=
    List.eq_nil_iff_forall_not_mem.mpr fun id hid => hno id (served_iff.mp hid)
  rw [committedLog_succ h, committedIds_succ, hserved, List.append_nil]
  rfl

theorem retires_of_no_commit (h : IsRun tr) (hno : ∀ id, ¬ Commits tr n id) : (tr n).retires = 0 := by
  by_cases hrun : (tr n).status = .running
  · refine retires_idle ?_
    by_contra hc
    rw [Bool.not_eq_false] at hc
    obtain ⟨x, hx, -⟩ := (committing_iff (h.inv n).rob).mp hc
    obtain ⟨id, hid, -⟩ := head_id h hx
    exact hno id ⟨hrun, hc, hid⟩
  · exact retires_stopped hrun

theorem halts_of_commits (h : IsRun tr) (hc : Commits tr n id) : (tr n).halts = (opOf tr id == .halt) := by
  obtain ⟨x, hx, hr⟩ := (committing_iff (h.inv n).rob).mp hc.committing
  obtain ⟨id', hid', ht⟩ := head_id h hx
  obtain rfl : id = id' := Option.some.inj (hc.head.symm.trans hid')
  rw [halts_eq (h.inv n) hx hr, op_of_id h hc.mem (List.mem_of_mem_head? hx) ht.symm]

theorem retires_of_halt (h : IsRun tr) (hc : Commits tr n id) (hop : opOf tr id = .halt) : (tr n).retires = 0 := by
  refine retires_halts ?_
  rw [halts_of_commits h hc, hop]
  rfl

theorem retires_of_commits (h : IsRun tr) (hc : Commits tr n id) (hop : opOf tr id ≠ .halt) : (tr n).retires = 1 := by
  rw [retires_running hc.running (by rw [halts_of_commits h hc]; simpa using hop), shift, if_pos hc.committing]

/-- One cycle: the access of the step that commits, if there is one. -/
theorem committedLog_follows (h : IsRun tr) (hs : ¬ ModifiesWithin ReorderBuffer.kCapacity (tr 0).memory.bytes)
    (n : Nat) :
    (committedLog tr n).map (fun p => { p.2 with tag := {} }) = accesses (tr 0).memory.bytes (retired tr n) := by
  induction n with
  | zero => rfl
  | succ n ih =>
    by_cases hc : ∃ id, Commits tr n id
    · obtain ⟨id, hc⟩ := hc
      obtain ⟨x, m, hp, -⟩ := commits_onPath h hs hc
      have hm : run (tr 0).memory.bytes (retired tr n) = some m := hp.step
      rw [committedLog_commits h hc, List.map_append, ih, requests_of_commits h hs hc hm]
      by_cases hop : opOf tr id = .halt
      · -- HALT is no step and has no access
        have haccess : m.access = none := by
          rw [Machine.access, ← op_of_commits h hs hc hm, hop]
          rfl
        rw [haccess, retired, retires_of_halt h hc hop]
        exact List.append_nil _
      · rw [retired, retires_of_commits h hc hop, accesses, hm]
        rfl
    · have hno : ∀ id, ¬ Commits tr n id := fun id hid => hc ⟨id, hid⟩
      rw [committedLog_idle h hno, ih, retired, retires_of_no_commit h hno, Nat.add_zero]

/-! ## Those who do not -/

/-- The oldest instruction stays the oldest until it commits. -/
theorem head_until_commit (hid : (liveIds tr k).head? = some id) (hle : k ≤ n) :
    (liveIds tr n).head? = some id ∨ ∃ j < n, Commits tr j id := by
  induction hle with
  | refl => exact Or.inl hid
  | @step n hle ih =>
    rcases ih with hhead | ⟨j, hj, hc⟩
    · by_cases hrun : (tr n).status = .running
      · by_cases hc : (tr n).committing = true
        · exact Or.inr ⟨n, Nat.lt_succ_self n, hrun, hc, hhead⟩
        · have hfl : (tr n).flush = false := by
            by_contra hfl
            exact hc (committing_of_flush (by simpa using hfl))
          obtain ⟨rest, hl⟩ := List.head?_eq_some_iff.mp hhead
          left
          rw [liveIds_running hrun, keptIds, if_neg (by simp [hfl]), if_neg hc, hl]
          rfl
      · rw [liveIds_stopped hrun]
        exact Or.inl hhead
    · exact Or.inr ⟨j, Nat.lt_succ_of_lt hj, hc⟩

/-- A store is sent by the oldest instruction. -/
theorem Sends.store_head (h : IsRun tr) (hs : Sends tr k id r) (hst : r.type = .store) :
    (liveIds tr k).head? = some id := by
  obtain ⟨-, -, -, -, -, e, rest, hq, hsend, hr⟩ := taken_some (h.inv k) hs.taken
  have hty : e.type = .store := by rw [hr] at hst; exact hst
  obtain ⟨-, -, -, -, hstore⟩ := maySend_ready hsend
  obtain ⟨-, hv, ht⟩ := hstore hty
  obtain ⟨x, hx, -, hxt⟩ := authorized_head (h.inv k) hv
  obtain ⟨id', hid', hid't⟩ := head_id h hx
  have htag : tagOf tr id' = tagOf tr id := by
    rw [hid't, hxt, ht, ← hs.tag, hr]
    rfl
  rw [hid', tagOf_inj h (List.mem_of_mem_head? hid') hs.live htag]

end Core

namespace Cpu

open TomasuloCpu.Core

/-- Leaving out the instructions that have not committed, the memory is asked for the
    accesses of the sequential run, each once and in its order, addresses, widths and stored
    values included. What else it was asked for are loads, and at most the store of the
    instruction that is now the oldest. -/
theorem committed_requests (cpu : Cpu) (input : Istream)
    (hs : ¬ ModifiesWithin ReorderBuffer.kCapacity (cpu.load input).2.memoryUnit.memory.bytes) (n : Nat) :
    (((requestLog (cpu.history input) n).filter fun p => p.1 ∈ committedIds (cpu.history input) n).map
        fun p => { p.2 with tag := {} }) =
      Rv32i.accesses (cpu.load input).2.memoryUnit.memory.bytes (retired (cpu.history input) n) ∧
    ∀ id r, (id, r) ∈ requestLog (cpu.history input) n → id ∉ committedIds (cpu.history input) n →
      r.type = .load ∨ (liveIds (cpu.history input) n).head? = some id := by
  have h := history_isRun cpu input
  refine ⟨committedLog_follows h hs n, fun id r hlog hnot => ?_⟩
  obtain ⟨k, hk, hr⟩ := (mem_requestLog h).mp hlog
  cases hty : r.type with
  | load => exact Or.inl rfl
  | store =>
    rcases head_until_commit (hr.store_head h hty) (Nat.le_of_lt hk) with hhead | hc
    · exact Or.inr hhead
    · exact absurd (mem_committedIds.mpr hc) hnot

theorem committed_requests_sample :
    (((requestLog ((new fun _ => baseOrders).history sampleImage) 19).filter fun p =>
        p.1 ∈ committedIds ((new fun _ => baseOrders).history sampleImage) 19).map fun p => { p.2 with tag := {} }) =
      Rv32i.accesses (loaded sampleImage).memory.bytes 4 := by
  have hretired : retired ((new fun _ => baseOrders).history sampleImage) 19 = 4 := by
    rw [← committedCount_toNat (history_isRun _ _) (by decide), history_eq]
    decide +kernel
  have hlog := (committed_requests (new fun _ => baseOrders) sampleImage (not_modifiesWithin sample_code _) 19).1
  rw [hretired] at hlog
  exact hlog

end Cpu

end TomasuloCpu
