/-
  TomasuloCpu.Tomasulo.Latency — how long results wait, and how fast a program can get.

  The bus prefers the side it did not serve last, so a result that loses waits for one cycle
  (`fu_turn`, `load_turn`). The memory answers four cycles after a request and the queue
  sends the next one behind the answer. From that come bounds on every instruction's way and
  on the whole run (`timing_bounds`): no more than one instruction a cycle behind the first
  three, and no more than one memory access in five cycles.
-/
import TomasuloCpu.Tomasulo.AccessTrace

namespace TomasuloCpu

open Keyed

namespace Core

variable {s : Core} {tr : Nat → Core} {n k j d f id a b : Nat} {r r' : DataMemoryRequest}

/-! ## The bus -/

/-- The unit's result has the bus, or a loaded one has it and the unit is next. -/
theorem fu_turn (h : Inv s) (hfl : s.flush = false) (hv : s.fu.valid = true) :
    s.completion = s.fu ∨
      (s.integerGranted = false ∧ s.preferLoad = true ∧ s.observe.cdb.nextPreferLoad = false) := by
  rcases cdb_cases hfl with ⟨-, -, -, -, ho, -⟩ | ⟨hc, -⟩ | ⟨-, -, hg, -, -, hpref, hno⟩
  · rw [h.offered_fu, hv] at ho
    cases ho
  · exact Or.inl hc
  · refine Or.inr ⟨hg, ?_, hpref⟩
    by_contra hl
    have := hno (by simpa using hl)
    rw [h.offered_fu, hv] at this
    cases this

/-- A loaded result has the bus, or the unit's has it and the loaded one is next. -/
theorem load_turn (h : Inv s) (hfl : s.flush = false) (hv : s.lsq.loadResult.valid = true) :
    s.completion = s.lsq.loadResult ∨
      (s.loadGranted = false ∧ s.preferLoad = false ∧ s.observe.cdb.nextPreferLoad = true) := by
  rcases cdb_cases hfl with ⟨-, -, -, -, -, ho⟩ | ⟨-, -, -, hg, -, hpref, hno⟩ | ⟨hc, -⟩
  · rw [h.offered_loadResult, hv] at ho
    cases ho
  · refine Or.inr ⟨hg, ?_, hpref⟩
    by_contra hl
    have := hno (by simpa using hl)
    rw [h.offered_loadResult, hv] at this
    cases this
  · exact Or.inl hc

/-- A loaded result stays until the bus takes it. -/
theorem loadResult_stays (h : Inv s) (hrun : s.status = .running) (hfl : s.flush = false)
    (hv : s.lsq.loadResult.valid = true) (hg : s.loadGranted = false) : s.tick.lsq.loadResult = s.lsq.loadResult := by
  have hclear : s.clearing.clearLoadResult = false := by rw [clearing_eq, hg]; rfl
  rw [loadResult_tick h hrun hfl]
  have hev := lsq_event h hfl
  generalize s.lsqDecision = d at hev
  cases hev with
  | @loaded e rest hq hm hs hty =>
    have := h.sentLoad e (by rw [hq]; exact List.mem_cons_self) (h.matched hq hm).2.2 hty
    rw [hv] at this
    cases this
  | _ => rw [if_neg (by intro hc; cases hc), hclear]; rfl

/-- A successful response to a load fills the buffer. -/
theorem loadResult_answered (h : Inv s) (hrun : s.status = .running) (hfl : s.flush = false) {e : LsqEntry}
    {rest : List LsqEntry} (hq : s.lsq.queue = e :: rest)
    (hm : LoadStoreQueue.matchingResponse e s.port.response = true) (hs : s.port.response.success = true)
    (hty : e.type = .load) :
    s.tick.lsq.loadResult.valid = true ∧ s.tick.lsq.loadResult.tag = e.destination := by
  have hsent := (h.matched hq hm).2.2
  rw [loadResult_tick h hrun hfl]
  have hev := lsq_event h hfl
  generalize s.lsqDecision = d at hev
  cases hev with
  | idle hidle =>
    rw [(hidle e rest hq).1] at hm
    cases hm
  | failed _ _ hs' =>
    rw [hs] at hs'
    cases hs'
  | send hq' hmay =>
    rw [hq, List.cons.injEq] at hq'
    rw [← hq'.1, maySend_of_sent hsent] at hmay
    cases hmay
  | loaded hq' =>
    rw [hq, List.cons.injEq] at hq'
    rw [if_pos rfl, hq'.1]
    exact ⟨rfl, rfl⟩
  | stored hq' _ _ hty' =>
    rw [hq, List.cons.injEq] at hq'
    rw [← hq'.1, hty] at hty'
    cases hty'

theorem preferLoad_tick (hrun : s.status = .running) : s.tick.preferLoad = s.observe.cdb.nextPreferLoad := by
  rw [tick_eq hrun]

/-- What the unit holds has the bus in this cycle or the next one. -/
theorem bus_takes_computed (h : IsRun tr) (hv : (tr n).fu.valid = true) (ht : (tr n).fu.tag = tagOf tr id)
    (hrun : (tr (n + 1)).status = .running) (hid : id ∈ liveIds tr (n + 2)) (hlt : id < n) :
    Broadcasts tr n id ∨ Broadcasts tr (n + 1) id := by
  have hrunn := h.running_of_succ hrun
  have hid1 : id ∈ liveIds tr (n + 1) := ids_of_le hid (Nat.lt_succ_of_lt hlt) (Nat.le_succ _)
  have hid0 : id ∈ liveIds tr n := ids_of_le hid1 hlt (Nat.le_succ n)
  have hfl := noFlush_of_live hrunn hid1
  rcases fu_turn (h.inv n) hfl hv with hc | ⟨hg, -, hnext⟩
  · exact Or.inl ⟨hrunn, hid0, by rw [hc]; exact hv, by rw [hc]; exact ht⟩
  · have hfu : (tr (n + 1)).fu = (tr n).fu := by rw [h.step]; exact fu_stays hrunn hfl hv hg
    have hpref : (tr (n + 1)).preferLoad = false := by rw [h.step, preferLoad_tick hrunn]; exact hnext
    rcases fu_turn (h.inv (n + 1)) (noFlush_of_live hrun hid) (by rw [hfu]; exact hv) with hc | ⟨-, hpref', -⟩
    · exact Or.inr ⟨hrun, hid1, by rw [hc, hfu]; exact hv, by rw [hc, hfu]; exact ht⟩
    · rw [hpref] at hpref'
      cases hpref'

/-- What the load buffer holds has the bus in this cycle or the next one. -/
theorem bus_takes_loaded (h : IsRun tr) (hv : (tr n).lsq.loadResult.valid = true)
    (ht : (tr n).lsq.loadResult.tag = tagOf tr id) (hrun : (tr (n + 1)).status = .running)
    (hid : id ∈ liveIds tr (n + 2)) (hlt : id < n) : Broadcasts tr n id ∨ Broadcasts tr (n + 1) id := by
  have hrunn := h.running_of_succ hrun
  have hid1 : id ∈ liveIds tr (n + 1) := ids_of_le hid (Nat.lt_succ_of_lt hlt) (Nat.le_succ _)
  have hid0 : id ∈ liveIds tr n := ids_of_le hid1 hlt (Nat.le_succ n)
  have hfl := noFlush_of_live hrunn hid1
  rcases load_turn (h.inv n) hfl hv with hc | ⟨hg, -, hnext⟩
  · exact Or.inl ⟨hrunn, hid0, by rw [hc]; exact hv, by rw [hc]; exact ht⟩
  · have hkept : (tr (n + 1)).lsq.loadResult = (tr n).lsq.loadResult := by
      rw [h.step]
      exact loadResult_stays (h.inv n) hrunn hfl hv hg
    have hpref : (tr (n + 1)).preferLoad = true := by rw [h.step, preferLoad_tick hrunn]; exact hnext
    rcases load_turn (h.inv (n + 1)) (noFlush_of_live hrun hid) (by rw [hkept]; exact hv) with hc | ⟨-, hpref', -⟩
    · exact Or.inr ⟨hrun, hid1, by rw [hc, hkept]; exact hv, by rw [hc, hkept]; exact ht⟩
    · rw [hpref] at hpref'
      cases hpref'

theorem running_of_le (h : IsRun tr) (hrun : (tr n).status = .running) (hle : k ≤ n) : (tr k).status = .running := by
  by_contra hstop
  exact hstop (h.frozen hstop hle ▸ hrun)

/-- An integer result has the bus one or two cycles behind the station. -/
theorem Dispatches.bus (h : IsRun tr) (hd : Dispatches tr d id) (hb : Broadcasts tr f id) : d < f ∧ f ≤ d + 2 := by
  have hs := hd.switches h
  constructor
  · by_contra hle
    rcases Nat.lt_or_eq_of_le (Nat.not_lt.mp hle) with hlt | rfl
    · exact hs.before ⟨hd.live, Or.inr ((staysTill_finished h hd.live).of_le (hb.switches h).after hlt (Nat.le_refl d))⟩
    · rcases hb.source h with ⟨-, hv, ht⟩ | ⟨hl, -⟩
      · exact hs.before ⟨hd.live, Or.inl ⟨hv, ht⟩⟩
      · have halu := hd.op h
        simp [Op.isAlu, Op.isMemory, hl] at halu
  · by_contra hlt
    have hrun : (tr (d + 2)).status = .running := running_of_le h hb.running (by omega)
    have hlt' := ids_lt hd.live
    have hid : id ∈ liveIds tr (d + 3) := ids_of_le hb.live (by omega) (by omega)
    obtain ⟨e, he, ht⟩ := hd.departing
    have hcomputed := computed_spec (departing_alu (h.inv d) he)
    have hfu : (tr (d + 1)).fu = computed e := by rw [h.step, tick_fu_departing hd.running he hcomputed.1]
    rcases bus_takes_computed h (by rw [hfu]; exact hcomputed.1) (by rw [hfu]; exact hcomputed.2.1.trans ht) hrun hid
      (Nat.lt_succ_of_lt hlt') with hb' | hb'
    · have := hb.unique h hb'
      omega
    · have := hb.unique h hb'
      omega

/-- What it puts on the bus was computed from what left the station. -/
theorem Dispatches.completes (h : IsRun tr) (hd : Dispatches tr d id) (hb : Broadcasts tr f id) :
    ∃ e, (tr d).departing = some e ∧ e.destination = tagOf tr id ∧ (tr f).completion = computed e := by
  obtain ⟨hdf, hle⟩ := hd.bus h hb
  obtain ⟨e, he, ht⟩ := hd.departing
  refine ⟨e, he, ht, ?_⟩
  have hcomputed := computed_spec (departing_alu (h.inv d) he)
  have hfu : (tr (d + 1)).fu = computed e := by rw [h.step, tick_fu_departing hd.running he hcomputed.1]
  have hunit : (tr f).completion = (tr f).fu := by
    rcases completion_source (h.inv f) hb.valid with ⟨hc, -⟩ | ⟨hc, hv⟩
    · exact hc
    · obtain ⟨x, hx, hxt, hl⟩ := (h.inv f).loaded hv
      have halu := hd.op h
      rw [← op_of_id h hb.live hx (hxt.trans (by rw [← hc]; exact hb.tag))] at halu
      simp [Op.isAlu, Op.isMemory, hl] at halu
  rw [hunit]
  rcases Nat.lt_or_eq_of_le hle with hlt | rfl
  · obtain rfl : f = d + 1 := by omega
    exact hfu
  · have hrun : (tr (d + 1)).status = .running := h.running_of_succ hb.running
    have hlt := ids_lt hd.live
    have hid : id ∈ liveIds tr (d + 1) := ids_of_le hb.live (by omega) (by omega)
    have hfl := noFlush_of_live hrun hb.live
    have hv : (tr (d + 1)).fu.valid = true := by rw [hfu]; exact hcomputed.1
    rcases fu_turn (h.inv (d + 1)) hfl hv with hc | ⟨hg, -⟩
    · have hb' : Broadcasts tr (d + 1) id :=
        ⟨hrun, hid, by rw [hc]; exact hv, by rw [hc, hfu]; exact hcomputed.2.1.trans ht⟩
      have := hb.unique h hb'
      omega
    · rw [h.step, fu_stays hrun hfl hv hg, hfu]

/-- A load's value has the bus one or two cycles behind the response. -/
theorem Receives.bus (h : IsRun tr) (hr : Receives tr k id) (hb : Broadcasts tr f id) : k < f ∧ f ≤ k + 2 := by
  obtain ⟨hlive, hsucc, e, ha, het⟩ := hr
  have hi := h.inv k
  obtain ⟨hrun, hfl, ⟨rest, hq⟩, hm⟩ := answered_some hi ha
  have he : e ∈ (tr k).lsq.queue := by rw [hq]; exact List.mem_cons_self
  obtain ⟨x, hx, hxt, hxop, hxr, hxm⟩ := hi.queued_entry he
  have hop : e.op = opOf tr id := by rw [← hxop, op_of_id h hlive hx (hxt.trans het)]
  -- a memory instruction has the bus for a loaded value only
  have hload : (opOf tr id).isLoad = true := by
    rcases hb.source h with ⟨halu, -⟩ | ⟨hl, -⟩
    · rw [← hop, ← hxop, Op.isAlu, hxm] at halu
      cases halu
    · exact hl
  have hty : e.type = .load := by
    rw [(hi.access e he).type, hop, if_neg]
    cases hc : opOf tr id <;> simp [hc, Op.isLoad, Op.isStore] at hload ⊢
  constructor
  · by_contra hle
    have hnot := not_finished h hx (hxt.trans het) hxr
    rcases Nat.lt_or_eq_of_le (Nat.not_lt.mp hle) with hlt | rfl
    · exact hnot ((staysTill_finished h hlive).of_le (hb.switches h).after hlt (Nat.le_refl k))
    · rcases hb.source h with ⟨halu, -⟩ | ⟨-, hv, ht⟩
      · rw [← hop, ← hxop, Op.isAlu, hxm] at halu
        cases halu
      · exact queued_unloaded hi he hv (ht.trans het.symm)
  · by_contra hlt
    have hrun' : (tr (k + 2)).status = .running := running_of_le h hb.running (by omega)
    have hlt' := ids_lt hlive
    have hid : id ∈ liveIds tr (k + 3) := ids_of_le hb.live (by omega) (by omega)
    obtain ⟨hv, ht⟩ := loadResult_answered hi hrun hfl hq hm hsucc hty
    rw [← h.step] at hv ht
    rcases bus_takes_loaded h hv (ht.trans het) hrun' hid (Nat.lt_succ_of_lt hlt') with hb' | hb'
    · have := hb.unique h hb'
      omega
    · have := hb.unique h hb'
      omega

/-! ## The memory port -/

/-- The port is busy with a request for three cycles. -/
theorem busy_after (h : IsRun tr) (htk : (tr k).taken = some r) {i : Nat} (hi : i < 3)
    (hrun : (tr (k + i + 1)).status = .running) : (tr (k + i + 1)).port.transaction = ⟨r, 3 - i, true⟩ := by
  induction i with
  | zero =>
    have hinv := h.inv k
    obtain ⟨hrunk, -, hmark, -⟩ := taken_some hinv htk
    rw [h.step]
    cases port_event hinv hrunk with
    | counting hv => rw [taken_busy hv] at htk; cases htk
    | responding hv => rw [taken_busy hv] at htk; cases htk
    | resting _ hd => rw [hd] at hmark; cases hmark
    | taking _ _ hq _ _ hp =>
      rw [taken_send hinv hrunk hq hmark, Option.some.injEq] at htk
      rw [hp, htk]
      rfl
  | succ i ih =>
    have hrunk := h.running_of_succ hrun
    have hbusy := ih (by omega) hrunk
    rw [← Nat.add_assoc k i 1, h.step]
    cases port_event (h.inv (k + i + 1)) hrunk with
    | counting _ _ hp =>
      rw [hp, hbusy]
      show (⟨r, 3 - i - 1, true⟩ : DataTransaction) = _
      rw [Nat.sub_sub]
    | responding _ hr =>
      rw [hbusy] at hr
      have hr : 3 - i ≤ 1 := hr
      omega
    | taking hv => rw [hbusy] at hv; cases hv
    | resting hv => rw [hbusy] at hv; cases hv

/-- Requests are four cycles apart, and five unless a flush takes the first one's
    instruction. -/
theorem Sends.apart (h : IsRun tr) (ha : Sends tr j a r) (hb : Sends tr k b r') (hjk : j < k) :
    j + 4 ≤ k ∧ ((∀ i < k, ¬ Flushes tr i a) → j + 5 ≤ k) := by
  constructor
  · by_contra hlt
    obtain ⟨i, rfl⟩ := Nat.exists_eq_add_of_lt hjk
    have hrun := (taken_some (h.inv _) hb.taken).1
    have hbusy := busy_after h ha.taken (by omega) hrun
    have htk := hb.taken
    rw [taken_busy (by rw [hbusy])] at htk
    cases htk
  · intro hno
    rcases sends_in_order h hb (ha.lt h hb hjk) (ha.issuesMemory h) with ⟨i, hi, hrec⟩ | ⟨i, hi, hfl⟩
    · obtain ⟨j', r'', rfl, hs⟩ := hrec.sent h
      have := hs.unique h ha
      omega
    · exact absurd hfl (hno i hi)

/-! ## Bounds on the run -/

theorem length_committedLog_succ (h : IsRun tr) (hc : Commits tr n id) :
    (committedLog tr (n + 1)).length = (committedLog tr n).length + if (opOf tr id).isMemory then 1 else 0 := by
  rw [committedLog_commits h hc, List.length_append]
  cases hmem : (opOf tr id).isMemory with
  | true =>
    obtain ⟨k, r, -, -, hone⟩ := requests_of_access h hc hmem
    rw [hone]
    rfl
  | false =>
    rw [requests_of_other h hmem]
    rfl

/-- Commits are in program order. -/
theorem Commits.lt (ha : Commits tr n a) (hb : Commits tr k b) (hnk : n < k) : a < b := by
  have hne : a ≠ b := by
    rintro rfl
    exact absurd (ha.unique hb) (Nat.ne_of_lt hnk)
  by_contra hle
  have hlt := ids_lt ha.mem
  have hmem : b ∈ liveIds tr n := ids_of_le hb.mem (by omega) (Nat.le_of_lt hnk)
  obtain ⟨rest, hl⟩ := List.head?_eq_some_iff.mp ha.head
  have hsorted := ids_sorted tr n
  rw [hl] at hmem hsorted
  rcases List.mem_cons.mp hmem with rfl | hmem
  · exact hne rfl
  · have := (List.pairwise_cons.mp hsorted).1 b hmem
    omega

/-- The accesses that commit before an access take five cycles each before it is sent. -/
theorem committed_before_send (h : IsRun tr) {m : Nat} (hm : n ≤ m) (hc : Commits tr m b) (hb : Sends tr k b r) :
    5 * (committedLog tr n).length + 1 ≤ k := by
  induction n generalizing m b k r with
  | zero =>
    have := ids_lt hb.live
    show 5 * 0 + 1 ≤ k
    omega
  | succ n ih =>
    by_cases hcn : ∃ a, Commits tr n a
    · obtain ⟨a, ha⟩ := hcn
      rw [length_committedLog_succ h ha]
      by_cases hmem : (opOf tr a).isMemory = true
      · obtain ⟨j, r', -, hr', -⟩ := requests_of_access h ha hmem
        have hfirst := ih (Nat.le_refl n) ha hr'
        have hjk := hr'.time_lt h hb (ha.lt hc hm)
        have hapart := (hr'.apart h hb hjk).2 fun i _ hfl => ha.not_flushes hfl
        rw [if_pos hmem]
        omega
      · rw [if_neg hmem]
        exact ih (by omega) hc hb
    · rw [committedLog_idle h fun a ha => hcn ⟨a, ha⟩]
      exact ih (by omega) hc hb

theorem committedLog_le (h : IsRun tr) (n : Nat) : 5 * (committedLog tr n).length ≤ n - 2 := by
  induction n with
  | zero => exact Nat.le_refl 0
  | succ n ih =>
    by_cases hcn : ∃ a, Commits tr n a
    · obtain ⟨a, ha⟩ := hcn
      rw [length_committedLog_succ h ha]
      by_cases hmem : (opOf tr a).isMemory = true
      · obtain ⟨j, r', hjn, hr', -⟩ := requests_of_access h ha hmem
        have hfirst := committed_before_send h (Nat.le_refl n) ha hr'
        rw [if_pos hmem]
        omega
      · rw [if_neg hmem]
        omega
    · rw [committedLog_idle h fun a ha => hcn ⟨a, ha⟩]
      omega

/-- All but HALT commit three cycles behind their issue or later. -/
theorem commits_after_three (h : IsRun tr) (hc : Commits tr n id) (hop : opOf tr id ≠ .halt) : id + 3 ≤ n := by
  cases hmem : (opOf tr id).isMemory with
  | true =>
    obtain ⟨k, hidk, hkn, -⟩ := access_way h hc hmem
    omega
  | false =>
    obtain ⟨d, f, hid, hdf, hfn, -⟩ := integer_way h hc (committed_alu h hc hop hmem)
    omega

/-- The first commit that counts is in cycle 3, and a cycle makes one at most. -/
theorem retired_le_sub (h : IsRun tr) (n : Nat) : retired tr n ≤ n - 3 := by
  induction n with
  | zero => exact Nat.le_refl 0
  | succ n ih =>
    rw [retired]
    by_cases hcn : ∃ a, Commits tr n a
    · obtain ⟨a, ha⟩ := hcn
      by_cases hop : opOf tr a = .halt
      · rw [retires_of_halt h ha hop]
        omega
      · have hone := retires_le_one (tr n)
        have := commits_after_three h ha hop
        omega
    · rw [retires_of_no_commit h fun a ha => hcn ⟨a, ha⟩]
      omega

end Core

namespace Cpu

open TomasuloCpu.Core

/-- A result of the unit has the bus one or two cycles behind the station, a loaded one one
    or two cycles behind the response. Requests are four cycles apart, five when no flush
    takes the first one's instruction. So `n` cycles commit at most `n - 3` instructions that
    count, and of `5 * k` cycles fewer than `k` commit an access. -/
theorem timing_bounds (cpu : Cpu) (input : Istream) :
    (∀ d f id, Dispatches (cpu.history input) d id → Broadcasts (cpu.history input) f id → d < f ∧ f ≤ d + 2) ∧
    (∀ k f id, Receives (cpu.history input) k id → Broadcasts (cpu.history input) f id → k < f ∧ f ≤ k + 2) ∧
    (∀ j k a b r r', Sends (cpu.history input) j a r → Sends (cpu.history input) k b r' → j < k →
      j + 4 ≤ k ∧ ((∀ i < k, ¬ Flushes (cpu.history input) i a) → j + 5 ≤ k)) ∧
    ∀ n, retired (cpu.history input) n ≤ n - 3 ∧
      5 * ((requestLog (cpu.history input) n).filter fun p => p.1 ∈ committedIds (cpu.history input) n).length ≤
        n - 2 := by
  have h := history_isRun cpu input
  exact ⟨fun d f id hd hb => hd.bus h hb, fun k f id hr hb => hr.bus h hb,
    fun j k a b r r' ha hb hjk => ha.apart h hb hjk, fun n => ⟨retired_le_sub h n, committedLog_le h n⟩⟩

theorem timing_bounds_sample :
    ∃ id d f, Dispatches ((new fun _ => baseOrders).history sampleImage) d id ∧
      Broadcasts ((new fun _ => baseOrders).history sampleImage) f id ∧ f ≤ d + 2 := by
  obtain ⟨id, hcommits, hop⟩ := addi_commits
  obtain ⟨d, f, -, -, -, hd, hb⟩ :=
    integer_way (history_isRun (new fun _ => baseOrders) sampleImage) hcommits (by rw [hop]; rfl)
  exact ⟨id, d, f, hd, hb, ((timing_bounds (new fun _ => baseOrders) sampleImage).1 d f id hd hb).2⟩

end Cpu

end TomasuloCpu
