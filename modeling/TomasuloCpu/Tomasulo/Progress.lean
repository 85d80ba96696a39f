/-
  TomasuloCpu.Tomasulo.Progress — no deadlock, and the end of the run loop.

  `Stage` says where the instruction at the ROB head is and bounds the cycles until it is
  ready: the round-robin distance of its slot in the station and the bus preference, the
  cycles left in the memory port, then the result. `stage_tick` lowers the bound in every
  cycle that the machine keeps running. With an empty buffer the next cycle issues or stops:
  a stopped fetch means that a HALT is in flight (`StopsForHalt`).
-/
import TomasuloCpu.Lib.Ranking
import TomasuloCpu.Tomasulo.CommitLog
import TomasuloCpu.Tomasulo.Refinement

namespace TomasuloCpu

open Keyed Rv32i

namespace Core

variable {s : Core} {tr : Nat → Core} {x : RobEntry} {r : Nat}

/-! ## Where the head is -/

/-- The head `x` becomes ready within the bound, unless the machine stops. -/
inductive Stage (s : Core) (x : RobEntry) : Nat → Prop
  | ready (hr : x.ready = true) : Stage s x 0
  | computed (hv : s.fu.valid = true) (ht : s.fu.tag = x.tag) : Stage s x (if s.preferLoad then 2 else 1)
  | loaded (hv : s.lsq.loadResult.valid = true) (ht : s.lsq.loadResult.tag = x.tag) :
      Stage s x (if s.preferLoad then 1 else 2)
  | sent {e : LsqEntry} {left : Nat} (hq : s.lsq.queue.head? = some e) (ht : e.destination = x.tag)
      (hs : e.requestSent = true) (hp : s.port.pending = some (e.destination, left)) : Stage s x (3 + left)
  | unsent {e : LsqEntry} (hq : s.lsq.queue.head? = some e) (ht : e.destination = x.tag)
      (hs : e.requestSent = false) :
      Stage s x (7 + if s.port.transaction.valid then s.port.transaction.remainingCycles else 0)
  | station {e : RsEntry} {d : Nat} (hd : d < 16) (he : s.rs.entries ((s.rs.dispatchCursor + d) % 16) = e)
      (hb : e.busy = true) (ht : e.destination = x.tag) : Stage s x (3 + 2 * d + if s.preferLoad then 1 else 0)

theorem exists_stage (h : Inv s) (hrun : s.status = .running) (hx : s.rob.live.head? = some x) :
    ∃ r, Stage s x r := by
  have hxl := List.mem_of_mem_head? hx
  have hok := h.entry x hxl
  cases hr : x.ready with
  | true => exact ⟨0, .ready hr⟩
  | false =>
    by_cases hm : x.op.isMemory = true
    · rcases memory_head h hx hm hr with ⟨hv, ht⟩ | ⟨-, e, he, ht⟩
      · exact ⟨_, .loaded hv ht⟩
      · cases hs : e.requestSent with
        | true =>
          obtain ⟨left, hp⟩ := h.port.own hrun e he hs
          exact ⟨_, .sent he ht hs hp⟩
        | false => exact ⟨_, .unsent he ht hs⟩
    · have halu : x.op.isAlu = true := by
        refine Op.isAlu_of (by simpa using hm) (fun hc => ?_) hok.op_ne
        rw [hok.halt hc] at hr
        cases hr
      have hp : x.tag ∈ pending (·.tag) aluWaiting s.rob.live :=
        mem_pending.mpr ⟨x, hxl, by simp [aluWaiting, waits, hr, halu], rfl⟩
      rw [← h.alu.mem_iff] at hp
      rcases List.mem_append.mp hp with hp | hp
      · obtain ⟨e, he, ht⟩ := List.mem_map.mp hp
        obtain ⟨i, hi, hie, hb⟩ := ReservationStation.mem_waiting.mp he
        obtain ⟨d, hd, hdi⟩ := RoundRobin.exists_distance (c := s.rs.dispatchCursor) hi
        exact ⟨_, .station hd (by rw [hdi]; exact hie) hb ht⟩
      · unfold holds at hp
        split at hp
        · rename_i hv
          exact ⟨_, .computed hv (List.mem_singleton.mp hp).symm⟩
        · cases hp

/-! ## One cycle -/

/-- The operands of the instruction at the head are there. -/
theorem awaits_head (h : Inv s) (hx : s.rob.live.head? = some x) {o : Operand} (ho : Awaits s.rob.live x.tag o) :
    o.ready = true := by
  rcases ho with hr | ⟨hb, -⟩
  · exact hr
  · obtain ⟨rest, hl⟩ := List.head?_eq_some_iff.mp hx
    have hn := h.nodup
    rw [hl] at hb
    rw [RobState.tags, hl] at hn
    exact absurd hb (not_before_head hn)

/-- What the bus or a store completion names becomes ready. -/
theorem stage_finished (h : Inv s) (hx : s.rob.live.head? = some x) (hf : s.finishes x.tag = true) :
    Stage s.tick (s.finish x) 0 := by
  refine .ready ?_
  rw [finish_ready h (List.mem_of_mem_head? hx), hf, Bool.or_true]

theorem stage_computed (h : Inv s) (hrun : s.status = .running) (hx : s.rob.live.head? = some x)
    (hfl : s.flush = false) (hv : s.fu.valid = true) (ht : s.fu.tag = x.tag) :
    ∃ r < if s.preferLoad then 2 else 1, Stage s.tick (s.finish x) r := by
  rcases cdb_cases hfl with ⟨-, -, -, -, ho, -⟩ | ⟨hc, -, -, -, -, -⟩ | ⟨-, -, hg, -, -, hpref, hno⟩
  · rw [h.offered_fu, hv] at ho
    cases ho
  · refine ⟨0, by split <;> omega, stage_finished h hx ?_⟩
    rw [finishes, hc, hv, ht]
    simp
  · -- a loaded result goes first, this once
    have hl : s.preferLoad = true := by
      by_contra hl
      have := hno (by simpa using hl)
      rw [h.offered_fu, hv] at this
      cases this
    have hdep : s.departing = none := by
      cases hd : s.departing with
      | none => rfl
      | some e =>
        obtain ⟨-, -, -, hacc, -⟩ := departing_mem hd
        simp [FunctionalUnit.canAccept, hg, hv] at hacc
    have hfu : s.tick.fu = s.fu := by
      rw [tick_fu_idle hrun hfl hdep, keptFu, hg]
      rfl
    have hpref' : s.tick.preferLoad = false := by rw [tick_eq hrun]; exact hpref
    refine ⟨1, by rw [if_pos hl]; omega, ?_⟩
    have hstage := Stage.computed (s := s.tick) (x := s.finish x) (by rw [hfu, hv]) (by rw [hfu, ht, finish_tag])
    rw [hpref'] at hstage
    exact hstage

theorem stage_loaded (h : Inv s) (hrun : s.status = .running) (hx : s.rob.live.head? = some x)
    (hfl : s.flush = false) (hv : s.lsq.loadResult.valid = true) (ht : s.lsq.loadResult.tag = x.tag) :
    ∃ r < if s.preferLoad then 1 else 2, Stage s.tick (s.finish x) r := by
  rcases cdb_cases hfl with ⟨-, -, -, -, -, ho⟩ | ⟨-, -, -, hg, -, hpref, hno⟩ | ⟨hc, -⟩
  · rw [h.offered_loadResult, hv] at ho
    cases ho
  · have hl : s.preferLoad = false := by
      by_contra hl
      have := hno (by simpa using hl)
      rw [h.offered_loadResult, hv] at this
      cases this
    have hkept : s.tick.lsq.loadResult = s.lsq.loadResult := by
      have hclear : s.clearing.clearLoadResult = false := by rw [clearing_eq, hg]; rfl
      rw [loadResult_tick h hrun hfl]
      have hev := lsq_event h hfl
      generalize s.lsqDecision = d at hev
      cases hev with
      | @loaded e rest hq hm hs hty =>
        have := h.sentLoad e (by rw [hq]; exact List.mem_cons_self) (h.matched hq hm).2.2 hty
        rw [hv] at this
        cases this
      | _ => rw [if_neg (by intro hc; cases hc), hclear]; rfl
    have hpref' : s.tick.preferLoad = true := by rw [tick_eq hrun]; exact hpref
    refine ⟨1, by simp [hl], ?_⟩
    have hstage := Stage.loaded (s := s.tick) (x := s.finish x) (by rw [hkept, hv]) (by rw [hkept, ht, finish_tag])
    rw [hpref'] at hstage
    exact hstage
  · refine ⟨0, by split <;> omega, stage_finished h hx ?_⟩
    rw [finishes, hc, hv, ht]
    simp

/-- What the station does in the cycle. -/
theorem rs_tick (hrun : s.status = .running) (hfl : s.flush = false) :
    s.tick.rs = (ReservationStation.step s.rs (s.rsInputs s.observe s.outs) (ReservationStation.plan s.rs false)).2 := by
  rw [tick_eq hrun, hfl]

theorem stage_station (h : Inv s) (hrun : s.status = .running) (hx : s.rob.live.head? = some x)
    (hfl : s.flush = false) {e : RsEntry} {d : Nat} (hd : d < 16)
    (he : s.rs.entries ((s.rs.dispatchCursor + d) % 16) = e) (hb : e.busy = true) (ht : e.destination = x.tag) :
    ∃ r < 3 + 2 * d + if s.preferLoad then 1 else 0, Stage s.tick (s.finish x) r := by
  have hmem : e ∈ s.rs.waiting := ReservationStation.mem_waiting.mpr ⟨_, Nat.mod_lt _ (by decide), he, hb⟩
  obtain ⟨hl, hr⟩ := h.rsOperands e hmem
  rw [ht] at hl hr
  have hready : ReservationStation.readyEntry (s.rs.entries ((s.rs.dispatchCursor + d) % 16)) = true := by
    rw [he, ReservationStation.readyEntry, hb, awaits_head h hx hl, awaits_head h hx hr]
    rfl
  obtain ⟨hstay, hgo⟩ := ReservationStation.step_distance (s.rsInputs s.observe s.outs) hfl hd hready
  rw [← rs_tick hrun hfl, he] at hstay hgo
  have hcanAccept : (s.rsInputs s.observe s.outs).fuAvailable = FunctionalUnit.canAccept s.fu s.integerGranted := rfl
  rw [hcanAccept] at hstay hgo
  have htag : (ReservationStation.wake s.broadcast e).destination = (s.finish x).tag := by
    rw [finish_tag]
    exact ht
  cases hacc : FunctionalUnit.canAccept s.fu s.integerGranted with
  | true =>
    rcases hgo hacc with hdep | ⟨d', hlt, hslot⟩
    · have hdep : s.departing = some e := by rw [departing, hfl, if_neg (by simp), hacc]; exact hdep
      obtain ⟨hcv, hct, -⟩ := computed_spec (departing_alu h hdep)
      have hfu := tick_fu_departing hrun hdep hcv
      refine ⟨_, ?_, .computed (by rw [hfu, hcv]) (by rw [hfu, hct, ht, finish_tag])⟩
      split <;> split <;> omega
    · refine ⟨_, ?_, .station (by omega) hslot hb htag⟩
      split <;> split <;> omega
  | false =>
    -- the unit is blocked by a loaded result that goes first; then it is the unit's turn
    have hpref : s.preferLoad = true ∧ s.tick.preferLoad = false := by
      simp only [FunctionalUnit.canAccept, Bool.or_eq_false_iff, Bool.not_eq_false'] at hacc
      rcases cdb_cases hfl with ⟨-, -, -, -, ho, -⟩ | ⟨-, -, hg, -⟩ | ⟨-, -, -, -, -, hnext, hno⟩
      · rw [h.offered_fu, hacc.2] at ho
        cases ho
      · rw [hacc.1] at hg
        cases hg
      · refine ⟨?_, by rw [tick_eq hrun]; exact hnext⟩
        by_contra hl
        have := hno (by simpa using hl)
        rw [h.offered_fu, hacc.2] at this
        cases this
    refine ⟨_, ?_, .station hd (hstay hacc) hb htag⟩
    rw [hpref.1, hpref.2]
    simp

/-- While the port works the access at the queue's head stays there as it is. -/
theorem busy_head (h : Inv s) (hrun : s.status = .running) (hfl : s.flush = false)
    (hv : s.port.transaction.valid = true) {e : LsqEntry} {rest : List LsqEntry} (hq : s.lsq.queue = e :: rest) :
    ∃ e', s.tick.lsq.queue.head? = some e' ∧ e'.destination = e.destination ∧ e'.requestSent = e.requestSent := by
  obtain ⟨hrem, hmark, -⟩ := busy_quiet h hfl hv
  have hhead := queue_tick_head h hrun hfl hq hrem
  rw [hmark] at hhead
  obtain ⟨hdest, -, -, -, hreq, -⟩ := carried_frame s false e
  exact ⟨_, hhead, hdest, by rw [hreq, Bool.false_or]⟩

/-- The head that sees its response has its result, or is done. -/
theorem stage_answered (h : Inv s) (hrun : s.status = .running) (hrun' : s.tick.status = .running)
    (hx : s.rob.live.head? = some x) (hfl : s.flush = false) {e : LsqEntry} {rest : List LsqEntry}
    (hq : s.lsq.queue = e :: rest) (ht : e.destination = x.tag)
    (hmatch : LoadStoreQueue.matchingResponse e s.port.response = true) :
    ∃ r < 3, Stage s.tick (s.finish x) r := by
  have hres := loadResult_tick h hrun hfl
  have hfin : s.storeDone.valid = true → s.storeDone.tag = x.tag → s.finishes x.tag = true := by
    intro hdv hdt
    rw [finishes, hdv, hdt]
    simp
  unfold storeDone at hfin
  cases answer_event h hfl hq hmatch with
  | failed _ hd => exact absurd hrun' (status_of_error hrun (by rw [hd]))
  | loaded _ _ hd =>
    rw [hd] at hres
    refine ⟨_, ?_, .loaded (by rw [hres]; rfl) ?_⟩
    · split <;> omega
    · rw [hres, finish_tag, ← ht]
      rfl
  | stored _ _ hd =>
    rw [hd] at hfin
    exact ⟨0, by omega, stage_finished h hx (hfin rfl ht)⟩

theorem stage_sent (h : Inv s) (hrun : s.status = .running) (hrun' : s.tick.status = .running)
    (hx : s.rob.live.head? = some x) (hfl : s.flush = false) {e : LsqEntry} {left : Nat}
    (hq : s.lsq.queue.head? = some e) (ht : e.destination = x.tag) (hs : e.requestSent = true)
    (hp : s.port.pending = some (e.destination, left)) : ∃ r < 3 + left, Stage s.tick (s.finish x) r := by
  obtain ⟨rest, hcons⟩ := cons_of_head hq
  by_cases hv : s.port.transaction.valid = true
  · obtain ⟨e', hhead, hdest, hreq⟩ := busy_head h hrun hfl hv hcons
    have hkept : ∀ {n}, s.tick.port.pending = some (e.destination, n) → Stage s.tick (s.finish x) (3 + n) :=
      fun hn => .sent hhead (by rw [hdest, ht, finish_tag]) (hreq.trans hs) (by rw [hdest]; exact hn)
    have hleft : e.destination = s.port.transaction.request.tag ∧ left = s.port.transaction.remainingCycles := by
      rw [DataPort.pending, if_pos hv, Option.some.injEq, Prod.mk.injEq] at hp
      exact ⟨hp.1.symm, hp.2.symm⟩
    cases port_event h hrun with
    | counting _ hr hport =>
      refine ⟨_, ?_, hkept (n := left - 1) ?_⟩
      · omega
      · rw [hport, pending_counting hv, hleft.1, hleft.2]
    | responding _ _ hport =>
      obtain ⟨hcv, hct, -⟩ := complete_frame s.memory s.port.transaction.request
      have hpos := (h.port.busy hv).1
      refine ⟨_, ?_, hkept (n := 0) ?_⟩
      · omega
      · rw [hport, pending_responding hcv, hct, hleft.1]
    | taking hv' => rw [hv] at hv'; cases hv'
    | resting hv' => rw [hv] at hv'; cases hv'
  · have hresp : s.port.response.valid = true ∧ e.destination = s.port.response.tag := by
      rw [DataPort.pending, if_neg hv] at hp
      split at hp
      · rename_i hrv
        rw [Option.some.injEq, Prod.mk.injEq] at hp
        exact ⟨hrv, hp.1.symm⟩
      · cases hp
    have hmatch := response_matches h hq hresp.1 hresp.2
    obtain ⟨r, hr, hstage⟩ := stage_answered h hrun hrun' hx hfl hcons ht hmatch
    exact ⟨r, by omega, hstage⟩

/-- The access of the head is sent as soon as the port is free. -/
theorem head_sends (h : Inv s) (hx : s.rob.live.head? = some x) {e : LsqEntry}
    {rest : List LsqEntry} (hq : s.lsq.queue = e :: rest) (ht : e.destination = x.tag) (hs : e.requestSent = false)
    (hv : s.port.transaction.valid = false) : LoadStoreQueue.maySend s.lsq e s.observe.lsq = true := by
  have he : e ∈ s.lsq.queue := by rw [hq]; exact List.mem_cons_self
  have hxl := List.mem_of_mem_head? hx
  obtain ⟨hbase, hdata⟩ := h.lsqOperands e he
  rw [ht] at hbase hdata
  obtain ⟨y, hy, hyt, hop, hr, hm⟩ := h.queued_entry he
  obtain rfl : y = x := inj h.nodup hy hxl (hyt.trans ht)
  have hacc := h.access e he
  have hfree : s.lsq.loadResult.valid = false := by
    rcases memory_head h hx hm hr with ⟨hlv, hlt⟩ | ⟨hlv, -⟩
    · have hdis := (List.nodup_append.mp (mem_nodup h)).2.2 s.lsq.loadResult.tag (by simp [holds, hlv]) e.destination
        (List.mem_map_of_mem he)
      exact absurd (hlt.trans ht.symm) hdis
    · exact hlv
  have havail : s.observe.lsq.memoryAvailable = true := by
    show (!s.port.transaction.valid) = true
    rw [hv]
    rfl
  unfold LoadStoreQueue.maySend
  rw [LoadStoreQueue.queue_valid h.lsq he, hs, hacc.address, awaits_head h hx hbase, havail, hfree]
  cases hty : e.type with
  | load => rfl
  | store =>
    have hst : y.isStore = true := by
      rw [(h.entry y hxl).store, hop]
      exact hacc.store_op hty
    have hreq : s.observe.lsq.storeRequest = { tag := y.tag, valid := true } := by
      show s.previewRob.storeRequest = _
      rw [previewRob, ReorderBuffer.front_eq h.rob, hx]
      simp only [hst, hr, Bool.not_false, Bool.and_self, if_true]
    rw [hreq, awaits_head h hx (hdata hty), ht]
    simp

theorem stage_unsent (h : Inv s) (hrun : s.status = .running) (hx : s.rob.live.head? = some x)
    (hfl : s.flush = false) {e : LsqEntry} (hq : s.lsq.queue.head? = some e) (ht : e.destination = x.tag)
    (hs : e.requestSent = false) :
    ∃ r < 7 + if s.port.transaction.valid then s.port.transaction.remainingCycles else 0,
      Stage s.tick (s.finish x) r := by
  obtain ⟨rest, hcons⟩ := cons_of_head hq
  by_cases hv : s.port.transaction.valid = true
  · obtain ⟨e', hhead, hdest, hreq⟩ := busy_head h hrun hfl hv hcons
    have hpos := (h.port.busy hv).1
    refine ⟨_, ?_, .unsent hhead (by rw [hdest, ht, finish_tag]) (hreq.trans hs)⟩
    rw [if_pos hv]
    cases port_event h hrun with
    | counting _ hr hport =>
      rw [hport, if_pos hv]
      show 7 + (s.port.transaction.remainingCycles - 1) < _
      omega
    | responding _ _ hport =>
      rw [hport]
      show 7 + 0 < _
      omega
    | taking hv' => rw [hv] at hv'; cases hv'
    | resting hv' => rw [hv] at hv'; cases hv'
  · have hsend := head_sends h hx hcons ht hs (by simpa using hv)
    have hd := sends_head h hfl hcons hsend
    have hmark : s.lsqDecision.markRequestSent = true := by rw [hd]
    have hhead := queue_tick_head h hrun hfl hcons (by rw [hd]; rfl)
    rw [hmark] at hhead
    obtain ⟨hdest, -, -, -, hreq, -⟩ := carried_frame s true e
    cases port_event h hrun with
    | counting hv' => exact absurd hv' hv
    | responding hv' => exact absurd hv' hv
    | resting _ hd => rw [hmark] at hd; cases hd
    | @taking y rest' _ _ hq' _ _ hport =>
      rw [hcons, List.cons.injEq] at hq'
      have hpending : s.tick.port.pending =
          some ((carried s true e).destination, MemoryUnit.kDataLatency) := by
        rw [hport, hdest, hq'.1]
        rfl
      refine ⟨_, ?_, .sent hhead (by rw [hdest, ht, finish_tag]) (by rw [hreq]; rfl) hpending⟩
      show 6 < _
      omega

/-- Every cycle brings the waiting head closer, unless the machine stops. -/
theorem stage_tick (h : Inv s) (hrun : s.status = .running) (hrun' : s.tick.status = .running)
    (hx : s.rob.live.head? = some x) (hr : x.ready = false) (hstage : Stage s x r) :
    s.tick.rob.live.head? = some (s.finish x) ∧ ∃ r' < r, Stage s.tick (s.finish x) r' := by
  obtain ⟨hfl, hhead⟩ := head_kept h hrun hx hr
  refine ⟨hhead, ?_⟩
  cases hstage with
  | ready hr' => rw [hr] at hr'; cases hr'
  | computed hv ht => exact stage_computed h hrun hx hfl hv ht
  | loaded hv ht => exact stage_loaded h hrun hx hfl hv ht
  | sent hq ht hs hp => exact stage_sent h hrun hrun' hx hfl hq ht hs hp
  | unsent hq ht hs => exact stage_unsent h hrun hx hfl hq ht hs
  | station hd he hb ht => exact stage_station h hrun hx hfl hd he hb ht

theorem Stage.pos (h : Stage s x r) (hr : x.ready = false) : 0 < r := by
  cases h with
  | ready hr' => rw [hr] at hr'; cases hr'
  | computed => split <;> omega
  | loaded => split <;> omega
  | sent => omega
  | unsent => omega
  | station => omega

/-- The head commits, or the machine stops before. -/
theorem head_commits (h : Inv s) (hx : s.rob.live.head? = some x) (hstage : Stage s x r) :
    ∃ k ≤ r, (s.after k).status ≠ .running ∨ (s.after k).committing = true := by
  refine Ranking.eventually tick
    (fun s r => Inv s ∧ (s.status = .running → ∃ x, s.rob.live.head? = some x ∧ Stage s x r))
    (fun s => s.status ≠ .running ∨ s.committing = true) ?_ ⟨h, fun _ => ⟨x, hx, hstage⟩⟩
  rintro s r ⟨h, hstage⟩
  by_cases hrun : s.status = .running
  · obtain ⟨x, hx, hstage⟩ := hstage hrun
    cases hr : x.ready with
    | true => exact Or.inl (Or.inr ((committing_iff h.rob).mpr ⟨x, hx, hr⟩))
    | false =>
      right
      by_cases hrun' : s.tick.status = .running
      · obtain ⟨hhead, r', hlt, hstage'⟩ := stage_tick h hrun hrun' hx hr hstage
        exact ⟨r', hlt, h.tick, fun _ => ⟨_, hhead, hstage'⟩⟩
      · exact ⟨0, hstage.pos hr, h.tick, fun hc => absurd hc hrun'⟩
  · exact Or.inl (Or.inl hrun)

/-! ## An empty buffer -/

/-- The fetch stops for a HALT only, which stays until it commits or is flushed. -/
def StopsForHalt (s : Core) : Prop :=
  s.status = .running → s.fetchStopped = true → ∃ y ∈ s.rob.live, y.op = .halt

theorem FetchStream.stopsForHalt (h : FetchStream s) : StopsForHalt s := by
  intro _ hst
  obtain ⟨y, hy, hop⟩ := h.stopped hst
  exact ⟨y, List.mem_of_getLast? hy, hop⟩

/-- With an empty buffer the cycle issues, or stops the machine. -/
theorem empty_tick (h : Inv s) (hs : StopsForHalt s) (hrun : s.status = .running) (hl : s.rob.live = [])
    (hrun' : s.tick.status = .running) : ∃ x, s.tick.rob.live.head? = some x := by
  have hissue : ∃ d, s.issuing = some d := by
    cases status_event h hrun with
    | running _ _ _ hnext =>
      rcases hnext hl with hst | hd
      · obtain ⟨y, hy, -⟩ := hs hrun hst
        rw [hl] at hy
        cases hy
      · exact hd
    | halted hs' => rw [hs'] at hrun'; cases hrun'
    | memory hs' => rw [hs'] at hrun'; cases hrun'
    | fetch hs' => rw [hs'] at hrun'; cases hrun'
    | invalid hs' => rw [hs'] at hrun'; cases hrun'
  obtain ⟨d, hd⟩ := hissue
  obtain ⟨-, -, hfl, hc, -⟩ := empty_modules h hl
  have hsurv : s.survivors = [] := by
    rw [survivors, if_neg (by simp [hfl]), if_neg (by simp [hc]), hl]
    rfl
  refine ⟨s.issuedRob d, ?_⟩
  rw [(tick_rob hrun h.rob).2, hsurv, newRob, hd]
  rfl

/-- Some cycle commits or stops the machine. -/
theorem eventually_commits (h : Inv s) (hs : StopsForHalt s) (hrun : s.status = .running) :
    ∃ k, (s.after k).status ≠ .running ∨ (s.after k).committing = true := by
  have hhead : ∀ {s : Core} {x : RobEntry}, Inv s → s.status = .running → s.rob.live.head? = some x →
      ∃ k, (s.after k).status ≠ .running ∨ (s.after k).committing = true := by
    intro s x h hrun hx
    obtain ⟨r, hstage⟩ := exists_stage h hrun hx
    obtain ⟨k, -, hk⟩ := head_commits h hx hstage
    exact ⟨k, hk⟩
  cases hx : s.rob.live.head? with
  | some x => exact hhead h hrun hx
  | none =>
    by_cases hrun' : s.tick.status = .running
    · obtain ⟨x, hx'⟩ := empty_tick h hs hrun (List.head?_eq_none_iff.mp hx) hrun'
      obtain ⟨k, hk⟩ := hhead h.tick hrun' hx'
      exact ⟨k + 1, hk⟩
    · exact ⟨1, Or.inl hrun'⟩

theorem commit_counts (h : Inv s) (hc : s.committing = true) :
    ∃ k, (s.after k).status ≠ .running ∨ (s.after k).committedCount = s.committedCount + 1 := by
  by_cases hrun : s.status = .running
  · refine ⟨1, ?_⟩
    show s.tick.status ≠ .running ∨ s.tick.committedCount = s.committedCount + 1
    cases hh : s.halts with
    | true =>
      left
      rw [halted_tick h hrun hh]
      decide
    | false =>
      right
      rw [committedCount_tick h, retires_running hrun hh, shift, if_pos hc]
      rfl
  · exact ⟨0, Or.inl hrun⟩

/-- Some cycle adds one to the counter or stops the machine. -/
theorem eventually_counts (h : Inv s) {k : Nat}
    (hk : (s.after k).status ≠ .running ∨ (s.after k).committing = true) :
    ∃ k, (s.after k).status ≠ .running ∨ (s.after k).committedCount = s.committedCount + 1 := by
  induction k generalizing s with
  | zero =>
    rcases hk with hk | hc
    · exact ⟨0, Or.inl hk⟩
    · exact commit_counts h hc
  | succ k ih =>
    by_cases hc : s.committing = true
    · exact commit_counts h hc
    · have hsame : s.tick.committedCount = s.committedCount := by
        rw [committedCount_tick h, retires_idle (by simpa using hc)]
        exact BitVec.add_zero _
      obtain ⟨j, hj⟩ := ih h.tick hk
      rw [hsame] at hj
      exact ⟨j + 1, hj⟩

theorem IsRun.stopsForHalt (h : IsRun tr) (n : Nat) : StopsForHalt (tr n) := by
  intro hrun
  exact (stream_running h hrun).1.stopsForHalt hrun

/-! ## Termination -/

theorem IsRun.after (h : IsRun tr) (n k : Nat) : (tr n).after k = tr (n + k) := by
  induction k with
  | zero => rfl
  | succ k ih => rw [after_succ, ih, ← h.step]; rfl

theorem retired_mono (tr : Nat → Core) {m n : Nat} (hle : m ≤ n) : retired tr m ≤ retired tr n := by
  induction hle with
  | refl => exact Nat.le_refl _
  | step _ ih => exact Nat.le_trans ih (Nat.le_add_right _ _)

/-- While the machine runs, commits do not run out. -/
theorem retires_unbounded (h : IsRun tr) (hrun : ∀ n, (tr n).status = .running) (j : Nat) :
    ∃ n, j ≤ retired tr n := by
  induction j with
  | zero => exact ⟨0, Nat.zero_le _⟩
  | succ j ih =>
    obtain ⟨n, hn⟩ := ih
    obtain ⟨k, hk⟩ := eventually_commits (h.inv n) (h.stopsForHalt n) (hrun n)
    rw [h.after] at hk
    rcases hk with hk | hc
    · exact absurd (hrun (n + k)) hk
    · have hh : (tr (n + k)).halts = false := by
        by_contra hh
        have := hrun (n + k + 1)
        rw [h.step, halted_tick (h.inv _) (hrun _) (by simpa using hh)] at this
        cases this
      have hle := retired_mono tr (Nat.le_add_right n k)
      refine ⟨n + k + 1, ?_⟩
      rw [retired, retires_running (hrun _) hh, shift, if_pos hc]
      omega

/-- A run stops when the sequential one does. -/
theorem run_stops_far (h : IsRun tr) (hs : ¬ ModifiesWithin ReorderBuffer.kCapacity (tr 0).memory.bytes) {fuel : Nat}
    (hstop : run (tr 0).memory.bytes fuel = none) : ∃ n, (tr n).status ≠ .running := by
  by_contra hno
  have hrun : ∀ n, (tr n).status = .running := fun n => by
    by_contra hc
    exact hno ⟨n, hc⟩
  obtain ⟨n, hn⟩ := retires_unbounded h hrun fuel
  obtain ⟨m, hm, -⟩ := registers_follow_far h hs n
  obtain ⟨y, hy⟩ := run_of_le hn hm
  rw [hstop] at hy
  cases hy

theorem run_stops (h : IsRun tr) (hs : ¬ SelfModifying (tr 0).memory.bytes) {fuel : Nat}
    (hstop : run (tr 0).memory.bytes fuel = none) : ∃ n, (tr n).status ≠ .running :=
  run_stops_far h (not_modifiesWithin hs _) hstop

end Core

namespace Cpu

open TomasuloCpu.Core

theorem Reachable.stopsForHalt {cpu : Cpu} (h : Reachable cpu) : StopsForHalt cpu.core := by
  rcases reachable_core h with hc | ⟨input, n, hc⟩
  · rw [hc]
    intro hrun
    cases hrun
  · rw [hc]
    exact (isRun_loaded input).stopsForHalt n

/-- From every reachable running machine a later cycle adds one to `committed_count`, a
    64-bit counter, or stops. So the loop of `run` ends, after enough cycles, for every
    image whose sequential run stops and does not modify its code. -/
theorem no_deadlock :
    (∀ cpu, Reachable cpu → cpu.status = .running →
      ∃ k, (cpu.cycles k).status ≠ .running ∨ (cpu.cycles k).committedCount = cpu.committedCount + 1) ∧
    ∀ (cpu : Cpu) (input : Istream), ¬ SelfModifying (cpu.load input).2.memoryUnit.memory.bytes →
      (∃ steps, Rv32i.run (cpu.load input).2.memoryUnit.memory.bytes steps = none) →
      ∃ n result, ∀ fuel, n ≤ fuel → (cpu.load input).2.run fuel = some result := by
  refine ⟨fun cpu h hrun => ?_, fun cpu input hs hstop => ?_⟩
  · obtain ⟨k, hk⟩ := eventually_commits h.inv h.stopsForHalt hrun
    obtain ⟨j, hj⟩ := eventually_counts h.inv hk
    refine ⟨j, ?_⟩
    rw [← core_cycles] at hj
    exact hj
  · obtain ⟨steps, hstop⟩ := hstop
    obtain ⟨n, hn⟩ := run_stops (history_isRun cpu input) hs hstop
    exact ⟨n, _, fun fuel hle => run_of_cycles hle hn⟩

theorem no_deadlock_sample :
    (∃ k, ((sample 3).cycles k).status ≠ .running ∨
      ((sample 3).cycles k).committedCount = (sample 3).committedCount + 1) ∧
    ∃ n result, ∀ fuel, n ≤ fuel → ((new fun _ => baseOrders).load sampleImage).2.run fuel = some result := by
  have hstatus : (sample 3).status = .running := by
    rw [(sample_counts 3).2]
    decide +kernel
  have hstop : Rv32i.run (loaded sampleImage).memory.bytes 5 = none := by decide +kernel
  exact ⟨no_deadlock.1 (sample 3) (sample_reachable 3) hstatus,
    no_deadlock.2 (new fun _ => baseOrders) sampleImage sample_code ⟨5, hstop⟩⟩

end Cpu

end TomasuloCpu
