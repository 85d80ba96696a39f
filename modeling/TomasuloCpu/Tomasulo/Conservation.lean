/-
  TomasuloCpu.Tomasulo.Conservation — no instruction is lost or duplicated.

  `pending_tick` follows the tags that wait for a kind of unit through a cycle: those
  that finish leave, an issue of that kind is appended. `alu_tick` and `mem_tick` show
  the modules' contents following the same change, through dispatch, bus grant, memory
  response and flush.
-/
import TomasuloCpu.Tomasulo.Datapath
import TomasuloCpu.Tomasulo.Invariant

namespace TomasuloCpu

open Keyed
open scoped List

namespace Core

variable {s : Core}

/-! ## What finishes in a cycle -/

/-- A live entry with this tag becomes ready in the cycle. -/
def finishes (s : Core) (t : RobTag) : Bool :=
  (s.completion.valid && t == s.completion.tag) || (s.storeDone.valid && t == s.storeDone.tag)

theorem storeDone_flush (hfl : s.flush = true) : s.storeDone = {} := by
  rw [storeDone, lsqDecision_flush hfl]

/-- A store is done when the queue's head, a store, got its response. -/
theorem storeDone_head (h : Inv s) (hv : s.storeDone.valid = true) :
    s.flush = false ∧ ∃ e rest, s.lsq.queue = e :: rest ∧ s.storeDone.tag = e.destination ∧ e.type = .store ∧
      LoadStoreQueue.matchingResponse e s.port.response = true ∧ s.port.response.success = true ∧
      s.lsqDecision.removeHead = true ∧ s.lsqDecision.installLoadResult = false := by
  have hfl : s.flush = false := by
    by_contra hc
    rw [storeDone_flush (by simpa using hc)] at hv
    cases hv
  refine ⟨hfl, ?_⟩
  have hev := lsq_event h hfl
  unfold storeDone at hv ⊢
  generalize s.lsqDecision = d at hev hv
  cases hev with
  | idle => cases hv
  | failed => cases hv
  | send => cases hv
  | loaded => cases hv
  | stored hq hm hs ht => exact ⟨_, _, hq, rfl, ht, hm, hs, rfl, rfl⟩

theorem finish_ready (h : Inv s) {x : RobEntry} (hx : x ∈ s.rob.live) :
    (s.finish x).ready = (x.ready || s.finishes x.tag) := by
  rw [finish, ReorderBuffer.finish_ready, finishes, Bool.or_assoc]
  congr 2
  by_cases hd : (s.storeDone.valid && x.tag == s.storeDone.tag) = true
  · simp only [Bool.and_eq_true, beq_iff_eq] at hd
    obtain ⟨-, e, rest, hq, ht, hst, -⟩ := storeDone_head h hd.1
    have he : e ∈ s.lsq.queue := by rw [hq]; exact List.mem_cons_self
    obtain ⟨y, hy, hyt, hyop, -⟩ := h.queued_entry he
    have hxy : x = y := inj h.nodup hx hy (by rw [hd.2, ht, hyt])
    have hop : x.op.isStore = true := by rw [hxy, hyop, (h.access e he).store_op hst]
    simp [hd.1, hd.2, (h.entry x hx).store, hop]
  · rw [Bool.not_eq_true] at hd
    rw [hd]
    rfl

@[simp] theorem finish_tag (x : RobEntry) : (s.finish x).tag = x.tag := ReorderBuffer.finish_tag _ _ x

theorem finish_op (x : RobEntry) : (s.finish x).op = x.op := (ReorderBuffer.finish_frame _ _ x).1

/-- Only a waiting integer instruction finishes over the bus from the unit. -/
theorem finishes_alu (h : Inv s) {t : RobTag} (ht : t ∈ pending (·.tag) aluWaiting s.rob.live) :
    s.finishes t = (s.integerGranted && t == s.fu.tag) := by
  have hkind : ∀ x : RobEntry, aluWaiting x = true → memWaiting x = true → False := by
    intro x h1 h2
    simp only [aluWaiting, memWaiting, waits, Op.isAlu, Bool.and_eq_true, Bool.not_eq_true'] at h1 h2
    rw [h1.2.1.1] at h2
    exact absurd h2.2 (by simp)
  have hmem := pending_disjoint h.nodup hkind ht
  have hstore : (s.storeDone.valid && t == s.storeDone.tag) = false := by
    by_contra hc
    simp only [Bool.not_eq_false, Bool.and_eq_true, beq_iff_eq] at hc
    obtain ⟨-, e, rest, hq, hte, -⟩ := storeDone_head h hc.1
    exact hmem (by rw [hc.2, hte]; exact h.queue_pending (by rw [hq]; exact List.mem_cons_self))
  rw [finishes, hstore, Bool.or_false]
  by_cases hfl : s.flush = true
  · obtain ⟨hc, -, hi, -⟩ := cdb_flush hfl
    rw [hc, hi]; rfl
  · rcases cdb_cases (by simpa using hfl) with ⟨hc, -, hi, -⟩ | ⟨hc, -, hi, -, ho, -⟩ | ⟨hc, -, hi, -, ho, -⟩
    · rw [hc, hi]; rfl
    · rw [hc, hi, ← h.offered_fu, ho]
    · rw [h.offered_loadResult] at ho
      have hne : t ≠ s.lsq.loadResult.tag := fun e => hmem (by rw [e]; exact h.loadResult_pending ho)
      simp [hc, hi, hne]

/-- A waiting memory instruction finishes as the loaded result on the bus or as the
    store that is done. -/
theorem finishes_mem (h : Inv s) {t : RobTag} (ht : t ∈ pending (·.tag) memWaiting s.rob.live) :
    s.finishes t =
      ((s.loadGranted && t == s.lsq.loadResult.tag) || (s.storeDone.valid && t == s.storeDone.tag)) := by
  have hkind : ∀ x : RobEntry, memWaiting x = true → aluWaiting x = true → False := by
    intro x h1 h2
    simp only [aluWaiting, memWaiting, waits, Op.isAlu, Bool.and_eq_true, Bool.not_eq_true'] at h1 h2
    rw [h2.2.1.1] at h1
    exact absurd h1.2 (by simp)
  have halu := pending_disjoint h.nodup hkind ht
  rw [finishes]
  congr 1
  by_cases hfl : s.flush = true
  · obtain ⟨hc, -, -, hl⟩ := cdb_flush hfl
    rw [hc, hl]; rfl
  · rcases cdb_cases (by simpa using hfl) with ⟨hc, -, -, hl, -⟩ | ⟨hc, -, -, hl, ho, -⟩ | ⟨hc, -, -, hl, ho, -⟩
    · rw [hc, hl]; rfl
    · rw [h.offered_fu] at ho
      have hne : t ≠ s.fu.tag := fun e => halu (by rw [e]; exact h.fu_pending ho)
      simp [hc, hl, hne]
    · rw [hc, hl, ← h.offered_loadResult, ho]

/-! ## The live list after a cycle -/

theorem issuing_flush (hfl : s.flush = true) : s.issuing = none := by
  cases h : s.issuing with
  | none => rfl
  | some d => rw [(issuing_some h).noFlush] at hfl; cases hfl

/-- After a flush nothing is live. -/
theorem live_flush (hrun : s.status = .running) (hw : s.rob.Wf) (hfl : s.flush = true) : s.tick.rob.live = [] := by
  rw [(tick_rob hrun hw).2, survivors, if_pos hfl, newRob, issuing_flush hfl]
  rfl

/-- The head leaves only when it is ready. -/
theorem survivors_cases (hw : s.rob.Wf) (hfl : s.flush = false) :
    (∃ h t, s.rob.live = h :: t ∧ h.ready = true ∧ s.committing = true ∧ s.survivors = t.map s.finish) ∨
      ((∀ h t, s.rob.live = h :: t → h.ready = false) ∧ s.committing = false ∧
        s.survivors = s.rob.live.map s.finish) := by
  unfold survivors
  rw [hfl]
  simp only [Bool.false_eq_true, if_false]
  by_cases hc : s.committing = true
  · obtain ⟨h, hh, hr⟩ := (committing_iff hw).mp hc
    obtain ⟨t, ht⟩ := List.head?_eq_some_iff.mp hh
    exact Or.inl ⟨h, t, ht, hr, hc, by rw [if_pos hc, ht]; rfl⟩
  · refine Or.inr ⟨fun h t ht => ?_, by simpa using hc, by rw [if_neg hc]⟩
    by_contra hr
    exact hc ((committing_iff hw).mpr ⟨h, by rw [ht]; rfl, by simpa using hr⟩)

/-- A survivor is an entry of the last cycle with its completions. -/
theorem mem_survivors {e : RobEntry} (he : e ∈ s.survivors) : s.flush = false ∧ ∃ x ∈ s.rob.live, e = s.finish x := by
  unfold survivors at he
  split at he
  · cases he
  · rename_i hfl
    refine ⟨by simpa using hfl, ?_⟩
    have hm : e ∈ s.rob.live.map s.finish := by
      split at he
      · exact List.mem_of_mem_tail he
      · exact he
    obtain ⟨x, hx, rfl⟩ := List.mem_map.mp hm
    exact ⟨x, hx, rfl⟩

/-- An entry that is not ready survives a cycle without a flush. -/
theorem survives (h : Inv s) (hfl : s.flush = false) {x : RobEntry} (hx : x ∈ s.rob.live) (hr : x.ready = false) :
    s.finish x ∈ s.survivors := by
  rcases survivors_cases h.rob hfl with ⟨hd, t, hl, hhr, -, hs⟩ | ⟨-, -, hs⟩
  · rw [hs]
    rw [hl] at hx
    rcases List.mem_cons.mp hx with rfl | hx
    · rw [hhr] at hr; cases hr
    · exact List.mem_map_of_mem hx
  · rw [hs]
    exact List.mem_map_of_mem hx

theorem mem_newRob {e : RobEntry} (he : e ∈ s.newRob) : ∃ d, s.issuing = some d ∧ e = s.issuedRob d := by
  unfold newRob at he
  cases h : s.issuing with
  | none => rw [h] at he; cases he
  | some d =>
    rw [h] at he
    exact ⟨d, rfl, by simpa using he⟩

/-- The entries of the next cycle. -/
theorem mem_tick_live (hrun : s.status = .running) (hw : s.rob.Wf) {e : RobEntry} (he : e ∈ s.tick.rob.live) :
    (s.flush = false ∧ ∃ x ∈ s.rob.live, e = s.finish x) ∨ ∃ d, s.issuing = some d ∧ e = s.issuedRob d := by
  rw [(tick_rob hrun hw).2] at he
  rcases List.mem_append.mp he with he | he
  · exact Or.inl (mem_survivors he)
  · exact Or.inr (mem_newRob he)

theorem entry_tick (h : Inv s) (hrun : s.status = .running) : ∀ e ∈ s.tick.rob.live, EntryOk e := by
  intro e he
  rcases mem_tick_live hrun h.rob he with ⟨-, x, hx, rfl⟩ | ⟨d, hd, rfl⟩
  · obtain ⟨hop, -, hrd, hw, -, hb, hs, hj⟩ := ReorderBuffer.finish_frame s.completion s.storeDone x
    obtain ⟨h1, h2, h3, h4, h5, h6, h7⟩ := h.entry x hx
    refine ⟨?_, ?_, ?_, ?_, ?_, ?_, fun hh => ?_⟩
    · rw [finish, hop]; exact h1
    · rw [finish, hop, hs]; exact h2
    · rw [finish, hop, hb]; exact h3
    · rw [finish, hop, hj]; exact h4
    · rw [finish, hop, hw, hrd]; exact h5
    · rw [finish, hrd]; exact h6
    · rw [finish, hop] at hh
      rw [finish_ready h hx, h7 hh]; rfl
  · have hi := issuing_some hd
    have hdec := hi.decoded
    refine ⟨hi.op_ne, hdec.store, hdec.branch, hdec.jump, ?_, hdec.rd_lt, fun hh => ?_⟩
    · show (d.decoded.writesRd && d.decoded.rd != 0) = (d.decoded.op.writes && d.decoded.rd != 0)
      rw [hdec.writes, Bool.and_assoc, Bool.and_self]
    · show (d.decoded.op == .halt) = true
      have hh : d.decoded.op = .halt := hh
      rw [hh]; rfl

/-! ## Waiting tags -/

/-- The tag an issue of kind `q` adds. -/
def issuedTag (s : Core) (q : Op → Bool) : List RobTag :=
  ((s.issuing.filter fun d => q d.decoded.op).map fun _ => s.newTag).toList

theorem pending_newRob {q : Op → Bool} (hq : q .halt = false) :
    pending (·.tag) (waits q) s.newRob = s.issuedTag q := by
  unfold newRob issuedTag
  cases s.issuing with
  | none => rfl
  | some d =>
    have hw : waits q (s.issuedRob d) = q d.decoded.op := by
      show (!(d.decoded.op == .halt) && q d.decoded.op) = q d.decoded.op
      by_cases hh : d.decoded.op = .halt
      · simp [hh, hq]
      · simp [hh]
    have ht : (s.issuedRob d).tag = s.newTag := rfl
    by_cases hd : q d.decoded.op = true
    · simp [pending, hw, hd, Option.filter, ht]
    · simp [pending, hw, hd, Option.filter]

/-- One cycle of the waiting tags: the finished ones leave, an issued one is appended. -/
theorem pending_tick (h : Inv s) (hrun : s.status = .running) (hfl : s.flush = false) {q : Op → Bool}
    (hq : q .halt = false) :
    pending (·.tag) (waits q) s.tick.rob.live =
      ((pending (·.tag) (waits q) s.rob.live).filter fun t => !s.finishes t) ++ s.issuedTag q := by
  rw [(tick_rob hrun h.rob).2, pending_append, pending_newRob hq]
  congr 1
  have hstep : ∀ l, (∀ x ∈ l, x ∈ s.rob.live) →
      pending (·.tag) (waits q) (l.map s.finish) = (pending (·.tag) (waits q) l).filter fun t => !s.finishes t := by
    intro l hl
    refine pending_map (fun x => finish_tag x) fun x hx => ?_
    simp only [waits, finish_ready h (hl x hx), finish_op]
    cases x.ready <;> cases s.finishes x.tag <;> simp
  rcases survivors_cases h.rob hfl with ⟨hd, t, hl, hr, -, hs⟩ | ⟨-, -, hs⟩
  · have hw : waits q hd = false := by simp [waits, hr]
    rw [hs, hstep t fun x hx => by rw [hl]; exact List.mem_cons_of_mem _ hx, hl, pending_tail hw]
  · rw [hs, hstep _ fun x hx => hx]

/-! ## The integer side -/

theorem computed_spec {e : RsEntry} (h : e.op.isAlu = true) :
    (computed e).valid = true ∧ (computed e).tag = e.destination ∧
      (computed e).hasControlResult = (e.op.isBranch || e.op.isJump) :=
  FunctionalUnit.executeInstruction_frame (e := ReservationStation.makeExecute e) h

theorem departing_alu (h : Inv s) {e : RsEntry} (hd : s.departing = some e) : e.op.isAlu = true := by
  obtain ⟨x, -, -, hop, -, ha⟩ := h.station_entry (departing_mem hd).1
  rw [← hop]; exact ha

/-- A result of the unit was there before, or is computed in this cycle. -/
theorem fu_tick_cases (h : Inv s) (hrun : s.status = .running) (hv : s.tick.fu.valid = true) :
    s.flush = false ∧ ((s.fu.valid = true ∧ s.tick.fu = s.fu) ∨ ∃ e, s.departing = some e ∧ s.tick.fu = computed e) := by
  by_cases hfl : s.flush = true
  · rw [tick_fu_flush hrun hfl] at hv
    cases hv
  · have hfl : s.flush = false := by simpa using hfl
    refine ⟨hfl, ?_⟩
    cases hd : s.departing with
    | none =>
      rw [tick_fu_idle hrun hfl hd] at hv ⊢
      unfold keptFu at hv ⊢
      split at hv
      · cases hv
      · rename_i hc
        rw [if_neg hc]
        exact Or.inl ⟨hv, rfl⟩
    | some e => exact Or.inr ⟨e, rfl, tick_fu_departing hrun hd (computed_spec (departing_alu h hd)).1⟩

theorem newRs_destination (s : Core) : s.newRs.map (·.destination) = s.issuedTag Op.isAlu := by
  unfold newRs issuedTag
  cases s.issuing.filter fun d => d.decoded.op.isAlu with
  | none => rfl
  | some d => rfl

theorem rs_wake_destination (cdb : CdbMsg) (l : List RsEntry) :
    (l.map (ReservationStation.wake cdb)).map (·.destination) = l.map (·.destination) :=
  map_keys (f := ReservationStation.wake cdb) (fun _ => rfl) l

theorem integerGranted_valid (h : Inv s) (hg : s.integerGranted = true) : s.fu.valid = true := by
  by_cases hfl : s.flush = true
  · rw [(cdb_flush hfl).2.2.1] at hg; cases hg
  · rcases cdb_cases (by simpa using hfl) with ⟨-, -, hi, -⟩ | ⟨-, -, -, -, ho, -⟩ | ⟨-, -, hi, -⟩
    · rw [hi] at hg; cases hg
    · rw [← h.offered_fu, ho]
    · rw [hi] at hg; cases hg

theorem loadGranted_valid (h : Inv s) (hg : s.loadGranted = true) : s.lsq.loadResult.valid = true := by
  by_cases hfl : s.flush = true
  · rw [(cdb_flush hfl).2.2.2] at hg; cases hg
  · rcases cdb_cases (by simpa using hfl) with ⟨-, -, -, hl, -⟩ | ⟨-, -, -, hl, -⟩ | ⟨-, -, -, -, ho, -⟩
    · rw [hl] at hg; cases hg
    · rw [hl] at hg; cases hg
    · rw [← h.offered_loadResult, ho]

/-- The waiting integer tags that do not finish are in the station or still in the unit. -/
theorem alu_kept (h : Inv s) :
    (s.rs.waiting.map (·.destination) ++ holds s.keptFu).Perm
      ((pending (·.tag) aluWaiting s.rob.live).filter fun t => !s.finishes t) := by
  have hp := h.alu.filter fun t => !s.finishes t
  have hn : (s.rs.waiting.map (·.destination) ++ holds s.fu).Nodup := h.alu.nodup_iff.mpr (nodup_pending h.nodup)
  refine (List.Perm.of_eq ?_).trans hp
  rw [List.filter_append]
  congr 1
  · refine (List.filter_eq_self.mpr fun t ht => ?_).symm
    have hm : t ∈ pending (·.tag) aluWaiting s.rob.live := h.alu.mem_iff.mp (List.mem_append_left _ ht)
    rw [finishes_alu h hm]
    by_contra hc
    simp only [Bool.not_eq_true', Bool.not_eq_false, Bool.and_eq_true, beq_iff_eq] at hc
    have hfu : t ∈ holds s.fu := by simp [holds, integerGranted_valid h hc.1, hc.2]
    exact (List.nodup_append.mp hn).2.2 t ht t hfu rfl
  · cases hv : s.fu.valid with
    | false => simp [holds, keptFu, hv]
    | true =>
      have hf := finishes_alu h (h.fu_pending hv)
      cases hg : s.integerGranted with
      | true => simp [holds, keptFu, hv, hg, hf]
      | false => simp [holds, keptFu, hv, hg, hf]

theorem alu_tick (h : Inv s) (hrun : s.status = .running) :
    (s.tick.rs.waiting.map (·.destination) ++ holds s.tick.fu).Perm
      (pending (·.tag) aluWaiting s.tick.rob.live) := by
  by_cases hfl : s.flush = true
  · rw [tick_rs_flush hrun hfl, tick_fu_flush hrun hfl, live_flush hrun h.rob hfl]
    exact .refl _
  · have hfl : s.flush = false := by simpa using hfl
    obtain ⟨rest, hold, hnew⟩ := tick_rs hrun hfl
    have hnew := hnew.map (·.destination)
    rw [List.map_append, newRs_destination, rs_wake_destination] at hnew
    have hold := hold.map (·.destination)
    rw [List.map_append] at hold
    have hkept := alu_kept h
    rw [aluWaiting, pending_tick h hrun hfl rfl]
    -- the entry that departs moves from the station's part of the bag to the unit's
    have hmove : (rest.map (·.destination) ++ holds s.tick.fu).Perm
        (s.rs.waiting.map (·.destination) ++ holds s.keptFu) := by
      cases hd : s.departing with
      | none =>
        rw [hd] at hold
        rw [tick_fu_idle hrun hfl hd]
        exact hold.symm.append_right _
      | some e =>
        obtain ⟨hv, ht, -⟩ := computed_spec (departing_alu h hd)
        have hc := (departing_mem hd).2.2.2.1
        have hempty : holds s.keptFu = [] := by
          simp only [FunctionalUnit.canAccept, Bool.or_eq_true, Bool.not_eq_true'] at hc
          rcases hc with hc | hc
          · simp [holds, keptFu, hc, integerGranted_valid h hc]
          · simp [holds, keptFu, hc]
        rw [hd] at hold
        rw [tick_fu_departing hrun hd hv, hempty, List.append_nil, holds, if_pos hv, ht]
        exact List.perm_append_comm.trans hold.symm
    calc s.tick.rs.waiting.map (·.destination) ++ holds s.tick.fu
      _ ~ s.issuedTag Op.isAlu ++ rest.map (·.destination) ++ holds s.tick.fu := hnew.append_right _
      _ = s.issuedTag Op.isAlu ++ (rest.map (·.destination) ++ holds s.tick.fu) := List.append_assoc ..
      _ ~ s.issuedTag Op.isAlu ++ (s.rs.waiting.map (·.destination) ++ holds s.keptFu) := hmove.append_left _
      _ ~ s.issuedTag Op.isAlu ++ (pending (·.tag) aluWaiting s.rob.live).filter fun t => !s.finishes t :=
        hkept.append_left _
      _ ~ _ := List.perm_append_comm

theorem rsOp_tick (h : Inv s) (hrun : s.status = .running) :
    ∀ e ∈ s.tick.rs.waiting, ∃ x ∈ s.tick.rob.live, x.tag = e.destination ∧ x.op = e.op := by
  intro e he
  by_cases hfl : s.flush = true
  · rw [tick_rs_flush hrun hfl] at he; cases he
  · have hfl : s.flush = false := by simpa using hfl
    obtain ⟨rest, hold, hnew⟩ := tick_rs hrun hfl
    rw [(tick_rob hrun h.rob).2]
    rcases List.mem_append.mp (hnew.mem_iff.mp he) with he | he
    · unfold newRs at he
      cases hd : s.issuing with
      | none => rw [hd] at he; cases he
      | some d =>
        have he' : e = s.issuedRs d := by
          by_cases ha : d.decoded.op.isAlu = true
          · simpa [hd, Option.filter, ha] using he
          · simp [hd, Option.filter, ha] at he
        refine ⟨s.issuedRob d, List.mem_append_right _ (by simp [newRob, hd]), ?_, ?_⟩
        · rw [he']; rfl
        · rw [he']; rfl
    · obtain ⟨y, hy, rfl⟩ := List.mem_map.mp he
      obtain ⟨x, hx, ht, hop, hr, -⟩ := h.station_entry (hold.mem_iff.mpr (List.mem_append_right _ hy))
      exact ⟨s.finish x, List.mem_append_left _ (survives h hfl hx hr), by rw [finish_tag]; exact ht,
        by rw [finish_op]; exact hop⟩

end Core

end TomasuloCpu
