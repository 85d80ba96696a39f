/-
  TomasuloCpu.Tomasulo.ExactlyOnce — the way of an instruction through the machine.

  An instruction is issued, executes and commits. In between an integer instruction leaves
  the station once and has the bus once; a load sends one request, takes one response and has
  the bus once; a store sends one request, whose response completes it; HALT does nothing
  (`executed_once`). Two facts about a live instruction carry this: it has finished, and it
  has left the station. Both stay, so each is switched on in one cycle.
-/
import TomasuloCpu.Lib.Once
import TomasuloCpu.Tomasulo.CommitLog
import TomasuloCpu.Tomasulo.FetchedWord
import TomasuloCpu.Tomasulo.Simulation

namespace TomasuloCpu

open Keyed Once

namespace Core

variable {s : Core} {tr : Nat → Core} {n id : Nat} {x : RobEntry}

/-! ## Events -/

/-- The instruction issued in cycle `id` leaves the station in cycle `n`. -/
structure Dispatches (tr : Nat → Core) (n id : Nat) : Prop where
  running : (tr n).status = .running
  live : id ∈ liveIds tr n
  departing : ∃ e, (tr n).departing = some e ∧ e.destination = tagOf tr id

/-- The instruction issued in cycle `id` has the bus in cycle `n`. -/
structure Broadcasts (tr : Nat → Core) (n id : Nat) : Prop where
  running : (tr n).status = .running
  live : id ∈ liveIds tr n
  valid : (tr n).completion.valid = true
  tag : (tr n).completion.tag = tagOf tr id

/-! ## The entry of an instruction -/

theorem entry_of_id (h : IsRun tr) (hid : id ∈ liveIds tr n) : ∃ x ∈ (tr n).rob.live, x.tag = tagOf tr id := by
  have hm : tagOf tr id ∈ (liveIds tr n).map (tagOf tr) := List.mem_map_of_mem hid
  rw [ids_tags h] at hm
  exact List.mem_map.mp hm

/-- The entry of an instruction that stays is the same one, completions apart. -/
theorem entry_next (h : IsRun tr) (hrun : (tr n).status = .running) (hx : x ∈ (tr n).rob.live)
    (ht : x.tag = tagOf tr id) (hid : id ∈ liveIds tr (n + 1)) : (tr n).finish x ∈ (tr (n + 1)).rob.live := by
  obtain ⟨y, hy, hyt⟩ := entry_of_id h hid
  rw [h.step] at hy ⊢
  rw [← mem_tick_old (h.inv n) hrun hy hx (hyt.trans ht.symm)]
  exact hy

/-- An entry that is not ready stays in a cycle without a flush. -/
theorem stays_waiting (h : IsRun tr) (hid : id ∈ liveIds tr n) (hx : x ∈ (tr n).rob.live) (ht : x.tag = tagOf tr id)
    (hr : x.ready = false) (hfl : (tr n).flush = false) : id ∈ liveIds tr (n + 1) := by
  refine stays hid (fun hc => ?_) fun hf => ?_
  · obtain ⟨y, hy, hyr⟩ := (committing_iff (h.inv n).rob).mp hc.committing
    obtain ⟨id', hid', hyt⟩ := head_id h hy
    rw [hc.head, Option.some.injEq] at hid'
    rw [inj (h.inv n).nodup hx (List.mem_of_mem_head? hy) (by rw [ht, hid', hyt]), hyr] at hr
    cases hr
  · have := hf.flush
    rw [hfl] at this
    cases this

/-! ## Finished -/

/-- The instruction is live and ready to commit. -/
def Finished (tr : Nat → Core) (id n : Nat) : Prop :=
  id ∈ liveIds tr n ∧ ∃ x ∈ (tr n).rob.live, x.tag = tagOf tr id ∧ x.ready = true

theorem finished_step (h : IsRun tr) (hf : Finished tr id n) (hid : id ∈ liveIds tr (n + 1)) :
    Finished tr id (n + 1) := by
  obtain ⟨-, x, hx, ht, hr⟩ := hf
  by_cases hrun : (tr n).status = .running
  · refine ⟨hid, _, entry_next h hrun hx ht hid, (finish_tag x).trans ht, ?_⟩
    rw [finish_ready (h.inv n) hx, hr, Bool.true_or]
  · refine ⟨hid, x, ?_, ht, hr⟩
    rw [h.step, tick_of_stopped hrun]
    exact hx

theorem staysTill_finished (h : IsRun tr) {b : Nat} (hid : id ∈ liveIds tr b) : StaysTill (Finished tr id) b :=
  fun _ hn hf => finished_step h hf (ids_of_le hid (Nat.lt_succ_of_lt (ids_lt hf.1)) hn)

theorem not_finished (h : IsRun tr) (hx : x ∈ (tr n).rob.live) (ht : x.tag = tagOf tr id) (hr : x.ready = false) :
    ¬ Finished tr id n := by
  rintro ⟨-, y, hy, hyt, hyr⟩
  rw [inj (h.inv n).nodup hx hy (ht.trans hyt.symm), hyr] at hr
  cases hr

/-- What finishes in a cycle was not ready, and a completion carries its tag. -/
theorem finished_cause (h : IsRun tr) (hs : Switches (Finished tr id) n) (hid : id ∈ liveIds tr n) :
    (tr n).status = .running ∧
      ∃ x ∈ (tr n).rob.live, x.tag = tagOf tr id ∧ x.ready = false ∧ ((tr n).finish x).ready = true := by
  obtain ⟨x, hx, ht⟩ := entry_of_id h hid
  have hr : x.ready = false := by
    by_contra hc
    exact hs.before ⟨hid, x, hx, ht, by simpa using hc⟩
  obtain ⟨hid', y, hy, hyt, hyr⟩ := hs.after
  by_cases hrun : (tr n).status = .running
  · rw [h.step] at hy
    rw [mem_tick_old (h.inv n) hrun hy hx (hyt.trans ht.symm)] at hyr
    exact ⟨hrun, x, hx, ht, hr, hyr⟩
  · rw [h.step, tick_of_stopped hrun] at hy
    exact absurd ⟨hid, y, hy, hyt, hyr⟩ hs.before

theorem Broadcasts.switches (h : IsRun tr) (hb : Broadcasts tr n id) : Switches (Finished tr id) n := by
  have hi := h.inv n
  obtain ⟨x, hx, hxt, hr⟩ := completion_waiting hi hb.valid
  have ht : x.tag = tagOf tr id := hxt.trans hb.tag
  have hfl : (tr n).flush = false := by
    by_contra hc
    have hv := hb.valid
    rw [(cdb_flush (by simpa using hc)).1] at hv
    cases hv
  have hid := stays_waiting h hb.live hx ht hr hfl
  refine ⟨not_finished h hx ht hr, hid, _, entry_next h hb.running hx ht hid, (finish_tag x).trans ht, ?_⟩
  rw [finish_ready hi hx, finishes, hb.valid, hxt]
  simp

theorem Broadcasts.unique (h : IsRun tr) {m : Nat} (hm : Broadcasts tr m id) (hn : Broadcasts tr n id) : m = n :=
  switches_unique (fun _ hf => staysTill_finished h hf.1) (hm.switches h) (hn.switches h)

/-! ## Started -/

/-- The instruction is live and has left the station: the unit holds its result, or it has
    finished. -/
def Started (tr : Nat → Core) (id n : Nat) : Prop :=
  id ∈ liveIds tr n ∧ (((tr n).fu.valid = true ∧ (tr n).fu.tag = tagOf tr id) ∨ Finished tr id n)

theorem noFlush_of_live (hrun : (tr n).status = .running) (hid : id ∈ liveIds tr (n + 1)) : (tr n).flush = false := by
  by_contra hc
  have hfl : (tr n).flush = true := by simpa using hc
  rw [liveIds_running hrun, keptIds, if_pos hfl, issuing_flush hfl] at hid
  cases hid

/-- A result in the unit stays until the bus takes it. -/
theorem fu_stays (hrun : s.status = .running) (hfl : s.flush = false) (hv : s.fu.valid = true)
    (hg : s.integerGranted = false) : s.tick.fu = s.fu := by
  have hd : s.departing = none := by
    by_contra hc
    obtain ⟨e, he⟩ := Option.ne_none_iff_exists'.mp hc
    have hacc := (departing_mem he).2.2.2.1
    rw [FunctionalUnit.canAccept, hv, hg] at hacc
    cases hacc
  rw [tick_fu_idle hrun hfl hd, keptFu, hg]
  rfl

theorem started_step (h : IsRun tr) (hs : Started tr id n) (hid : id ∈ liveIds tr (n + 1)) :
    Started tr id (n + 1) := by
  refine ⟨hid, ?_⟩
  rcases hs.2 with ⟨hv, ht⟩ | hf
  · by_cases hrun : (tr n).status = .running
    · have hi := h.inv n
      have hfl := noFlush_of_live hrun hid
      cases hg : (tr n).integerGranted with
      | true =>
        right
        obtain ⟨x, hx, hxt⟩ := entry_of_id h hs.1
        refine ⟨hid, _, entry_next h hrun hx hxt hid, (finish_tag x).trans hxt, ?_⟩
        rw [finish_ready hi hx, hxt, ← ht, finishes_alu hi (hi.fu_pending hv), hg]
        simp
      | false =>
        left
        rw [h.step, fu_stays hrun hfl hv hg]
        exact ⟨hv, ht⟩
    · left
      rw [h.step, tick_of_stopped hrun]
      exact ⟨hv, ht⟩
  · exact Or.inr (finished_step h hf hid)

theorem staysTill_started (h : IsRun tr) {b : Nat} (hid : id ∈ liveIds tr b) : StaysTill (Started tr id) b :=
  fun _ hn hs => started_step h hs (ids_of_le hid (Nat.lt_succ_of_lt (ids_lt hs.1)) hn)

/-- The station and the unit never hold one tag. -/
theorem station_not_unit (h : Inv s) {e : RsEntry} (he : e ∈ s.rs.waiting) (hv : s.fu.valid = true) :
    e.destination ≠ s.fu.tag := by
  have hnodup : (s.rs.waiting.map (·.destination) ++ holds s.fu).Nodup := h.alu.nodup_iff.mpr (nodup_pending h.nodup)
  refine (List.nodup_append.mp hnodup).2.2 e.destination (List.mem_map_of_mem he) s.fu.tag ?_
  rw [holds, if_pos hv]
  exact List.mem_cons_self

theorem Dispatches.switches (h : IsRun tr) (hd : Dispatches tr n id) : Switches (Started tr id) n := by
  have hi := h.inv n
  obtain ⟨e, he, ht⟩ := hd.departing
  obtain ⟨hwait, -, -, -, hfl⟩ := departing_mem he
  obtain ⟨x, hx, hxt, -, hr, -⟩ := hi.station_entry hwait
  have hxt : x.tag = tagOf tr id := hxt.trans ht
  have hid := stays_waiting h hd.live hx hxt hr hfl
  have hcomputed := computed_spec (departing_alu hi he)
  refine ⟨?_, hid, Or.inl ?_⟩
  · rintro ⟨-, ⟨hv, hft⟩ | hf⟩
    · exact station_not_unit hi hwait hv (ht.trans hft.symm)
    · exact not_finished h hx hxt hr hf
  · rw [h.step, tick_fu_departing hd.running he hcomputed.1]
    exact ⟨hcomputed.1, hcomputed.2.1.trans ht⟩

theorem Dispatches.unique (h : IsRun tr) {m : Nat} (hm : Dispatches tr m id) (hn : Dispatches tr n id) : m = n :=
  switches_unique (fun _ hs => staysTill_started h hs.1) (hm.switches h) (hn.switches h)

/-! ## The way of a committed instruction -/

/-- The operation of the word fetched in cycle `id`. -/
def opOf (tr : Nat → Core) (id : Nat) : Op :=
  (((tr id).memory.readWord (tr id).pc).map fun w => (Decoder.decode w).op).getD .invalid

theorem op_of_id (h : IsRun tr) (hid : id ∈ liveIds tr n) (hx : x ∈ (tr n).rob.live) (ht : x.tag = tagOf tr id) :
    x.op = opOf tr id := by
  obtain ⟨-, w, hw, hdec⟩ := entry_history h hid hx ht
  rw [opOf, hw, hdec.op]
  rfl

theorem opOf_issuing {d : DecodePacket} (hd : (tr id).issuing = some d) : opOf tr id = d.decoded.op := by
  obtain ⟨w, hw, hdec⟩ := (issuing_some hd).word
  rw [opOf, hw, hdec]
  rfl

/-- The entry of the last issue. -/
theorem fresh_entry (h : IsRun tr) (hid : id ∈ liveIds tr (id + 1)) :
    (tr id).status = .running ∧ (tr id).issuing.isSome = true ∧
      ∃ x ∈ (tr (id + 1)).rob.live, x.tag = tagOf tr id ∧ x.ready = (opOf tr id == .halt) := by
  have hrun : (tr id).status = .running := by
    by_contra hc
    rw [liveIds_stopped hc] at hid
    exact absurd (ids_lt hid) (Nat.lt_irrefl id)
  have hissue : (tr id).issuing.isSome = true := by
    by_contra hno
    rw [liveIds_running hrun, if_neg hno, List.append_nil] at hid
    exact absurd (ids_lt ((keptIds_sublist _ _).subset hid)) (Nat.lt_irrefl id)
  obtain ⟨x, hx, ht⟩ := entry_of_id h hid
  have hop := op_of_id h hid hx ht
  refine ⟨hrun, hissue, x, hx, ht, ?_⟩
  rw [h.step] at hx
  rcases mem_tick_live hrun (h.inv id).rob hx with ⟨-, y, hy, rfl⟩ | ⟨d, hd, rfl⟩
  · refine absurd ?_ (newTag_fresh (h.inv id).rob hissue)
    rw [show (tr id).newTag = y.tag from ht.symm.trans (finish_tag y)]
    exact List.mem_map_of_mem hy
  · rw [← hop]
    rfl

theorem fresh_waiting (h : IsRun tr) (hid : id ∈ liveIds tr (id + 1)) (hop : opOf tr id ≠ .halt) :
    ¬ Finished tr id (id + 1) := by
  obtain ⟨-, -, x, hx, ht, hr⟩ := fresh_entry h hid
  exact not_finished h hx ht (by rw [hr]; simpa using hop)

/-- A result in the unit is older than the last issue. -/
theorem fresh_unit (h : IsRun tr) (hid : id ∈ liveIds tr (id + 1)) (hv : (tr (id + 1)).fu.valid = true) :
    (tr (id + 1)).fu.tag ≠ tagOf tr id := by
  obtain ⟨hrun, hissue, -⟩ := fresh_entry h hid
  have hi := h.inv id
  have hfresh := newTag_fresh hi.rob hissue
  intro ht
  rw [h.step] at hv ht
  obtain ⟨-, ⟨hold, heq⟩ | ⟨e, hd, heq⟩⟩ := fu_tick_cases hi hrun hv
  · obtain ⟨y, hy, -, hyt⟩ := mem_pending.mp (hi.fu_pending hold)
    refine hfresh ?_
    rw [show (tr id).newTag = y.tag from ht.symm.trans ((congrArg FuResult.tag heq).trans hyt.symm)]
    exact List.mem_map_of_mem hy
  · obtain ⟨y, hy, hyt, -⟩ := hi.station_entry (departing_mem hd).1
    have htag : (tr id).tick.fu.tag = e.destination := by
      rw [heq]
      exact (computed_spec (departing_alu hi hd)).2.1
    refine hfresh ?_
    rw [show (tr id).newTag = y.tag from ht.symm.trans (htag.trans hyt.symm)]
    exact List.mem_map_of_mem hy

theorem fresh_unstarted (h : IsRun tr) (hid : id ∈ liveIds tr (id + 1)) (hop : opOf tr id ≠ .halt) :
    ¬ Started tr id (id + 1) := by
  rintro ⟨-, ⟨hv, ht⟩ | hf⟩
  · exact fresh_unit h hid hv ht
  · exact fresh_waiting h hid hop hf

theorem commits_finished (h : IsRun tr) (hc : Commits tr n id) : Finished tr id n := by
  obtain ⟨x, hx, hr⟩ := (committing_iff (h.inv n).rob).mp hc.committing
  obtain ⟨id', hid', ht⟩ := head_id h hx
  obtain rfl : id = id' := Option.some.inj (hc.head.symm.trans hid')
  exact ⟨hc.mem, x, List.mem_of_mem_head? hx, ht.symm, hr⟩

/-- Between issue and commit the instruction is live. -/
theorem live_between (hc : Commits tr n id) {k : Nat} (hlt : id < k) (hle : k ≤ n) : id ∈ liveIds tr k :=
  ids_of_le hc.mem hlt hle

/-- An instruction other than HALT finishes in one cycle between issue and commit. -/
theorem finishes_between (h : IsRun tr) (hc : Commits tr n id) (hop : opOf tr id ≠ .halt) :
    ∃ f, id < f ∧ f < n ∧ Switches (Finished tr id) f := by
  have hlt := ids_lt hc.mem
  have hfresh := fresh_waiting h (live_between hc (Nat.lt_succ_self id) hlt) hop
  obtain ⟨f, hle, hfn, hs⟩ := exists_switches hlt hfresh (commits_finished h hc)
  exact ⟨f, hle, hfn, hs⟩

/-! ## Who has which events -/

theorem Dispatches.op (h : IsRun tr) (hd : Dispatches tr n id) : (opOf tr id).isAlu = true := by
  obtain ⟨e, he, ht⟩ := hd.departing
  obtain ⟨x, hx, hxt, -, -, ha⟩ := (h.inv n).station_entry (departing_mem he).1
  rw [← op_of_id h hd.live hx (hxt.trans ht)]
  exact ha

theorem Sends.op (h : IsRun tr) {r : DataMemoryRequest} (hs : Sends tr n id r) : (opOf tr id).isMemory = true := by
  obtain ⟨-, -, -, -, -, e, rest, hq, -, hr⟩ := taken_some (h.inv n) hs.taken
  have he : e ∈ (tr n).lsq.queue := by rw [hq]; exact List.mem_cons_self
  obtain ⟨x, hx, hxt, -, -, hm⟩ := (h.inv n).queued_entry he
  have ht : x.tag = tagOf tr id := by
    rw [hxt, ← hs.tag, hr]
    rfl
  rw [← op_of_id h hs.live hx ht]
  exact hm

/-- The bus is for integer instructions and for loads. -/
theorem Broadcasts.source (h : IsRun tr) (hb : Broadcasts tr n id) :
    ((opOf tr id).isAlu = true ∧ (tr n).fu.valid = true ∧ (tr n).fu.tag = tagOf tr id) ∨
      ((opOf tr id).isLoad = true ∧ (tr n).lsq.loadResult.valid = true ∧ (tr n).lsq.loadResult.tag = tagOf tr id) := by
  have hi := h.inv n
  rcases completion_source hi hb.valid with ⟨hc, hv⟩ | ⟨hc, hv⟩
  · have ht : (tr n).fu.tag = tagOf tr id := by rw [← hc]; exact hb.tag
    obtain ⟨x, hx, hw, hxt⟩ := mem_pending.mp (hi.fu_pending hv)
    simp only [aluWaiting, waits, Bool.and_eq_true] at hw
    rw [← op_of_id h hb.live hx (hxt.trans ht)]
    exact Or.inl ⟨hw.2, hv, ht⟩
  · have ht : (tr n).lsq.loadResult.tag = tagOf tr id := by rw [← hc]; exact hb.tag
    obtain ⟨x, hx, hxt, hl⟩ := hi.loaded hv
    rw [← op_of_id h hb.live hx (hxt.trans ht)]
    exact Or.inr ⟨hl, hv, ht⟩

/-! ## The four kinds -/

theorem committed_alu (h : IsRun tr) (hc : Commits tr n id) (hh : opOf tr id ≠ .halt)
    (hm : (opOf tr id).isMemory = false) : (opOf tr id).isAlu = true := by
  obtain ⟨x, hx, ht⟩ := entry_of_id h hc.mem
  refine Op.isAlu_of hm hh ?_
  rw [← op_of_id h hc.mem hx ht]
  exact ((h.inv n).entry x hx).op_ne

theorem dispatched_cause (h : IsRun tr) (hs : Switches (Started tr id) n) (hid : id ∈ liveIds tr n)
    (hop : (opOf tr id).isAlu = true) : Dispatches tr n id := by
  have hi := h.inv n
  have hnot : ¬ ((tr n).fu.valid = true ∧ (tr n).fu.tag = tagOf tr id) := fun hc => hs.before ⟨hid, Or.inl hc⟩
  rcases hs.after.2 with ⟨hv, ht⟩ | hf
  · have hrun : (tr n).status = .running := by
      by_contra hc
      rw [h.step, tick_of_stopped hc] at hv ht
      exact hnot ⟨hv, ht⟩
    rw [h.step] at hv ht
    obtain ⟨-, ⟨hold, heq⟩ | ⟨e, he, heq⟩⟩ := fu_tick_cases hi hrun hv
    · rw [heq] at ht
      exact absurd ⟨hold, ht⟩ hnot
    · refine ⟨hrun, hid, e, he, ?_⟩
      rw [← ht, heq]
      exact (computed_spec (departing_alu hi he)).2.1.symm
  · -- it finishes, so the unit held its result
    obtain ⟨-, x, hx, ht, hr, hfin⟩ := finished_cause h ⟨fun hc => hs.before ⟨hid, Or.inr hc⟩, hf⟩ hid
    have ha : x.op.isAlu = true := by rw [op_of_id h hid hx ht]; exact hop
    obtain ⟨hv, hft, -⟩ := finished_by_unit hi hx ha hr hfin
    exact absurd ⟨hv, hft.symm.trans ht⟩ hnot

/-- An integer instruction leaves the station, then has the bus, then commits. -/
theorem integer_way (h : IsRun tr) (hc : Commits tr n id) (hop : (opOf tr id).isAlu = true) :
    ∃ d f, id < d ∧ d < f ∧ f < n ∧ Dispatches tr d id ∧ Broadcasts tr f id := by
  have hne : opOf tr id ≠ .halt := by
    intro hh
    rw [hh] at hop
    cases hop
  obtain ⟨f, hidf, hfn, hsf⟩ := finishes_between h hc hne
  have hlive := live_between hc hidf (Nat.le_of_lt hfn)
  obtain ⟨hrun, x, hx, ht, hr, hfin⟩ := finished_cause h hsf hlive
  have ha : x.op.isAlu = true := by rw [op_of_id h hlive hx ht]; exact hop
  obtain ⟨hv, hft, hcompletion⟩ := finished_by_unit (h.inv f) hx ha hr hfin
  have hfresh := fresh_unstarted h (live_between hc (Nat.lt_succ_self id) (ids_lt hc.mem)) hne
  obtain ⟨d, hidd, hdf, hsd⟩ := exists_switches hidf hfresh ⟨hlive, Or.inl ⟨hv, hft.symm.trans ht⟩⟩
  refine ⟨d, f, hidd, hdf, hfn, dispatched_cause h hsd ?_ hop, hrun, hlive, ?_, ?_⟩
  · exact live_between hc hidd (Nat.le_of_lt (Nat.lt_trans hdf hfn))
  · rw [hcompletion]
    exact hv
  · rw [hcompletion, ← hft, ht]

/-- A committed access got the response to the request it sent four cycles before. -/
theorem access_way (h : IsRun tr) (hc : Commits tr n id) (hop : (opOf tr id).isMemory = true) :
    ∃ k, id < k ∧ k + 4 < n ∧ (∃ r, Sends tr k id r) ∧ Receives tr (k + 4) id := by
  have hlt := ids_lt hc.mem
  obtain ⟨hrun, hissue, -⟩ := fresh_entry h (live_between hc (Nat.lt_succ_self id) hlt)
  obtain ⟨d, hd⟩ := Option.isSome_iff_exists.mp hissue
  have hissues : IssuesMemory tr id := ⟨hrun, d, hd, by rw [← opOf_issuing hd]; exact hop⟩
  rcases memory_history h hissues hlt with ⟨-, e, he, ht⟩ | ⟨j, hj, hrec⟩ | ⟨j, -, hf⟩
  · -- what is queued has not finished
    obtain ⟨x, hx, hxt, -, hr, -⟩ := (h.inv n).queued_entry he
    exact absurd (commits_finished h hc) (not_finished h hx (hxt.trans ht) hr)
  · have ⟨hlive, _, e, ha, ht⟩ := hrec
    obtain ⟨-, k, id', rfl, -, hs, hlive', ht', -⟩ := answered_history h ha
    obtain rfl : id' = id := tagOf_inj h hlive' hlive (ht'.trans ht)
    exact ⟨k, ids_lt hs.live, hj, ⟨_, hs⟩, hrec⟩
  · exact (hc.not_flushes hf).elim

/-- A load finishes when the bus takes its value from the buffer. -/
theorem finished_by_load (h : Inv s) (hx : x ∈ s.rob.live) (hl : x.op.isLoad = true) (hr : x.ready = false)
    (hf : (s.finish x).ready = true) :
    s.lsq.loadResult.valid = true ∧ x.tag = s.lsq.loadResult.tag ∧ s.completion = s.lsq.loadResult := by
  have hp : x.tag ∈ pending (·.tag) memWaiting s.rob.live :=
    mem_pending.mpr ⟨x, hx, by simp [memWaiting, waits, Op.isMemory, hr, hl], rfl⟩
  rw [finish_ready h hx, hr, Bool.false_or, finishes_mem h hp, Bool.or_eq_true, Bool.and_eq_true, Bool.and_eq_true,
    beq_iff_eq, beq_iff_eq] at hf
  rcases hf with ⟨hg, ht⟩ | ⟨hv, ht⟩
  · refine ⟨loadGranted_valid h hg, ht, ?_⟩
    by_cases hfl : s.flush = true
    · rw [(cdb_flush hfl).2.2.2] at hg
      cases hg
    · rcases cdb_cases (by simpa using hfl) with ⟨-, -, -, hno, -⟩ | ⟨-, -, -, hno, -⟩ | ⟨hc, -⟩
      · rw [hno] at hg
        cases hg
      · rw [hno] at hg
        cases hg
      · exact hc
  · obtain ⟨-, e, rest, hq, hte, hst, -⟩ := storeDone_head h hv
    have he : e ∈ s.lsq.queue := by rw [hq]; exact List.mem_cons_self
    obtain ⟨y, hy, hyt, hyop, -⟩ := h.queued_entry he
    rw [inj h.nodup hx hy (ht.trans (hte.trans hyt.symm)), hyop,
      Op.isLoad_of_isStore ((h.access e he).store_op hst)] at hl
    cases hl

/-- While an access is queued its value is not in the buffer. -/
theorem queued_unloaded (h : Inv s) {e : LsqEntry} (he : e ∈ s.lsq.queue) (hv : s.lsq.loadResult.valid = true) :
    s.lsq.loadResult.tag ≠ e.destination :=
  (List.nodup_append.mp (mem_nodup h)).2.2 _ (by simp [holds, hv]) _ (List.mem_map_of_mem he)

/-- A load waits in the result buffer for the bus. -/
theorem load_way (h : IsRun tr) (hc : Commits tr n id) (hop : (opOf tr id).isLoad = true) :
    ∃ k f, id < k ∧ k + 4 < f ∧ f < n ∧ (∃ r, Sends tr k id r) ∧ Receives tr (k + 4) id ∧ Broadcasts tr f id := by
  have hne : opOf tr id ≠ .halt := by
    intro hh
    rw [hh] at hop
    cases hop
  obtain ⟨k, hidk, hkn, hs, hrec⟩ := access_way h hc (by simp [Op.isMemory, hop])
  obtain ⟨f, hidf, hfn, hsf⟩ := finishes_between h hc hne
  have hlive := live_between hc hidf (Nat.le_of_lt hfn)
  obtain ⟨hrun, x, hx, ht, hr, hfin⟩ := finished_cause h hsf hlive
  obtain ⟨hv, hxt, hcompletion⟩ :=
    finished_by_load (h.inv f) hx (by rw [op_of_id h hlive hx ht]; exact hop) hr hfin
  refine ⟨k, f, hidk, ?_, hfn, hs, hrec, hrun, hlive, ?_, ?_⟩
  · -- in the cycle of its response the access is still queued
    obtain ⟨hlive', -, e, ha, het⟩ := hrec
    obtain ⟨-, -, ⟨rest, hq⟩, -⟩ := answered_some (h.inv (k + 4)) ha
    have he : e ∈ (tr (k + 4)).lsq.queue := by rw [hq]; exact List.mem_cons_self
    obtain ⟨y, hy, hyt, -, hyr, -⟩ := (h.inv (k + 4)).queued_entry he
    have hnot := not_finished h hy (hyt.trans het) hyr
    by_contra hle
    rcases Nat.lt_or_eq_of_le (Nat.not_lt.mp hle) with hlt | rfl
    · exact hnot ((staysTill_finished h hlive').of_le hsf.after hlt (Nat.le_refl _))
    · exact queued_unloaded (h.inv _) he hv (hxt.symm.trans (ht.trans het.symm))
  · rw [hcompletion]
    exact hv
  · rw [hcompletion, ← hxt, ht]

/-- A store commits in the cycle behind its response. -/
theorem store_way (h : IsRun tr) (hc : Commits tr n id) (hop : (opOf tr id).isStore = true) :
    ∃ k, id < k ∧ n = k + 5 ∧ (∃ r, Sends tr k id r) ∧ Receives tr (k + 4) id := by
  obtain ⟨k, hidk, -, ⟨r, hs⟩, hrec⟩ := access_way h hc (by simp [Op.isMemory, hop])
  obtain ⟨x, hx, -⟩ := (committing_iff (h.inv n).rob).mp hc.committing
  obtain ⟨id', hid', ht⟩ := head_id h hx
  obtain rfl : id = id' := Option.some.inj (hc.head.symm.trans hid')
  have hst : x.op.isStore = true := by rw [op_of_id h hc.mem (List.mem_of_mem_head? hx) ht.symm]; exact hop
  obtain ⟨m, rfl, hw⟩ := commits_written h hc hx hst
  obtain ⟨hrun, hv, hone, -⟩ := storeWrite_spec hw.written
  have hbusy := (h.inv m).port.busy hv
  obtain ⟨k', hl, hk', -⟩ := (port_history h hrun).1 hv
  obtain ⟨k'', hl', hs'⟩ := hw.sender
  have heq : k' = k := (hl.unique hl').trans (hs'.unique h hs)
  exact ⟨k, hidk, by omega, ⟨r, hs⟩, hrec⟩

end Core

namespace Cpu

open TomasuloCpu.Core

/-- Between its issue and its commit an integer instruction leaves the station and then has
    the bus; a load sends its request, gets the response four cycles later and then has the
    bus; a store commits one cycle after its response; HALT does none of this. Nobody, the
    flushed included, does anything of it twice, or what is not for its kind. -/
theorem executed_once (cpu : Cpu) (input : Istream) :
    (∀ n id, Commits (cpu.history input) n id →
      (opOf (cpu.history input) id = .halt ∧ id < n) ∨
      ((opOf (cpu.history input) id).isAlu = true ∧ ∃ d f, id < d ∧ d < f ∧ f < n ∧
        Dispatches (cpu.history input) d id ∧ Broadcasts (cpu.history input) f id) ∨
      ((opOf (cpu.history input) id).isLoad = true ∧ ∃ k f, id < k ∧ k + 4 < f ∧ f < n ∧
        (∃ r, Sends (cpu.history input) k id r) ∧ Receives (cpu.history input) (k + 4) id ∧
        Broadcasts (cpu.history input) f id) ∨
      ((opOf (cpu.history input) id).isStore = true ∧ ∃ k, id < k ∧ n = k + 5 ∧
        (∃ r, Sends (cpu.history input) k id r) ∧ Receives (cpu.history input) (k + 4) id)) ∧
    (∀ m n id, Dispatches (cpu.history input) m id → Dispatches (cpu.history input) n id → m = n) ∧
    (∀ m n id, Broadcasts (cpu.history input) m id → Broadcasts (cpu.history input) n id → m = n) ∧
    (∀ m n id r r', Sends (cpu.history input) m id r → Sends (cpu.history input) n id r' → m = n) ∧
    (∀ n id, Dispatches (cpu.history input) n id → (opOf (cpu.history input) id).isAlu = true) ∧
    (∀ n id r, Sends (cpu.history input) n id r → (opOf (cpu.history input) id).isMemory = true) ∧
    ∀ n id, Broadcasts (cpu.history input) n id →
      (opOf (cpu.history input) id).isAlu = true ∨ (opOf (cpu.history input) id).isLoad = true := by
  have h := history_isRun cpu input
  refine ⟨fun n id hc => ?_, fun m n id hm hn => hm.unique h hn, fun m n id hm hn => hm.unique h hn,
    fun m n id r r' hm hn => hm.unique h hn, fun n id hd => hd.op h, fun n id r hs => hs.op h, fun n id hb => ?_⟩
  · by_cases hh : opOf (cpu.history input) id = .halt
    · exact Or.inl ⟨hh, ids_lt hc.mem⟩
    · by_cases hl : (opOf (cpu.history input) id).isLoad = true
      · exact Or.inr (Or.inr (Or.inl ⟨hl, load_way h hc hl⟩))
      · by_cases hst : (opOf (cpu.history input) id).isStore = true
        · exact Or.inr (Or.inr (Or.inr ⟨hst, store_way h hc hst⟩))
        · have halu := committed_alu h hc hh (by simp [Op.isMemory, hl, hst])
          exact Or.inr (Or.inl ⟨halu, integer_way h hc halu⟩)
  · rcases hb.source h with ⟨ha, -⟩ | ⟨hl, -⟩
    · exact Or.inl ha
    · exact Or.inr hl

/-- The `addi` of the sample commits in cycle 3. -/
theorem addi_commits : ∃ id, Commits ((new fun _ => baseOrders).history sampleImage) 3 id ∧
    opOf ((new fun _ => baseOrders).history sampleImage) id = .addi := by
  have h := history_isRun (new fun _ => baseOrders) sampleImage
  have hcommit : ((loaded sampleImage).after 3).committed.any (·.op == .addi) = true := by decide +kernel
  obtain ⟨x, hx, hxop⟩ := (Option.any_eq_true _ _).mp hcommit
  rw [← history_eq (new fun _ => baseOrders)] at hx
  obtain ⟨hrun, hc, hhead, -⟩ := committed_some (h.inv 3) hx
  obtain ⟨id, hid, ht⟩ := head_id h hhead
  have hcommits : Commits ((new fun _ => baseOrders).history sampleImage) 3 id := ⟨hrun, hc, hid⟩
  refine ⟨id, hcommits, ?_⟩
  rw [← op_of_id h hcommits.mem (List.mem_of_mem_head? hhead) ht.symm]
  exact beq_iff_eq.mp hxop

theorem executed_once_sample :
    ∃ id d f, id < d ∧ d < f ∧ f < 3 ∧ Dispatches ((new fun _ => baseOrders).history sampleImage) d id ∧
      Broadcasts ((new fun _ => baseOrders).history sampleImage) f id := by
  obtain ⟨id, hcommits, hop⟩ := addi_commits
  have hway := (executed_once (new fun _ => baseOrders) sampleImage).1 3 id hcommits
  rw [hop] at hway
  rcases hway with ⟨hh, -⟩ | ⟨-, d, f, h1, h2, h3, hd, hb⟩ | ⟨hl, -⟩ | ⟨hst, -⟩
  · cases hh
  · exact ⟨id, d, f, h1, h2, h3, hd, hb⟩
  · cases hl
  · cases hst

end Cpu

end TomasuloCpu
