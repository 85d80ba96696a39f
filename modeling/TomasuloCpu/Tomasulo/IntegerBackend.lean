/-
  TomasuloCpu.Tomasulo.IntegerBackend — station, unit and bus together.

  The station dispatches to the unit, the unit's result competes with a loaded one for the
  bus, and the broadcast wakes the station; issues, loaded results and flushes come from
  outside. The unit is free in one of any two cycles (`free_soon`), so a ready entry, which
  15 others can overtake, is taken within 32 cycles and its result has the bus at most two
  later (`result_within`). The CPU's three modules are such a back end (`backend_run`), and
  no ready instruction of a run waits longer (`ready_result`).
-/
import TomasuloCpu.Tomasulo.Latency
import TomasuloCpu.Tomasulo.StationRuns

namespace TomasuloCpu

namespace IntegerBackend

open ReservationStation (readyEntry makeExecute kCapacity)

/-! ## A run -/

/-- What a cycle brings. -/
structure Signals where
  issueEntry : RsEntry := {}
  issueValid : Bool := false
  /-- The load unit's candidate for the bus. -/
  loadResult : FuResult := {}
  flush : Bool := false

structure State where
  rs : RsState
  fu : FuResult
  preferLoad : Bool

def bus (s : State) (x : Signals) : CdbDecision :=
  CommonDataBus.plan s.preferLoad (if x.flush then {} else { integerResult := s.fu, loadResult := x.loadResult })

def rsInputs (s : State) (x : Signals) : RsInputs :=
  { cdb := (bus s x).outputs.broadcast
    flush := x.flush
    fuAvailable := FunctionalUnit.canAccept s.fu (bus s x).outputs.integerGranted
    issueEntry := x.issueEntry
    issueValid := x.issueValid }

def cycle (s : State) (x : Signals) : State :=
  let decision := ReservationStation.plan s.rs x.flush
  { rs := (ReservationStation.step s.rs (rsInputs s x) decision).2
    fu := (FunctionalUnit.step s.fu decision.outputs.dispatch x.flush (bus s x).outputs.integerGranted).2
    preferLoad := (bus s x).nextPreferLoad }

variable (signals : Nat → Signals)

/-- The back end in front of cycle `n`. -/
def after : Nat → State
  | 0 => ⟨ReservationStation.resetState, {}, false⟩
  | n + 1 => cycle (after n) (signals n)

def busAt (n : Nat) : CdbOutputs := (bus (after signals n) (signals n)).outputs

/-- What the station sees. -/
def stationInputs (n : Nat) : RsInputs := rsInputs (after signals n) (signals n)

/-- Only what the unit can execute is issued, with a tag. -/
def Issues : Prop :=
  ∀ n, (signals n).issueValid = true →
    (signals n).issueEntry.op.isAlu = true ∧ (signals n).issueEntry.destination.valid = true

variable {signals} {n i v : Nat}

theorem station_after (n : Nat) : (ReservationStation.after (stationInputs signals) n).cur = (after signals n).rs := by
  induction n with
  | zero => rfl
  | succ n ih =>
    rw [ReservationStation.after_succ, ReservationStation.decision, ih]
    rfl

theorem station_entries (n i : Nat) :
    ReservationStation.entries (stationInputs signals) n i = (after signals n).rs.entries i := by
  rw [ReservationStation.entries, station_after]

/-- A busy entry was issued. -/
theorem entry_issued (hissue : Issues signals) (hi : i < kCapacity)
    (hb : ((after signals n).rs.entries i).busy = true) :
    ((after signals n).rs.entries i).op.isAlu = true ∧ ((after signals n).rs.entries i).destination.valid = true := by
  rw [← station_entries] at hb ⊢
  obtain ⟨k, hk⟩ := Option.isSome_iff_exists.mp ((ReservationStation.busy_iff hi).mp hb)
  obtain ⟨lhs, rhs, he, -⟩ := ReservationStation.tenant_entry hk
  obtain ⟨hvalid, -⟩ := ReservationStation.accepts_iff.mp (ReservationStation.tenant_accepted hk).2
  rw [he]
  exact hissue k hvalid

/-! ## The unit and the bus -/

theorem dispatch_valid (s : RsState) (flush : Bool) :
    (ReservationStation.plan s flush).outputs.dispatch.valid =
      (ReservationStation.plan s flush).outputs.dispatchValid := by
  unfold ReservationStation.plan
  split
  · rfl
  · simp only []
    split <;> rfl

theorem decision_eq (n : Nat) : ReservationStation.decision (stationInputs signals) n =
    ReservationStation.plan (after signals n).rs (signals n).flush := by
  rw [ReservationStation.decision, station_after]
  rfl

/-- What the station dispatches, the unit can execute. -/
theorem dispatch_issued (hissue : Issues signals)
    (hv : (ReservationStation.decision (stationInputs signals) n).outputs.dispatchValid = true) :
    (ReservationStation.decision (stationInputs signals) n).outputs.dispatch.op.isAlu = true ∧
      (ReservationStation.decision (stationInputs signals) n).outputs.dispatch.tag.valid = true := by
  rcases ReservationStation.decision_cases (stationInputs signals) n with ⟨-, hno⟩ | ⟨-, hlt, hr, -, hpacket⟩
  · rw [hno] at hv
    cases hv
  · rw [hpacket]
    rw [station_entries] at hr ⊢
    simp only [readyEntry, Bool.and_eq_true] at hr
    exact entry_issued hissue hlt hr.1.1

/-- What the unit does in a cycle without a flush. -/
theorem fu_succ (hissue : Issues signals) (hf : (signals n).flush = false) :
    (after signals (n + 1)).fu =
      if ReservationStation.dispatches (stationInputs signals) n then
        FunctionalUnit.executeInstruction (ReservationStation.decision (stationInputs signals) n).outputs.dispatch
      else if (busAt signals n).integerGranted && (after signals n).fu.valid then {} else (after signals n).fu := by
  have hcycle : (after signals (n + 1)).fu = (FunctionalUnit.step (after signals n).fu
      (ReservationStation.decision (stationInputs signals) n).outputs.dispatch (signals n).flush
      (busAt signals n).integerGranted).2 := by
    rw [decision_eq]
    rfl
  have hdispatches : ReservationStation.dispatches (stationInputs signals) n =
      ((ReservationStation.decision (stationInputs signals) n).outputs.dispatchValid &&
        FunctionalUnit.canAccept (after signals n).fu (busAt signals n).integerGranted) := rfl
  have hvalid : (ReservationStation.decision (stationInputs signals) n).outputs.dispatch.valid =
      (ReservationStation.decision (stationInputs signals) n).outputs.dispatchValid := by
    rw [decision_eq]
    exact dispatch_valid _ _
  rw [hcycle, hdispatches, FunctionalUnit.step, hf, if_neg (by decide), hvalid]
  cases hv : (ReservationStation.decision (stationInputs signals) n).outputs.dispatchValid with
  | false => rfl
  | true =>
    cases FunctionalUnit.canAccept (after signals n).fu (busAt signals n).integerGranted with
    | false => rfl
    | true =>
      have hcomputed := (FunctionalUnit.executeInstruction_frame (dispatch_issued hissue hv).1).1
      simp [hcomputed]

/-- The unit holds only results with a tag. -/
theorem fu_tag (hissue : Issues signals) (n : Nat) (hv : (after signals n).fu.valid = true) :
    (after signals n).fu.tag.valid = true := by
  induction n with
  | zero => cases hv
  | succ n ih =>
    cases hf : (signals n).flush with
    | true =>
      have hempty : (after signals (n + 1)).fu = {} := by
        show (FunctionalUnit.step _ _ (signals n).flush _).2 = {}
        rw [FunctionalUnit.step, hf]
        rfl
      rw [hempty] at hv
      cases hv
    | false =>
      rw [fu_succ hissue hf] at hv ⊢
      by_cases hd : ReservationStation.dispatches (stationInputs signals) n = true
      · rw [if_pos hd]
        rw [ReservationStation.dispatches, Bool.and_eq_true] at hd
        obtain ⟨halu, htag⟩ := dispatch_issued hissue hd.1
        rw [(FunctionalUnit.executeInstruction_frame halu).2.1]
        exact htag
      · rw [if_neg hd] at hv ⊢
        by_cases hg : ((busAt signals n).integerGranted && (after signals n).fu.valid) = true
        · rw [if_pos hg] at hv
          cases hv
        · rw [if_neg hg] at hv ⊢
          exact ih hv

/-- The unit's result has the bus, or a loaded one has it and the unit is next. -/
theorem bus_turn (hissue : Issues signals) (hf : (signals n).flush = false) (hv : (after signals n).fu.valid = true) :
    ((busAt signals n).integerGranted = true ∧ (busAt signals n).completion = (after signals n).fu ∧
        (busAt signals n).broadcast =
          { tag := (after signals n).fu.tag, value := (after signals n).fu.result, valid := true }) ∨
      ((busAt signals n).integerGranted = false ∧ (after signals n).preferLoad = true ∧
        (after signals (n + 1)).preferLoad = false) := by
  have hcandidate : CommonDataBus.validCandidate (after signals n).fu = true := by
    rw [CommonDataBus.validCandidate, hv, fu_tag hissue n hv]
    rfl
  have hnext : (after signals (n + 1)).preferLoad = (bus (after signals n) (signals n)).nextPreferLoad := rfl
  rw [hnext, busAt, bus, hf, if_neg (by decide), CommonDataBus.plan]
  simp only [hcandidate, Bool.not_true, Bool.false_and, Bool.true_and, Bool.false_eq_true, if_false, if_true]
  cases CommonDataBus.validCandidate (signals n).loadResult with
  | false => exact Or.inl ⟨rfl, rfl, rfl⟩
  | true =>
    cases (after signals n).preferLoad with
    | false => exact Or.inl ⟨rfl, rfl, rfl⟩
    | true => exact Or.inr ⟨rfl, rfl, rfl⟩

theorem available_eq : (stationInputs signals n).fuAvailable =
    ((busAt signals n).integerGranted || !(after signals n).fu.valid) := rfl

/-- A result that loses the bus stays, and has the next turn. -/
theorem fu_waits (hissue : Issues signals) (hf : (signals n).flush = false) (hv : (after signals n).fu.valid = true)
    (hg : (busAt signals n).integerGranted = false) :
    (after signals (n + 1)).fu = (after signals n).fu ∧ (after signals (n + 1)).preferLoad = false := by
  have hbusy : ReservationStation.dispatches (stationInputs signals) n = false := by
    rw [ReservationStation.dispatches, available_eq, hg, hv]
    exact Bool.and_false _
  refine ⟨?_, ?_⟩
  · rw [fu_succ hissue hf, hbusy, hg]
    rfl
  · rcases bus_turn hissue hf hv with ⟨hgrant, -⟩ | ⟨-, -, hnext⟩
    · rw [hg] at hgrant
      cases hgrant
    · exact hnext

/-- The bus carries this result. -/
def Carries (signals : Nat → Signals) (n : Nat) (r : FuResult) : Prop :=
  (busAt signals n).completion = r ∧ (busAt signals n).broadcast = { tag := r.tag, value := r.result, valid := true }

/-- A result has the bus in its cycle or in the next one. -/
theorem served_soon (hissue : Issues signals) (hf : (signals n).flush = false) (hf' : (signals (n + 1)).flush = false)
    (hv : (after signals n).fu.valid = true) :
    Carries signals n (after signals n).fu ∨ Carries signals (n + 1) (after signals n).fu := by
  rcases bus_turn hissue hf hv with ⟨-, hbus⟩ | ⟨hg, -⟩
  · exact Or.inl hbus
  · obtain ⟨hkept, hpref⟩ := fu_waits hissue hf hv hg
    rcases bus_turn hissue hf' (by rw [hkept]; exact hv) with ⟨-, hbus⟩ | ⟨-, hpref', -⟩
    · rw [hkept] at hbus
      exact Or.inr hbus
    · rw [hpref] at hpref'
      cases hpref'

/-- The unit is free in one of any two cycles. -/
theorem free_soon (hissue : Issues signals) (hf : (signals n).flush = false) (hf' : (signals (n + 1)).flush = false) :
    (stationInputs signals n).fuAvailable = true ∨ (stationInputs signals (n + 1)).fuAvailable = true := by
  rw [available_eq, available_eq]
  cases hv : (after signals n).fu.valid with
  | false => exact Or.inl (Bool.or_true _)
  | true =>
    cases hg : (busAt signals n).integerGranted with
    | true => exact Or.inl rfl
    | false =>
      obtain ⟨hkept, hpref⟩ := fu_waits hissue hf hv hg
      rcases bus_turn hissue hf' (by rw [hkept]; exact hv) with ⟨hgrant, -⟩ | ⟨-, hpref', -⟩
      · rw [hgrant]
        exact Or.inr rfl
      · rw [hpref] at hpref'
        cases hpref'

/-! ## A ready entry -/

/-- While an entry is ready, the station offers one. -/
theorem offers_of_ready (hf : (signals n).flush = false) (hi : i < kCapacity)
    (hr : readyEntry (ReservationStation.entries (stationInputs signals) n i) = true) :
    (ReservationStation.decision (stationInputs signals) n).outputs.dispatchValid = true := by
  obtain ⟨d, hd, hslot⟩ :=
    RoundRobin.exists_distance (c := (ReservationStation.after (stationInputs signals) n).cur.dispatchCursor) hi
  rw [← hslot] at hr
  obtain ⟨c, -, hsel⟩ := ReservationStation.selectReadyIndex_distance hd hr
  have hflush : (stationInputs signals n).flush = false := hf
  rcases ReservationStation.decision_cases (stationInputs signals) n with ⟨hinvalid, -⟩ | ⟨-, -, -, hv, -⟩
  · rw [ReservationStation.decision, hflush, ReservationStation.plan_selectedIndex, hsel] at hinvalid
    have hlt : ((ReservationStation.after (stationInputs signals) n).cur.dispatchCursor + c) % 16 < 16 :=
      Nat.mod_lt _ (by decide)
    exact absurd hinvalid (Nat.ne_of_lt hlt)
  · exact hv

/-- While an entry waits, every two cycles dispatch another one. -/
theorem dispatchCount_ge (hissue : Issues signals) (hi : i < kCapacity)
    (hr : readyEntry (ReservationStation.entries (stationInputs signals) n i) = true) (k : Nat)
    (hf : ∀ t, n ≤ t → t < n + 2 * k → (signals t).flush = false)
    (hd : ∀ t, n ≤ t → t < n + 2 * k → ReservationStation.departs (stationInputs signals) t i = false) :
    k ≤ ReservationStation.dispatchCount (stationInputs signals) n (2 * k) := by
  induction k with
  | zero => exact Nat.zero_le _
  | succ k ih =>
    have hbefore := ih (fun t hn ht => hf t hn (by omega)) fun t hn ht => hd t hn (by omega)
    have hoffers : ∀ w, w < 2 * (k + 1) →
        (ReservationStation.decision (stationInputs signals) (n + w)).outputs.dispatchValid = true := by
      intro w hw
      obtain ⟨-, -, hkept, -, -⟩ := ReservationStation.waits_closer hi hr (w := w)
        (fun t hn ht => hf t hn (by omega)) fun t hn ht => hd t hn (by omega)
      exact offers_of_ready (hf (n + w) (by omega) (by omega)) hi (by rw [hkept]; exact hr)
    have hfree := free_soon hissue (hf (n + 2 * k) (by omega) (by omega)) (hf (n + 2 * k + 1) (by omega) (by omega))
    rw [show 2 * (k + 1) = 2 * k + 1 + 1 by omega, ReservationStation.dispatchCount_succ,
      ReservationStation.dispatchCount_succ]
    unfold ReservationStation.dispatches
    rw [hoffers (2 * k) (by omega), show n + (2 * k + 1) = n + 2 * k + 1 by omega]
    have hsecond := hoffers (2 * k + 1) (by omega)
    rw [show n + (2 * k + 1) = n + 2 * k + 1 by omega] at hsecond
    rw [hsecond]
    rcases hfree with hfree | hfree
    · rw [hfree]
      simp
      omega
    · rw [hfree]
      simp
      omega

/-- A ready entry is taken within 32 cycles. -/
theorem departs_within (hissue : Issues signals) (hi : i < kCapacity)
    (hr : readyEntry (ReservationStation.entries (stationInputs signals) n i) = true)
    (hf : ∀ t, n ≤ t → t < n + 32 → (signals t).flush = false) :
    ∃ v < 32, ReservationStation.departs (stationInputs signals) (n + v) i = true ∧
      ReservationStation.entries (stationInputs signals) (n + v) i =
        ReservationStation.entries (stationInputs signals) n i := by
  have hex : ∃ v, v < 32 ∧ ReservationStation.departs (stationInputs signals) (n + v) i = true := by
    by_contra hno
    have hd : ∀ t, n ≤ t → t < n + 2 * 16 → ReservationStation.departs (stationInputs signals) t i = false := by
      intro t hn ht
      by_contra hc
      exact hno ⟨t - n, by omega, by rw [show n + (t - n) = t by omega]; simpa using hc⟩
    have hmany := dispatchCount_ge hissue hi hr 16 hf hd
    obtain ⟨d, -, -, -, hfew⟩ := ReservationStation.waits_closer hi hr (w := 2 * 16) hf hd
    rw [ReservationStation.kCapacity] at hfew
    omega
  classical
  obtain ⟨hlt, hdep⟩ := Nat.find_spec hex
  refine ⟨Nat.find hex, hlt, hdep, ?_⟩
  have hno : ∀ t, n ≤ t → t < n + Nat.find hex → ReservationStation.departs (stationInputs signals) t i = false := by
    intro t hn ht
    by_contra hc
    refine Nat.find_min hex (m := t - n) (by omega) ⟨by omega, ?_⟩
    rw [show n + (t - n) = t by omega]
    simpa using hc
  obtain ⟨-, -, hkept, -, -⟩ := ReservationStation.waits_closer hi hr (w := Nat.find hex)
    (fun t hn ht => hf t hn (by omega)) hno
  exact hkept

/-- A ready entry's result has the bus within 33 cycles, or a flush comes before. -/
theorem result_within (hissue : Issues signals) (hi : i < kCapacity)
    (hr : readyEntry ((after signals n).rs.entries i) = true) :
    (∃ t, n ≤ t ∧ t ≤ n + 33 ∧ (signals t).flush = true) ∨
      ∃ t, n < t ∧ t ≤ n + 33 ∧
        Carries signals t (FunctionalUnit.executeInstruction (makeExecute ((after signals n).rs.entries i))) := by
  by_cases hflush : ∃ t, n ≤ t ∧ t ≤ n + 33 ∧ (signals t).flush = true
  · exact Or.inl hflush
  · have hf : ∀ t, n ≤ t → t ≤ n + 33 → (signals t).flush = false := by
      intro t hn ht
      by_contra hc
      exact hflush ⟨t, hn, ht, by simpa using hc⟩
    right
    rw [← station_entries] at hr ⊢
    obtain ⟨v, hv, hdep, hkept⟩ := departs_within hissue hi hr fun t hn ht => hf t hn (by omega)
    rw [ReservationStation.departs, Bool.and_eq_true, decide_eq_true_eq] at hdep
    obtain ⟨hsel, hfree⟩ := hdep
    have hne : i ≠ ReservationStation.kInvalidIndex := Nat.ne_of_lt hi
    rcases ReservationStation.decision_cases (stationInputs signals) (n + v) with
      ⟨hinvalid, -⟩ | ⟨-, -, -, hvalid, hpacket⟩
    · rw [hsel] at hinvalid
      exact absurd hinvalid hne
    · rw [hsel, hkept] at hpacket
      have halu := (dispatch_issued hissue hvalid).1
      have hfu : (after signals (n + v + 1)).fu = FunctionalUnit.executeInstruction
          (makeExecute (ReservationStation.entries (stationInputs signals) n i)) := by
        rw [fu_succ hissue (hf (n + v) (by omega) (by omega)), ReservationStation.dispatches, hvalid, hfree, hpacket]
        rfl
      rw [hpacket] at halu
      have hready := (FunctionalUnit.executeInstruction_frame halu).1
      rcases served_soon hissue (hf (n + v + 1) (by omega) (by omega)) (hf (n + v + 1 + 1) (by omega) (by omega))
        (by rw [hfu]; exact hready) with hbus | hbus
      · rw [hfu] at hbus
        exact ⟨n + v + 1, by omega, by omega, hbus⟩
      · rw [hfu] at hbus
        exact ⟨n + v + 1 + 1, by omega, by omega, hbus⟩

end IntegerBackend

/-! ## The back end of the CPU -/

namespace Core

open Keyed IntegerBackend
open ReservationStation (readyEntry makeExecute kCapacity)

variable {tr : Nat → Core} {n i : Nat}

/-- What the cycles of a run bring to its back end. -/
def backendSignals (tr : Nat → Core) (n : Nat) : Signals :=
  if (tr n).status = .running then
    { issueEntry := (tr n).outs.issue.rsEntry
      issueValid := (tr n).outs.issue.writeRs && issueEffective (tr n).outs
      loadResult := (tr n).lsq.loadResult
      flush := (tr n).flush }
  else {}

theorem backend_run (h : IsRun tr) (hrun : ∀ m < n, (tr m).status = .running) :
    IntegerBackend.after (backendSignals tr) n = ⟨(tr n).rs, (tr n).fu, (tr n).preferLoad⟩ := by
  induction n with
  | zero =>
    obtain ⟨counters, input, h0⟩ := h.start
    rw [h0]
    rfl
  | succ n ih =>
    have hlast : (tr n).status = .running := hrun n (Nat.lt_succ_self n)
    rw [IntegerBackend.after, ih fun m hm => hrun m (Nat.lt_succ_of_lt hm), backendSignals, if_pos hlast, h.step,
      tick_eq hlast]
    rfl

theorem backend_issues (h : IsRun tr) : IntegerBackend.Issues (backendSignals tr) := by
  intro n hv
  by_cases hrun : (tr n).status = .running
  · rw [backendSignals, if_pos hrun] at hv ⊢
    have hwrite := (Bool.and_eq_true _ _ ▸ hv).1
    cases hd : (tr n).issuing with
    | none =>
      rw [(outs_issue_quiet hd).2.1] at hwrite
      cases hwrite
    | some d =>
      have hissue := issuing_some hd
      have halu : d.decoded.op.isAlu = true := by
        rw [hissue.issue] at hwrite
        exact hwrite
      have hentry : (tr n).outs.issue.rsEntry = (tr n).issuedRs d := by
        rw [hissue.issue]
        exact if_pos halu
      have htag := (newTag_eq (h.inv n).rob (by rw [hd]; rfl)).1
      show (tr n).outs.issue.rsEntry.op.isAlu = true ∧ (tr n).outs.issue.rsEntry.destination.valid = true
      rw [hentry]
      refine ⟨halu, ?_⟩
      show (tr n).newTag.valid = true
      rw [htag]
  · rw [backendSignals, if_neg hrun] at hv
    cases hv

/-- The result of a ready entry is broadcast within 33 cycles, unless a flush comes or the
    machine stops. -/
theorem ready_broadcast (h : IsRun tr) (hi : i < kCapacity) (hr : readyEntry ((tr n).rs.entries i) = true) :
    ∃ t, n ≤ t ∧ t ≤ n + 33 ∧ ((tr t).status ≠ .running ∨ (tr t).flush = true ∨
      n < t ∧ (tr t).completion = FunctionalUnit.executeInstruction (makeExecute ((tr n).rs.entries i)) ∧
        (tr t).broadcast.valid = true ∧ (tr t).broadcast.tag = ((tr n).rs.entries i).destination) := by
  by_cases hrun : ∀ t ≤ n + 33, (tr t).status = .running
  · have hstate : ∀ t ≤ n + 33, IntegerBackend.after (backendSignals tr) t =
        ⟨(tr t).rs, (tr t).fu, (tr t).preferLoad⟩ :=
      fun t ht => backend_run h fun m hm => hrun m (by omega)
    have hsignals : ∀ t ≤ n + 33, backendSignals tr t =
        { issueEntry := (tr t).outs.issue.rsEntry
          issueValid := (tr t).outs.issue.writeRs && issueEffective (tr t).outs
          loadResult := (tr t).lsq.loadResult
          flush := (tr t).flush } := fun t ht => if_pos (hrun t ht)
    have hrs : (IntegerBackend.after (backendSignals tr) n).rs = (tr n).rs := by rw [hstate n (by omega)]
    rw [← hrs] at hr ⊢
    have halu := entry_issued (backend_issues h) hi (by
      simp only [readyEntry, Bool.and_eq_true] at hr
      exact hr.1.1)
    rcases result_within (backend_issues h) hi hr with ⟨t, hn, ht, hf⟩ | ⟨t, hn, ht, hc, hb⟩
    · rw [hsignals t ht] at hf
      exact ⟨t, hn, ht, Or.inr (Or.inl hf)⟩
    · have hbus : busAt (backendSignals tr) t = (tr t).observe.cdb.outputs := by
        rw [busAt, hstate t ht, hsignals t ht]
        rfl
      rw [hbus] at hc hb
      refine ⟨t, by omega, ht, Or.inr (Or.inr ⟨hn, hc, ?_, ?_⟩)⟩
      · show (tr t).observe.cdb.outputs.broadcast.valid = true
        rw [hb]
      · show (tr t).observe.cdb.outputs.broadcast.tag = _
        rw [hb]
        exact (FunctionalUnit.executeInstruction_frame halu.1).2.1
  · rw [not_forall] at hrun
    obtain ⟨t, ht⟩ := hrun
    rw [Classical.not_imp] at ht
    by_cases hn : n ≤ t
    · exact ⟨t, hn, ht.1, Or.inl ht.2⟩
    · refine ⟨n, Nat.le_refl n, by omega, Or.inl ?_⟩
      rw [h.frozen ht.2 (by omega)]
      exact ht.2

end Core

namespace Cpu

open TomasuloCpu.Core
open ReservationStation (readyEntry makeExecute kCapacity)

/-- A station entry whose operands are there has its result on the bus within 33 cycles,
    whatever else is issued, loaded or dispatched meanwhile, unless a flush comes or the
    machine stops first. -/
theorem ready_result (cpu : Cpu) (input : Istream) (n i : Nat) (hi : i < kCapacity)
    (hr : readyEntry ((cpu.history input n).rs.entries i) = true) :
    ∃ t, n ≤ t ∧ t ≤ n + 33 ∧ ((cpu.history input t).status ≠ .running ∨ (cpu.history input t).flush = true ∨
      n < t ∧ (cpu.history input t).completion =
          FunctionalUnit.executeInstruction (makeExecute ((cpu.history input n).rs.entries i)) ∧
        (cpu.history input t).broadcast.valid = true ∧
        (cpu.history input t).broadcast.tag = ((cpu.history input n).rs.entries i).destination) :=
  ready_broadcast (history_isRun cpu input) hi hr

theorem ready_result_sample : ∃ t, 1 ≤ t ∧ t ≤ 34 ∧
    (((new fun _ => baseOrders).history sampleImage t).status ≠ .running ∨
      ((new fun _ => baseOrders).history sampleImage t).flush = true ∨
      1 < t ∧ ((new fun _ => baseOrders).history sampleImage t).completion =
          FunctionalUnit.executeInstruction
            (makeExecute (((new fun _ => baseOrders).history sampleImage 1).rs.entries 0)) ∧
        ((new fun _ => baseOrders).history sampleImage t).broadcast.valid = true ∧
        ((new fun _ => baseOrders).history sampleImage t).broadcast.tag =
          (((new fun _ => baseOrders).history sampleImage 1).rs.entries 0).destination) := by
  have hready : readyEntry (((loaded sampleImage).after 1).rs.entries 0) = true := by decide +kernel
  rw [← history_eq (new fun _ => baseOrders)] at hready
  exact ready_result (new fun _ => baseOrders) sampleImage 1 0 (by decide) hready

end Cpu

end TomasuloCpu
