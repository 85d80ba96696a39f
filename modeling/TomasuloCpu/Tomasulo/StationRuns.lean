/-
  TomasuloCpu.Tomasulo.StationRuns — the reservation station alone, over any inputs.

  A cycle plans with the cycle's flush bit, applies and latches. An accepted entry is
  known by its cycle: `tenant` says which one holds a slot. Slots are filled and freed as
  `state_entries` says, so a tenant's entry is the issued one with each operand as its
  broadcasts have left it (`tenant_entry`), and what is dispatched is such an entry
  (`dispatch_packet`).

  A ready entry at distance `d` behind the dispatch cursor comes closer with every
  dispatch the unit accepts, so it sees at most `d` others go first (`waits_closer`).
-/
import TomasuloCpu.Lib.Tenants
import TomasuloCpu.Tomasulo.ReservationStationProofs

namespace TomasuloCpu

namespace ReservationStation

/-! ## A run -/

/-- One cycle: `plan`, `apply` with the same flush, `latch`. -/
def cycle (m : ReservationStation) (inputs : RsInputs) : Bool × ReservationStation :=
  let (accepted, applied) := apply m inputs (plan m.cur inputs.flush)
  (accepted, applied.latch)

/-- The station in front of cycle `n`. -/
def after (inputs : Nat → RsInputs) : Nat → ReservationStation
  | 0 => .reset resetState
  | n + 1 => (cycle (after inputs n) (inputs n)).2

variable (inputs : Nat → RsInputs)

def entries (n i : Nat) : RsEntry := (after inputs n).cur.entries i

/-- The issue of cycle `n` is accepted. -/
def accepts (n : Nat) : Bool := (cycle (after inputs n) (inputs n)).1

def decision (n : Nat) : RsDecision := plan (after inputs n).cur (inputs n).flush

/-- The entry in slot `i` is dispatched in cycle `n`, and the unit takes it. -/
def departs (n i : Nat) : Bool := decide ((decision inputs n).selectedIndex = i) && (inputs n).fuAvailable

/-- Some entry is dispatched in cycle `n`, and the unit takes it. -/
def dispatches (n : Nat) : Bool := (decision inputs n).outputs.dispatchValid && (inputs n).fuAvailable

/-- The slot an accepted entry gets. -/
def fill (n : Nat) : Option Nat :=
  if accepts inputs n then some (findFreeIndex (dispatched (after inputs n).cur (inputs n) (decision inputs n)).entries)
  else none

def release (n i : Nat) : Bool := (inputs n).flush || departs inputs n i

/-- The entry that holds slot `i` in front of cycle `n`, by the cycle that accepted it. -/
def tenant (n i : Nat) : Option Nat := Tenants.tenant (release inputs) (fill inputs) n i

variable {inputs} {n m i k : Nat}

theorem after_succ : (after inputs (n + 1)).cur = (step (after inputs n).cur (inputs n) (decision inputs n)).2 := rfl

theorem accepts_eq : accepts inputs n = (step (after inputs n).cur (inputs n) (decision inputs n)).1 := rfl

/-- No slot is chosen in a cycle with a flush, and no slot is the invalid one. -/
theorem decision_cases (inputs : Nat → RsInputs) (n : Nat) :
    (decision inputs n).selectedIndex = kInvalidIndex ∧ (decision inputs n).outputs.dispatchValid = false ∨
      (inputs n).flush = false ∧ (decision inputs n).selectedIndex < kCapacity ∧
        readyEntry (entries inputs n (decision inputs n).selectedIndex) = true ∧
        (decision inputs n).outputs.dispatchValid = true ∧
        (decision inputs n).outputs.dispatch = makeExecute (entries inputs n (decision inputs n).selectedIndex) := by
  unfold decision plan
  by_cases hf : (inputs n).flush = true
  · rw [if_pos hf]
    exact Or.inl ⟨rfl, rfl⟩
  · rw [if_neg hf]
    simp only []
    by_cases hs : selectReadyIndex (after inputs n).cur = kInvalidIndex
    · rw [if_neg (not_not.mpr hs)]
      exact Or.inl ⟨rfl, rfl⟩
    · rw [if_pos hs]
      obtain ⟨hlt, hr⟩ := selectReadyIndex_ready hs
      exact Or.inr ⟨by simpa using hf, hlt, hr, rfl, rfl⟩

theorem dispatched_entries (hi : i < kCapacity) :
    (dispatched (after inputs n).cur (inputs n) (decision inputs n)).entries i =
      if departs inputs n i then {} else wakeEntry (entries inputs n i) (inputs n).cdb := by
  have hne : i ≠ kInvalidIndex := Nat.ne_of_lt hi
  unfold dispatched departs entries
  simp only [Bool.and_eq_true, decide_eq_true_eq]
  generalize decision inputs n = d
  cases (inputs n).fuAvailable with
  | false => simp
  | true =>
    by_cases hs : d.selectedIndex = i
    · simp [hs, hne]
    · simp only [hs, and_true, if_false]
      split
      · exact Function.update_of_ne (fun hc => hs hc.symm) {} fun j => wakeEntry ((after inputs n).cur.entries j) _
      · rfl

/-- The issue is accepted when no flush comes and a slot is free once the dispatched entry
    is gone. -/
theorem accepts_iff : accepts inputs n = true ↔
    (inputs n).issueValid = true ∧ (inputs n).flush = false ∧
      ∃ i < kCapacity, (entries inputs n i).busy = false ∨ departs inputs n i = true := by
  have hfree : findFreeIndex (dispatched (after inputs n).cur (inputs n) (decision inputs n)).entries ≠ kInvalidIndex ↔
      ∃ i < kCapacity, (entries inputs n i).busy = false ∨ departs inputs n i = true := by
    rw [findFreeIndex_ne]
    refine exists_congr fun i => and_congr_right fun hi => ?_
    rw [dispatched_entries hi]
    cases departs inputs n i with
    | true => simp
    | false => simp [wakeEntry_busy]
  rw [accepts_eq, step]
  by_cases hf : (inputs n).flush = true
  · simp [hf]
  · rw [if_neg hf]
    simp only []
    by_cases hv : (inputs n).issueValid = true
    · rw [if_pos hv]
      by_cases hne : findFreeIndex (dispatched (after inputs n).cur (inputs n) (decision inputs n)).entries = kInvalidIndex
      · rw [if_neg (not_not.mpr hne)]
        simp only [Bool.false_eq_true, false_iff]
        rintro ⟨-, -, hex⟩
        exact (hfree.mpr hex) hne
      · rw [if_pos hne]
        simp only [true_iff]
        exact ⟨hv, by simpa using hf, hfree.mp hne⟩
    · simp [hv]

theorem fill_spec (h : fill inputs n = some i) :
    i < kCapacity ∧ accepts inputs n = true ∧
      (departs inputs n i = true ∨ (entries inputs n i).busy = false) := by
  unfold fill at h
  by_cases ha : accepts inputs n = true
  · rw [if_pos ha] at h
    have hex : ∃ i < 16, ((dispatched (after inputs n).cur (inputs n) (decision inputs n)).entries i).busy = false := by
      obtain ⟨-, -, j, hj, hb⟩ := accepts_iff.mp ha
      refine ⟨j, hj, ?_⟩
      rw [dispatched_entries hj]
      split
      · rfl
      · rename_i hd
        rw [wakeEntry_busy]
        exact hb.resolve_right hd
    obtain ⟨hlt, hb⟩ := findFreeIndex_free hex
    rw [Option.some.inj h] at hlt hb
    refine ⟨hlt, ha, ?_⟩
    rw [dispatched_entries hlt] at hb
    split at hb
    · exact Or.inl ‹_›
    · rw [wakeEntry_busy] at hb
      exact Or.inr hb
  · rw [if_neg ha] at h
    cases h

theorem accepts_fill : accepts inputs n = true ↔ ∃ i, fill inputs n = some i := by
  unfold fill
  cases accepts inputs n <;> simp

/-- A slot after a cycle: the accepted entry, nothing, or the old entry woken. -/
theorem state_entries (hi : i < kCapacity) :
    entries inputs (n + 1) i =
      if fill inputs n = some i then { (inputs n).issueEntry with busy := true }
      else if release inputs n i then {}
      else wakeEntry (entries inputs n i) (inputs n).cdb := by
  have hnew : entries inputs (n + 1) i =
      ((step (after inputs n).cur (inputs n) (decision inputs n)).2).entries i := rfl
  have hfill : fill inputs n = if accepts inputs n then
      some (findFreeIndex (dispatched (after inputs n).cur (inputs n) (decision inputs n)).entries) else none := rfl
  rw [hnew, hfill, accepts_eq, release, step]
  by_cases hf : (inputs n).flush = true
  · simp [hf]
  · have hrel : ((inputs n).flush || departs inputs n i) = departs inputs n i := by simp [hf]
    rw [if_neg hf, hrel]
    simp only []
    by_cases hv : (inputs n).issueValid = true
    · rw [if_pos hv]
      split
      · simp only [if_true, Option.some.injEq]
        by_cases hs : findFreeIndex (dispatched (after inputs n).cur (inputs n) (decision inputs n)).entries = i
        · rw [if_pos hs, hs]
          exact Function.update_self ..
        · rw [if_neg hs, ← dispatched_entries hi]
          exact Function.update_of_ne (fun hc => hs hc.symm) _ _
      · simp only [Bool.false_eq_true, if_false, reduceCtorEq]
        exact dispatched_entries hi
    · rw [if_neg hv]
      simp only [Bool.false_eq_true, if_false, reduceCtorEq]
      exact dispatched_entries hi

/-! ## Tenants -/

/-- A slot is busy while it has a tenant. -/
theorem busy_iff (hi : i < kCapacity) : (entries inputs n i).busy = true ↔ (tenant inputs n i).isSome = true := by
  induction n with
  | zero => simp [entries, after, resetState, tenant, Tenants.tenant]
  | succ n ih =>
    rw [state_entries hi, tenant, Tenants.tenant]
    split
    · simp
    · split
      · simp
      · rw [wakeEntry_busy]
        exact ih

theorem tenant_lt (h : tenant inputs n i = some k) : i < kCapacity :=
  (fill_spec (Tenants.tenant_eq_some.mp h).2.1).1

theorem tenant_accepted (h : tenant inputs n i = some k) : k < n ∧ accepts inputs k = true := by
  obtain ⟨hlt, hfill, -⟩ := Tenants.tenant_eq_some.mp h
  exact ⟨hlt, (fill_spec hfill).2.1⟩

/-- A held slot is not given away before its entry is taken. -/
theorem fill_ne (h : tenant inputs n i = some k) (hd : departs inputs n i = false) : fill inputs n ≠ some i := by
  intro hc
  obtain ⟨hlt, -, hfree⟩ := fill_spec hc
  have hb : (entries inputs n i).busy = true := (busy_iff hlt).mpr (by rw [h]; rfl)
  rcases hfree with hdep | hb'
  · rw [hd] at hdep
    cases hdep
  · rw [hb] at hb'
    cases hb'

/-- An entry stays in its slot until it is taken or a flush comes. -/
theorem tenant_stays (h : tenant inputs n i = some k) :
    tenant inputs (n + 1) i = some k ↔ (inputs n).flush = false ∧ departs inputs n i = false := by
  have hstay := Tenants.tenant_stays h
  rw [release, Bool.or_eq_false_iff] at hstay
  refine hstay.trans ⟨fun hs => hs.2, fun hs => ⟨fill_ne h hs.2, hs⟩⟩

/-! ## Operands -/

/-- A broadcast that an operand waiting for `tag` takes. -/
def Carries (cdb : CdbMsg) (tag : RobTag) : Prop := cdb.valid = true ∧ tag.valid = true ∧ cdb.tag = tag

/-- How an operand issued as `x` in cycle `k` may stand in front of cycle `n`: as it was
    issued, or as the first broadcast with its tag in a later cycle has left it. -/
inductive Heard (cdb : Nat → CdbMsg) (k n : Nat) (x : Operand) : Operand → Prop where
  | given (h : x.ready = true) : Heard cdb k n x x
  | waiting (h : x.ready = false) (hno : ∀ t, k < t → t < n → ¬ Carries (cdb t) x.tag) : Heard cdb k n x x
  | woken (h : x.ready = false) {t : Nat} (hk : k < t) (hn : t < n) (hc : Carries (cdb t) x.tag)
      (hfirst : ∀ u, k < u → u < t → ¬ Carries (cdb u) x.tag) :
      Heard cdb k n x { value := (cdb t).value, tag := {}, ready := true }

variable {cdb : Nat → CdbMsg} {x y : Operand}

theorem wakeOperand_carries (h : x.ready = false) {m : CdbMsg} (hc : Carries m x.tag) :
    wakeOperand x m = { value := m.value, tag := {}, ready := true } := by
  obtain ⟨hv, ht, he⟩ := hc
  simp [wakeOperand, h, ht, hv, he]

theorem wakeOperand_other {m : CdbMsg} (hc : ¬ Carries m x.tag) : wakeOperand x m = x := by
  unfold wakeOperand
  split
  · rfl
  · rename_i hcond
    simp only [Bool.or_eq_true, Bool.not_eq_true', not_or, Bool.not_eq_false] at hcond
    split
    · rename_i he
      exact absurd ⟨hcond.1.2, hcond.1.1.2, he.symm⟩ hc
    · rfl

theorem Heard.start (cdb : Nat → CdbMsg) (k : Nat) (x : Operand) : Heard cdb k (k + 1) x x := by
  cases h : x.ready with
  | true => exact .given h
  | false => exact .waiting h fun t hk hn => by omega

/-- One more cycle, with its broadcast. -/
theorem Heard.wake (h : Heard cdb k n x y) (hk : k < n) : Heard cdb k (n + 1) x (wakeOperand y (cdb n)) := by
  cases h with
  | given hr =>
    rw [wakeOperand_of_ready hr]
    exact .given hr
  | waiting hr hno =>
    by_cases hc : Carries (cdb n) x.tag
    · rw [wakeOperand_carries hr hc]
      exact .woken hr hk (Nat.lt_succ_self n) hc hno
    · rw [wakeOperand_other hc]
      refine .waiting hr fun t ht hn => ?_
      by_cases he : t = n
      · rw [he]
        exact hc
      · exact hno t ht (by omega)
  | woken hr ht hn hc hfirst =>
    rw [wakeOperand_of_ready rfl]
    exact .woken hr ht (by omega) hc hfirst

/-- The value an operand issued as `x` in cycle `k` has when it is dispatched in cycle `n`. -/
def Supplied (cdb : Nat → CdbMsg) (k n : Nat) (x : Operand) (value : Word) : Prop :=
  (x.ready = true ∧ value = x.value) ∨
    x.ready = false ∧ ∃ t, k < t ∧ t < n ∧ (cdb t).valid = true ∧ (cdb t).tag = x.tag ∧ value = (cdb t).value ∧
      ∀ u, k < u → u < t → ¬ ((cdb u).valid = true ∧ (cdb u).tag = x.tag)

theorem Heard.supplied (h : Heard cdb k n x y) (hy : y.ready = true) : Supplied cdb k n x y.value := by
  cases h with
  | given hr => exact Or.inl ⟨hr, rfl⟩
  | waiting hr hno =>
    rw [hr] at hy
    cases hy
  | woken hr hk hn hc hfirst =>
    refine Or.inr ⟨hr, _, hk, hn, hc.1, hc.2.2, rfl, fun u hu hlt hcu => ?_⟩
    exact hfirst u hu hlt ⟨hcu.1, hc.2.1, hcu.2⟩

/-- The entry issued in cycle `k` as it stands in front of cycle `n`. -/
def Kept (inputs : Nat → RsInputs) (k n : Nat) (e : RsEntry) : Prop :=
  ∃ lhs rhs, e = { (inputs k).issueEntry with lhs := lhs, rhs := rhs, busy := true } ∧
    Heard (fun t => (inputs t).cdb) k n (inputs k).issueEntry.lhs lhs ∧
    Heard (fun t => (inputs t).cdb) k n (inputs k).issueEntry.rhs rhs

/-- A slot holds its tenant's entry. -/
theorem tenant_entry (h : tenant inputs n i = some k) : Kept inputs k n (entries inputs n i) := by
  refine Tenants.tenant_invariant (P := fun k n i => Kept inputs k n (entries inputs n i)) ?_ ?_ h
  · intro k i hfill
    rw [state_entries (fill_spec hfill).1, if_pos hfill]
    exact ⟨_, _, rfl, .start _ _ _, .start _ _ _⟩
  · intro n i k ht hkept hfill hrel
    obtain ⟨lhs, rhs, he, hl, hr⟩ := hkept
    have hk := (tenant_accepted ht).1
    rw [state_entries (tenant_lt ht), if_neg hfill, hrel, he]
    exact ⟨_, _, rfl, hl.wake hk, hr.wake hk⟩

/-- What is dispatched is a waiting entry with its operands supplied. -/
theorem dispatch_packet (h : (decision inputs n).outputs.dispatchValid = true) :
    ∃ i k a b, (decision inputs n).selectedIndex = i ∧ tenant inputs n i = some k ∧
      (decision inputs n).outputs.dispatch =
        { op := (inputs k).issueEntry.op, operand1 := a, operand2 := b
          immediate := (inputs k).issueEntry.immediate, pc := (inputs k).issueEntry.pc
          tag := (inputs k).issueEntry.destination, valid := true } ∧
      Supplied (fun t => (inputs t).cdb) k n (inputs k).issueEntry.lhs a ∧
      Supplied (fun t => (inputs t).cdb) k n (inputs k).issueEntry.rhs b := by
  rcases decision_cases inputs n with ⟨-, hv⟩ | ⟨-, hlt, hr, -, hpacket⟩
  · rw [hv] at h
    cases h
  · simp only [readyEntry, Bool.and_eq_true] at hr
    obtain ⟨k, hk⟩ := Option.isSome_iff_exists.mp ((busy_iff hlt).mp hr.1.1)
    obtain ⟨lhs, rhs, he, hl, hrhs⟩ := tenant_entry hk
    rw [he] at hr hpacket
    exact ⟨_, k, lhs.value, rhs.value, rfl, hk, hpacket, hl.supplied hr.1.2, hrhs.supplied hr.2⟩

/-- The station neither loses, duplicates nor corrupts an entry. -/
theorem station_exact (inputs : Nat → RsInputs) :
    (∀ n, accepts inputs n = true ↔
      (inputs n).issueValid = true ∧ (inputs n).flush = false ∧
        ∃ i < kCapacity, (entries inputs n i).busy = false ∨ departs inputs n i = true) ∧
    (∀ n i, i < kCapacity → ((entries inputs n i).busy = true ↔ ∃ k, tenant inputs n i = some k)) ∧
    (∀ k, accepts inputs k = true ↔ ∃ i, tenant inputs (k + 1) i = some k) ∧
    (∀ n i k, tenant inputs n i = some k →
      i < kCapacity ∧ k < n ∧ accepts inputs k = true ∧ Kept inputs k n (entries inputs n i) ∧
        (∀ m, k < m → m ≤ n → tenant inputs m i = some k) ∧
        (∀ m j, tenant inputs m j = some k → j = i) ∧
        (tenant inputs (n + 1) i = some k ↔ (inputs n).flush = false ∧ departs inputs n i = false) ∧
        ((inputs n).flush = true ∨ departs inputs n i = true → ∀ m j, n < m → tenant inputs m j ≠ some k)) ∧
    (∀ n, (decision inputs n).outputs.dispatchValid = true →
      ∃ i k a b, (decision inputs n).selectedIndex = i ∧ tenant inputs n i = some k ∧
        (decision inputs n).outputs.dispatch =
          { op := (inputs k).issueEntry.op, operand1 := a, operand2 := b
            immediate := (inputs k).issueEntry.immediate, pc := (inputs k).issueEntry.pc
            tag := (inputs k).issueEntry.destination, valid := true } ∧
        Supplied (fun t => (inputs t).cdb) k n (inputs k).issueEntry.lhs a ∧
        Supplied (fun t => (inputs t).cdb) k n (inputs k).issueEntry.rhs b) := by
  refine ⟨fun n => accepts_iff, fun n i hi => ?_, fun k => ?_, fun n i k h => ?_, fun n => dispatch_packet⟩
  · rw [busy_iff hi, Option.isSome_iff_exists]
  · constructor
    · intro ha
      obtain ⟨i, hfill⟩ := accepts_fill.mp ha
      exact ⟨i, Tenants.tenant_entered hfill⟩
    · rintro ⟨i, ht⟩
      exact (tenant_accepted ht).2
  · obtain ⟨hlt, ha⟩ := tenant_accepted h
    refine ⟨tenant_lt h, hlt, ha, tenant_entry h, fun m hk hm => Tenants.tenant_since h hk hm,
      fun m j hj => Tenants.tenant_slot hj h, tenant_stays h, fun hgone m j hm => ?_⟩
    refine Tenants.tenant_gone h ?_ hm
    rcases hgone with hf | hd
    · simp [release, hf]
    · simp [release, hd]

/-! ## Bounded bypass -/

/-- The dispatches the unit accepts in the `w` cycles from cycle `n` on. -/
def dispatchCount (inputs : Nat → RsInputs) (n w : Nat) : Nat :=
  (List.range w).countP fun t => dispatches inputs (n + t)

theorem dispatchCount_succ (inputs : Nat → RsInputs) (n w : Nat) :
    dispatchCount inputs n (w + 1) = dispatchCount inputs n w + if dispatches inputs (n + w) then 1 else 0 := by
  unfold dispatchCount
  rw [List.range_succ, List.countP_append]
  simp

/-- A ready entry that is not taken in a cycle stays as it is. -/
theorem ready_stays (hi : i < kCapacity) (hr : readyEntry (entries inputs n i) = true)
    (hf : (inputs n).flush = false) (hd : departs inputs n i = false) :
    entries inputs (n + 1) i = entries inputs n i ∧ tenant inputs (n + 1) i = tenant inputs n i := by
  simp only [readyEntry, Bool.and_eq_true] at hr
  obtain ⟨⟨hb, hl⟩, hrr⟩ := hr
  obtain ⟨k, hk⟩ := Option.isSome_iff_exists.mp ((busy_iff hi).mp hb)
  refine ⟨?_, by rw [hk]; exact (tenant_stays hk).mpr ⟨hf, hd⟩⟩
  rw [state_entries hi, if_neg (fill_ne hk hd), release, hf, hd, wakeEntry_of_busy hb, wake,
    wakeOperand_of_ready hl, wakeOperand_of_ready hrr]
  rfl

/-- With every dispatch the unit accepts, a ready entry that is not chosen comes closer to
    the cursor. -/
theorem distance_step {d : Nat} (hd : d < kCapacity)
    (hr : readyEntry (entries inputs n (((after inputs n).cur.dispatchCursor + d) % kCapacity)) = true)
    (hf : (inputs n).flush = false)
    (hdep : departs inputs n (((after inputs n).cur.dispatchCursor + d) % kCapacity) = false) :
    ∃ d', ((after inputs (n + 1)).cur.dispatchCursor + d') % kCapacity =
        ((after inputs n).cur.dispatchCursor + d) % kCapacity ∧
      d' + (if dispatches inputs n then 1 else 0) ≤ d := by
  obtain ⟨c, hle, hsel⟩ := selectReadyIndex_distance hd hr
  have hplan : (decision inputs n).selectedIndex = ((after inputs n).cur.dispatchCursor + c) % 16 := by
    rw [decision, hf, plan_selectedIndex]
    exact hsel
  have hlt : ((after inputs n).cur.dispatchCursor + c) % 16 < 16 := Nat.mod_lt _ (by decide)
  have hne : (decision inputs n).selectedIndex ≠ kInvalidIndex := by
    rw [hplan]
    exact Nat.ne_of_lt hlt
  have hvalid : (decision inputs n).outputs.dispatchValid = true := by
    rcases decision_cases inputs n with ⟨hs, -⟩ | ⟨-, -, -, hv, -⟩
    · exact absurd hs hne
    · exact hv
  have hcursor : (after inputs (n + 1)).cur.dispatchCursor =
      if (decision inputs n).selectedIndex ≠ kInvalidIndex && (inputs n).fuAvailable then
        ((decision inputs n).selectedIndex + 1) % kCapacity
      else (after inputs n).cur.dispatchCursor := by
    have hstep := step_cursor (s := (after inputs n).cur) hf
    rw [after_succ, decision, hf]
    exact hstep
  cases ha : (inputs n).fuAvailable with
  | false =>
    refine ⟨d, ?_, ?_⟩
    · rw [hcursor, ha, Bool.and_false]
      rfl
    · simp [dispatches, ha]
  | true =>
    have hcd : c < d := by
      by_contra hge
      have hc : c = d := by omega
      rw [departs, ha, hplan, hc] at hdep
      simp [kCapacity] at hdep
    refine ⟨d - (c + 1), ?_, ?_⟩
    · rw [hcursor, ha, if_pos (by simp [hne]), hplan]
      exact RoundRobin.distance_advance hcd 16 _
    · simp only [dispatches, hvalid, ha, Bool.and_self, if_true]
      omega

/-- While it waits, a ready entry sees no more dispatches than its distance allows. -/
theorem waits_closer (hi : i < kCapacity) (hr : readyEntry (entries inputs n i) = true) {w : Nat}
    (hf : ∀ t, n ≤ t → t < n + w → (inputs t).flush = false)
    (hd : ∀ t, n ≤ t → t < n + w → departs inputs t i = false) :
    ∃ d, ((after inputs (n + w)).cur.dispatchCursor + d) % kCapacity = i ∧
      entries inputs (n + w) i = entries inputs n i ∧ tenant inputs (n + w) i = tenant inputs n i ∧
      d + dispatchCount inputs n w < kCapacity := by
  induction w with
  | zero =>
    obtain ⟨d, hlt, hslot⟩ := RoundRobin.exists_distance (c := (after inputs n).cur.dispatchCursor) hi
    exact ⟨d, hslot, rfl, rfl, by simpa [dispatchCount] using hlt⟩
  | succ w ih =>
    obtain ⟨d, hslot, he, ht, hcount⟩ :=
      ih (fun t hn hlt => hf t hn (by omega)) fun t hn hlt => hd t hn (by omega)
    have hflush := hf (n + w) (by omega) (by omega)
    have hdep := hd (n + w) (by omega) (by omega)
    have hready : readyEntry (entries inputs (n + w) i) = true := by rw [he]; exact hr
    obtain ⟨hsame, htenant⟩ := ready_stays hi hready hflush hdep
    obtain ⟨d', hslot', hle⟩ := distance_step (d := d) (by omega) (by rw [hslot]; exact hready) hflush
      (by rw [hslot]; exact hdep)
    refine ⟨d', hslot'.trans hslot, hsame.trans he, htenant.trans ht, ?_⟩
    rw [dispatchCount_succ]
    omega

/-- In a window without a flush a ready entry is taken before the unit has accepted 16
    others, or it still waits and fewer than 16 were accepted. -/
theorem bounded_bypass (hi : i < kCapacity) (hr : readyEntry (entries inputs n i) = true) (w : Nat)
    (hf : ∀ t, n ≤ t → t < n + w → (inputs t).flush = false) :
    (∃ v < w, departs inputs (n + v) i = true ∧ tenant inputs (n + v) i = tenant inputs n i ∧
      (∀ t, n ≤ t → t < n + v → departs inputs t i = false) ∧ dispatchCount inputs n v < kCapacity) ∨
    (tenant inputs (n + w) i = tenant inputs n i ∧ (∀ t, n ≤ t → t < n + w → departs inputs t i = false) ∧
      dispatchCount inputs n w < kCapacity) := by
  induction w with
  | zero => exact Or.inr ⟨rfl, fun t hn hlt => by omega, by simp [dispatchCount, kCapacity]⟩
  | succ w ih =>
    rcases ih fun t hn hlt => hf t hn (by omega) with ⟨v, hv, hrest⟩ | ⟨ht, hnone, hcount⟩
    · exact Or.inl ⟨v, by omega, hrest⟩
    · by_cases hd : departs inputs (n + w) i = true
      · exact Or.inl ⟨w, Nat.lt_succ_self w, hd, ht, hnone, hcount⟩
      · have hall : ∀ t, n ≤ t → t < n + (w + 1) → departs inputs t i = false := by
          intro t hn hlt
          by_cases hc : t = n + w
          · rw [hc]
            simpa using hd
          · exact hnone t hn (by omega)
        obtain ⟨d, -, -, htenant, hle⟩ := waits_closer hi hr hf hall
        exact Or.inr ⟨htenant, hall, by omega⟩

/-- Ready entries all the time, and a unit that takes the first one in cycle 3. -/
def stalledInputs (t : Nat) : RsInputs :=
  { issueEntry := { op := .add, lhs := { ready := true }, rhs := { ready := true } }
    issueValid := true
    fuAvailable := decide (3 ≤ t) }

theorem bounded_bypass_stalled : ∃ v < 4, departs stalledInputs (1 + v) 0 = true := by
  have hready : readyEntry (entries stalledInputs 1 0) = true := by decide
  rcases bounded_bypass (by decide) hready 4 (fun _ _ _ => rfl) with ⟨v, hv, hd, -⟩ | ⟨-, hnone, -⟩
  · exact ⟨v, hv, hd⟩
  · have := hnone 3 (by decide) (by decide)
    exact absurd this (by decide)

end ReservationStation

end TomasuloCpu
