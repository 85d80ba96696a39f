/-
  TomasuloCpu.Tomasulo.ReservationStationProofs — the reservation station as a bag.

  `waiting` lists the busy entries; only its multiset matters. One cycle wakes every
  entry by the broadcast, lets the dispatched entry go when the unit takes it, and adds
  an issued one (`step_spec`). The chosen slot is ready (`plan_selected`), and while some
  entry is ready one is chosen (`plan_selects`).
-/
import TomasuloCpu.Lib.RoundRobin
import TomasuloCpu.Lib.Slots
import TomasuloCpu.Tomasulo.ReservationStation

namespace TomasuloCpu

/-- The busy entries, in slot order. -/
def RsState.waiting (s : RsState) : List RsEntry := Slots.occupied ReservationStation.kCapacity (·.busy) s.entries

theorem wakeOperand_of_ready {x : Operand} (h : x.ready = true) (cdb : CdbMsg) : wakeOperand x cdb = x := by
  simp [wakeOperand, h]

namespace ReservationStation

variable {s : RsState}

theorem mem_waiting {e : RsEntry} : e ∈ s.waiting ↔ ∃ i < 16, s.entries i = e ∧ e.busy = true := Slots.mem_occupied

@[simp] theorem resetState_waiting : resetState.waiting = [] := Slots.occupied_blank rfl

/-! ## Wakeup -/

/-- A broadcast at a busy entry. -/
def wake (cdb : CdbMsg) (e : RsEntry) : RsEntry :=
  { e with lhs := wakeOperand e.lhs cdb, rhs := wakeOperand e.rhs cdb }

theorem wakeEntry_busy (e : RsEntry) (cdb : CdbMsg) : (wakeEntry e cdb).busy = e.busy := by
  unfold wakeEntry; split <;> rfl

theorem wakeEntry_of_busy {e : RsEntry} (h : e.busy = true) (cdb : CdbMsg) : wakeEntry e cdb = wake cdb e := by
  rw [wakeEntry, if_pos h]; rfl

theorem waiting_wake (s : RsState) (cdb : CdbMsg) :
    Slots.occupied kCapacity (·.busy) (fun i => wakeEntry (s.entries i) cdb) = s.waiting.map (wake cdb) := by
  rw [Slots.occupied_map (g := fun e => wakeEntry e cdb) fun e => wakeEntry_busy e cdb]
  refine List.map_congr_left fun e he => ?_
  obtain ⟨-, -, -, hb⟩ := mem_waiting.mp he
  exact wakeEntry_of_busy hb cdb

/-! ## Selection -/

theorem find?_getD {l : List Nat} {p : Nat → Bool} (hl : ∀ i ∈ l, i ≠ kInvalidIndex) :
    (l.find? p).getD kInvalidIndex ≠ kInvalidIndex ↔ ∃ i ∈ l, p i = true := by
  cases h : l.find? p with
  | none =>
    simp only [Option.getD_none, ne_eq, not_true_eq_false, false_iff, not_exists, not_and]
    exact fun i hi => by simpa using List.find?_eq_none.mp h i hi
  | some i =>
    have hi := List.mem_of_find?_eq_some h
    exact ⟨fun _ => ⟨i, hi, List.find?_some h⟩, fun _ => hl i hi⟩

theorem find?_getD_spec {l : List Nat} {p : Nat → Bool} {i : Nat} (h : (l.find? p).getD kInvalidIndex = i)
    (hi : i ≠ kInvalidIndex) : i ∈ l ∧ p i = true := by
  cases hf : l.find? p with
  | none => rw [hf] at h; exact absurd h.symm hi
  | some j =>
    rw [hf, Option.getD_some] at h
    subst h
    exact ⟨List.mem_of_find?_eq_some hf, List.find?_some hf⟩

theorem selectReadyIndex_ready (h : selectReadyIndex s ≠ kInvalidIndex) :
    selectReadyIndex s < kCapacity ∧ readyEntry (s.entries (selectReadyIndex s)) = true := by
  obtain ⟨hm, hr⟩ := find?_getD_spec (l := RoundRobin.scan kCapacity s.dispatchCursor)
    (p := fun i => readyEntry (s.entries i)) rfl h
  exact ⟨RoundRobin.scan_lt hm, hr⟩

/-- The chosen slot is no further from the cursor than a ready one. -/
theorem selectReadyIndex_distance {d : Nat} (hd : d < 16)
    (hr : readyEntry (s.entries ((s.dispatchCursor + d) % 16)) = true) :
    ∃ d' ≤ d, selectReadyIndex s = (s.dispatchCursor + d') % 16 := by
  obtain ⟨d', hle, hf⟩ := RoundRobin.find_scan (n := kCapacity) (p := fun i => readyEntry (s.entries i)) hd hr
  refine ⟨d', hle, ?_⟩
  show ((RoundRobin.scan kCapacity s.dispatchCursor).find? fun i => readyEntry (s.entries i)).getD kInvalidIndex = _
  rw [hf]
  rfl

theorem findFreeIndex_ne {entries : Nat → RsEntry} :
    findFreeIndex entries ≠ kInvalidIndex ↔ ∃ i < 16, (entries i).busy = false := by
  have hl : ∀ i ∈ List.range kCapacity, i ≠ kInvalidIndex := fun i hi => Nat.ne_of_lt (List.mem_range.mp hi)
  refine (find?_getD hl).trans ⟨?_, ?_⟩
  · rintro ⟨i, hi, hb⟩
    exact ⟨i, List.mem_range.mp hi, by simpa using hb⟩
  · rintro ⟨i, hi, hb⟩
    exact ⟨i, List.mem_range.mpr hi, by simp [hb]⟩

theorem findFreeIndex_spec {entries : Nat → RsEntry} (h : findFreeIndex entries ≠ kInvalidIndex) :
    findFreeIndex entries < kCapacity ∧ (entries (findFreeIndex entries)).busy = false := by
  obtain ⟨hm, hb⟩ := find?_getD_spec (p := fun i => !(entries i).busy) rfl h
  exact ⟨List.mem_range.mp hm, (Bool.not_eq_eq_eq_not ..).mp hb⟩

theorem findFreeIndex_free {entries : Nat → RsEntry} (h : ∃ i < 16, (entries i).busy = false) :
    findFreeIndex entries < kCapacity ∧ (entries (findFreeIndex entries)).busy = false :=
  findFreeIndex_spec (findFreeIndex_ne.mpr h)

theorem available_iff : available s = true ↔ ∃ i < 16, (s.entries i).busy = false := by
  simp [available, full, kCapacity]

/-! ## The plan -/

theorem plan_flush (s : RsState) : plan s true = {} := rfl

theorem plan_selectedIndex (s : RsState) : (plan s false).selectedIndex = selectReadyIndex s := by
  unfold plan
  simp only [Bool.false_eq_true, if_false]
  split
  · rfl
  · rename_i h
    exact (not_not.mp h).symm

/-- What is dispatched is the chosen entry, which has both operands. -/
theorem plan_selected (h : (plan s false).selectedIndex ≠ kInvalidIndex) :
    (plan s false).selectedIndex < 16 ∧ readyEntry (s.entries (plan s false).selectedIndex) = true ∧
      (plan s false).outputs.dispatch = makeExecute (s.entries (plan s false).selectedIndex) := by
  rw [plan_selectedIndex] at h ⊢
  obtain ⟨hlt, hr⟩ := selectReadyIndex_ready h
  refine ⟨hlt, hr, ?_⟩
  unfold plan
  simp only [Bool.false_eq_true, if_false]
  rw [if_pos h]

theorem plan_idle (h : (plan s false).selectedIndex = kInvalidIndex) : (plan s false).outputs.dispatch.valid = false := by
  rw [plan_selectedIndex] at h
  unfold plan
  simp only [Bool.false_eq_true, if_false]
  rw [if_neg (not_not.mpr h)]

/-! ## One cycle -/

/-- The entry that leaves for the functional unit in a cycle without a flush. -/
def departing (s : RsState) (fuAvailable : Bool) : Option RsEntry :=
  if (plan s false).selectedIndex ≠ kInvalidIndex && fuAvailable then some (s.entries (plan s false).selectedIndex)
  else none

/-- The station without a flush: `rest` stays, woken; the departing entry is gone. -/
theorem dispatched_spec (s : RsState) (inputs : RsInputs) :
    ∃ rest, s.waiting.Perm ((departing s inputs.fuAvailable).toList ++ rest) ∧
      (dispatched s inputs (plan s false)).waiting.Perm (rest.map (wake inputs.cdb)) := by
  unfold dispatched departing
  by_cases h : (decide ((plan s false).selectedIndex ≠ kInvalidIndex) && inputs.fuAvailable) = true
  · simp only [if_pos h]
    simp only [Bool.and_eq_true, decide_eq_true_eq] at h
    obtain ⟨hlt, hr, -⟩ := plan_selected h.1
    generalize (plan s false).selectedIndex = i at hlt hr
    simp only [readyEntry, Bool.and_eq_true] at hr
    have hbusy := hr.1.1
    have hold := Slots.occupied_release (n := 16) (f := s.entries) (p := (·.busy)) hlt hbusy (x := {}) rfl
    have hw : (wakeEntry (s.entries i) inputs.cdb).busy = true := by rw [wakeEntry_busy, hbusy]
    have hnew : (fun j => wakeEntry (Function.update s.entries i {} j) inputs.cdb) =
        Function.update (fun j => wakeEntry (s.entries j) inputs.cdb) i {} := by
      funext j
      by_cases e : j = i
      · subst e; simp [wakeEntry]
      · simp [Function.update_of_ne e]
    refine ⟨_, hold, ?_⟩
    show (Slots.occupied kCapacity RsEntry.busy (Function.update _ i {})).Perm _
    rw [← hnew]
    exact .of_eq (waiting_wake ⟨Function.update s.entries i {}, 0⟩ inputs.cdb)
  · simp only [if_neg h]
    exact ⟨s.waiting, .refl _, .of_eq (waiting_wake s inputs.cdb)⟩

theorem dispatched_free (h : ∃ i < 16, (s.entries i).busy = false) (inputs : RsInputs) (d : RsDecision) :
    ∃ i < 16, ((dispatched s inputs d).entries i).busy = false := by
  obtain ⟨i, hi, hb⟩ := h
  refine ⟨i, hi, ?_⟩
  have hwoken : (wakeEntry (s.entries i) inputs.cdb).busy = false := by rw [wakeEntry_busy, hb]
  unfold dispatched
  simp only []
  split
  · show (Function.update (fun j => wakeEntry (s.entries j) inputs.cdb) d.selectedIndex {} i).busy = false
    by_cases e : i = d.selectedIndex
    · rw [e, Function.update_self]
    · rw [Function.update_of_ne e, hwoken]
  · exact hwoken

theorem step_flush (s : RsState) (inputs : RsInputs) (d : RsDecision) (h : inputs.flush = true) :
    (step s inputs d).2.waiting = [] := by
  rw [step, if_pos h]
  exact Slots.occupied_blank rfl

/-- Without a flush: the departing entry goes, the rest is woken, an issue is added. The
    issue finds room whenever the station was not full. -/
theorem step_spec (s : RsState) (inputs : RsInputs) (hf : inputs.flush = false)
    (hroom : inputs.issueValid = true → available s = true) :
    ∃ rest, s.waiting.Perm ((departing s inputs.fuAvailable).toList ++ rest) ∧
      (step s inputs (plan s false)).2.waiting.Perm
        ((if inputs.issueValid then [{ inputs.issueEntry with busy := true }] else []) ++ rest.map (wake inputs.cdb)) := by
  obtain ⟨rest, hold, hnew⟩ := dispatched_spec s inputs
  refine ⟨rest, hold, ?_⟩
  rw [step, if_neg (by simp [hf])]
  simp only []
  by_cases hi : inputs.issueValid = true
  · obtain ⟨hlt, hb⟩ := findFreeIndex_free
      (dispatched_free (available_iff.mp (hroom hi)) inputs (plan s false))
    have hne : findFreeIndex (dispatched s inputs (plan s false)).entries ≠ kInvalidIndex := Nat.ne_of_lt hlt
    rw [if_pos hi, if_pos hi, if_pos hne]
    exact (Slots.occupied_fill hlt hb rfl).trans (hnew.cons _)
  · rw [if_neg hi, if_neg hi]
    exact hnew

/-- A busy slot that is not dispatched keeps its entry, woken. -/
theorem step_slot {inputs : RsInputs} (hf : inputs.flush = false) {i : Nat} (hb : (s.entries i).busy = true)
    (hi : i ≠ (plan s false).selectedIndex ∨ inputs.fuAvailable = false) :
    (step s inputs (plan s false)).2.entries i = wake inputs.cdb (s.entries i) := by
  have hkept : (dispatched s inputs (plan s false)).entries i = wake inputs.cdb (s.entries i) := by
    unfold dispatched
    simp only []
    split
    · rename_i h
      simp only [Bool.and_eq_true, decide_eq_true_eq] at h
      have hne : i ≠ (plan s false).selectedIndex := by
        rcases hi with hi | hi
        · exact hi
        · rw [hi] at h
          cases h.2
      exact (Function.update_of_ne hne {} fun j => wakeEntry (s.entries j) inputs.cdb).trans (wakeEntry_of_busy hb _)
    · exact wakeEntry_of_busy hb _
  rw [step, if_neg (by simp [hf])]
  simp only []
  split
  · split
    · rename_i hne
      obtain ⟨-, hfree⟩ := findFreeIndex_spec hne
      have hne : i ≠ findFreeIndex (dispatched s inputs (plan s false)).entries := by
        intro hc
        rw [← hc, hkept] at hfree
        exact absurd hb (by rw [show (s.entries i).busy = false from hfree]; simp)
      exact (Function.update_of_ne hne _ _).trans hkept
    · exact hkept
  · exact hkept

theorem step_cursor {inputs : RsInputs} (hf : inputs.flush = false) :
    (step s inputs (plan s false)).2.dispatchCursor =
      if (plan s false).selectedIndex ≠ kInvalidIndex && inputs.fuAvailable then
        ((plan s false).selectedIndex + 1) % kCapacity
      else s.dispatchCursor := by
  have hcursor : (dispatched s inputs (plan s false)).dispatchCursor =
      if (plan s false).selectedIndex ≠ kInvalidIndex && inputs.fuAvailable then
        ((plan s false).selectedIndex + 1) % kCapacity
      else s.dispatchCursor := by
    unfold dispatched
    simp only []
    split <;> rfl
  rw [← hcursor, step, if_neg (by simp [hf])]
  simp only []
  split
  · split <;> rfl
  · rfl

/-- A ready entry at distance `d` from the cursor waits while the unit takes nothing;
    otherwise it departs, or another one does and it comes closer. -/
theorem step_distance (inputs : RsInputs) (hf : inputs.flush = false) {d : Nat} (hd : d < 16)
    (hr : readyEntry (s.entries ((s.dispatchCursor + d) % 16)) = true) :
    let next := (step s inputs (plan s false)).2
    let e := s.entries ((s.dispatchCursor + d) % 16)
    (inputs.fuAvailable = false → next.entries ((next.dispatchCursor + d) % 16) = wake inputs.cdb e) ∧
      (inputs.fuAvailable = true → departing s true = some e ∨
        ∃ d' < d, next.entries ((next.dispatchCursor + d') % 16) = wake inputs.cdb e) := by
  obtain ⟨d', hle, hsel⟩ := selectReadyIndex_distance hd hr
  have hplan : (plan s false).selectedIndex = (s.dispatchCursor + d') % 16 := (plan_selectedIndex s).trans hsel
  have hb : (s.entries ((s.dispatchCursor + d) % 16)).busy = true := by
    simp only [readyEntry, Bool.and_eq_true] at hr
    exact hr.1.1
  have hne : (plan s false).selectedIndex ≠ kInvalidIndex := by
    rw [hplan]
    exact Nat.ne_of_lt (Nat.mod_lt _ (by decide))
  refine ⟨fun ha => ?_, fun ha => ?_⟩
  · rw [step_cursor hf, if_neg (by simp [ha])]
    exact step_slot hf hb (Or.inr ha)
  · by_cases hdd : d' = d
    · left
      rw [departing, if_pos (by simp [hne]), hplan, hdd]
    · right
      have hslot : (((s.dispatchCursor + d') % 16 + 1) % 16 + (d - (d' + 1))) % 16 = (s.dispatchCursor + d) % 16 :=
        RoundRobin.distance_advance (by omega) 16 _
      refine ⟨d - (d' + 1), by omega, ?_⟩
      rw [step_cursor hf, if_pos (by simp [hne, ha]), hplan]
      show (step s inputs (plan s false)).2.entries ((((s.dispatchCursor + d') % 16 + 1) % 16 + (d - (d' + 1))) % 16) = _
      rw [hslot]
      refine step_slot hf hb (Or.inl ?_)
      rw [hplan]
      omega

end ReservationStation

end TomasuloCpu
