/-
  TomasuloCpu.Tomasulo.BufferRuns — the reorder buffer alone, over any inputs.

  A cycle plans, applies and latches. `InOrderQueue.cycle` is what a bounded queue with
  flush does in a cycle, on the list of its entries; the buffer does the same on `live`
  (`refines_queue`), with the entries in its slots as `Represents` says.

  An accepted issue is known by its cycle: `tenant` says which one holds a slot. A slot's
  generation counts its allocations (`generations_eq`), so while no slot has been
  allocated 2^32 times the tags of all accepted issues differ (`tag_inj`), and what comes
  late for an entry that is gone matches none (`matchingEntry_departed`).
-/
import TomasuloCpu.Lib.Tenants
import TomasuloCpu.Tomasulo.ReorderBufferProofs

namespace TomasuloCpu

/-! ## A bounded queue with flush -/

namespace InOrderQueue

open ReorderBuffer (kCapacity)

/-- What a cycle shows and the entries it leaves, oldest first. -/
@[ext]
structure Outcome where
  committed : Option RobEntry
  flush : Bool
  accepted : Bool
  entries : List RobEntry

/-- A valid completion fills the entry with its tag; a valid store completion makes the
    store with its tag ready. -/
def resolve (c : FuResult) (sc : StoreCommitCompletion) (e : RobEntry) : RobEntry :=
  let resolved :=
    if c.valid = true ∧ e.tag = c.tag then
      { e with
        value := c.result
        ready := true
        actualNextPc := if c.hasControlResult then c.actualNextPc else e.actualNextPc
        branchTaken := if c.hasControlResult then c.branchTaken else e.branchTaken }
    else e
  if sc.valid = true ∧ e.tag = sc.tag ∧ e.isStore = true then { resolved with ready := true } else resolved

def mispredicted (e : RobEntry) : Bool := (e.isBranch || e.isJump) && e.predictedNextPc != e.actualNextPc

/-- `offered` is the tag the next entry has to carry. The head commits when it was ready
    before the cycle, and a mispredicted one takes all others with it. -/
def cycle (l : List RobEntry) (offered : RobTag) (inputs : RobInputs) : Outcome :=
  let committed := l.head?.filter (·.ready)
  let flush := committed.any mispredicted
  let accepted :=
    !flush && inputs.issueValid && decide (l.length < kCapacity) && inputs.issueEntry.valid &&
      inputs.issueEntry.tag == offered
  let resolved := l.map (resolve inputs.completion inputs.storeCompletion)
  { committed := committed
    flush := flush
    accepted := accepted
    entries :=
      (if flush then [] else if committed.isSome then resolved.tail else resolved) ++
        if accepted then [inputs.issueEntry] else [] }

end InOrderQueue

namespace ReorderBuffer

open RobState

/-! ## A run -/

/-- One cycle: `plan`, `apply`, `latch`. -/
def cycle (m : ReorderBuffer) (inputs : RobInputs) : Bool × ReorderBuffer :=
  let (accepted, applied) := apply m inputs (plan m.cur)
  (accepted, applied.latch)

/-- The buffer in front of cycle `n`. -/
def after (inputs : Nat → RobInputs) : Nat → ReorderBuffer
  | 0 => .reset resetState
  | n + 1 => (cycle (after inputs n) (inputs n)).2

/-- What the cycle shows and leaves. -/
def outcome (m : ReorderBuffer) (inputs : RobInputs) : InOrderQueue.Outcome :=
  let outputs := (plan m.cur).outputs
  { committed := if outputs.commit.valid then some outputs.commit.entry else none
    flush := outputs.flush
    accepted := (cycle m inputs).1
    entries := (cycle m inputs).2.cur.live }

/-- The slots from `head` on hold the entries of `l`, each tagged with its slot and the
    slot's generation; every other slot is blank. -/
structure Represents (s : RobState) (l : List RobEntry) : Prop where
  capacity : l.length ≤ kCapacity
  count : s.count = l.length
  head : s.head < kCapacity
  tail : s.tail = (s.head + l.length) % kCapacity
  entries : ∀ i e, l[i]? = some e →
    s.entries ((s.head + i) % kCapacity) = e ∧ e.valid = true ∧
      e.tag.index = BitVec.ofNat 32 ((s.head + i) % kCapacity) ∧
      e.tag.generation = s.generations ((s.head + i) % kCapacity) ∧ e.tag.valid = true
  blank : ∀ j < kCapacity, (∀ i < l.length, j ≠ (s.head + i) % kCapacity) → s.entries j = {}

variable {s : RobState} {inputs : Nat → RobInputs} {n i j k : Nat}

theorem after_succ : (after inputs (n + 1)).cur = (step (after inputs n).cur (inputs n) (plan (after inputs n).cur)).2 :=
  rfl

theorem wf_after (inputs : Nat → RobInputs) (n : Nat) : (after inputs n).cur.Wf := by
  induction n with
  | zero => exact resetState_wf
  | succ n ih =>
    rw [after_succ]
    exact (step_spec ih (inputs n)).1

theorem represents_live (hs : s.Wf) : Represents s s.live where
  capacity := by
    rw [length_live]
    exact hs.ring.count_le
  count := length_live.symm
  head := hs.ring.head_lt
  tail := by
    rw [length_live]
    exact hs.ring.tail_eq
  entries := by
    intro i e he
    have hi : i < s.count := by
      obtain ⟨hlt, -⟩ := List.getElem?_eq_some_iff.mp he
      rwa [length_live] at hlt
    have hcell : s.live[i]? = some (s.entries ((s.head + i) % kCapacity)) := Ring.getElem?_contents i hi
    obtain ⟨hv, ht⟩ := hs.tagged i hi
    rw [hcell] at he
    obtain rfl := Option.some.inj he
    exact ⟨rfl, hv, congrArg (·.index) ht, congrArg (·.generation) ht, congrArg (·.valid) ht⟩
  blank := by
    intro j _ hj
    refine hs.blank j ?_
    rintro ⟨i, hi, rfl⟩
    refine hj i ?_ rfl
    rw [length_live]
    exact hi

theorem nextTag_valid_iff (hs : s.Wf) : (nextTag s).valid = true ↔ s.live.length < kCapacity := by
  have hle : s.live.length ≤ kCapacity := (represents_live hs).capacity
  have hfull : full s = true ↔ s.live.length = kCapacity := by
    rw [full_eq, beq_iff_eq]
    rfl
  unfold nextTag
  split
  · rename_i h
    have := hfull.mp h
    simp
    omega
  · rename_i h
    have hne : s.live.length ≠ kCapacity := fun hc => h (hfull.mpr hc)
    simp
    omega

/-! ## Refinement -/

theorem finish_eq (c : FuResult) (sc : StoreCommitCompletion) (e : RobEntry) :
    finish c sc e = InOrderQueue.resolve c sc e := by
  unfold finish storeComplete complete completeEntry InOrderQueue.resolve
  simp only [Bool.and_eq_true, beq_iff_eq]
  by_cases hc : c.valid = true ∧ e.tag = c.tag
  · simp only [if_pos hc]
    cases c.hasControlResult <;> rfl
  · simp only [if_neg hc]

theorem plan_committed (hs : s.Wf) :
    (if (plan s).outputs.commit.valid then some (plan s).outputs.commit.entry else none) = s.live.head?.filter (·.ready) := by
  simp only [plan, front_eq hs]
  cases s.live.head? with
  | none => rfl
  | some h =>
    cases hr : h.ready with
    | true => simp [planCommit, hr, Option.filter]
    | false => simp [planCommit, hr, Option.filter]

theorem plan_flush_eq (hs : s.Wf) :
    (plan s).outputs.flush = (s.live.head?.filter (·.ready)).any InOrderQueue.mispredicted := by
  simp only [plan, front_eq hs]
  cases s.live.head? with
  | none => rfl
  | some h =>
    cases hr : h.ready with
    | true => simp [planCommit, hr, InOrderQueue.mispredicted, isControlInstruction, Bool.or_comm]
    | false => simp [planCommit, hr]

theorem accepts_eq (hs : s.Wf) (inputs : RobInputs) :
    accepts s inputs (plan s) = (InOrderQueue.cycle s.live (nextTag s) inputs).accepted := by
  -- a list of 32 entries is the full buffer
  have hfull : (!full s) = decide (s.live.length < kCapacity) := by
    have hle : s.live.length ≤ kCapacity := (represents_live hs).capacity
    rw [full_eq]
    by_cases hc : s.live.length = 32
    · simp [hc, kCapacity]
    · have hlt : s.live.length < kCapacity := by
        have : s.live.length ≤ 32 := hle
        show s.live.length < 32
        omega
      simp [hc, hlt]
  unfold accepts InOrderQueue.cycle
  rw [plan_flush_eq hs, hfull]
  simp only [Bool.and_assoc]

/-- An accepted entry carries the offered tag already. -/
theorem issuedEntry_eq {inputs : RobInputs} (h : accepts s inputs (plan s) = true) :
    issuedEntry s inputs = inputs.issueEntry := by
  obtain ⟨-, -, -, hv, ht⟩ := accepts_room h
  rw [issuedEntry, ← ht, ← hv]

/-- One cycle of the buffer is one cycle of the queue. -/
theorem cycle_refines (m : ReorderBuffer) (hs : m.cur.Wf) (inputs : RobInputs) :
    outcome m inputs = InOrderQueue.cycle m.cur.live (nextTag m.cur) inputs := by
  have haccepted : (cycle m inputs).1 = accepts m.cur inputs (plan m.cur) := by
    show (step m.cur inputs (plan m.cur)).1 = _
    unfold step
    simp only []
    split <;> simp [*]
  have hvalid : (plan m.cur).outputs.commit.valid = (m.cur.live.head?.filter (·.ready)).isSome := by
    rw [← plan_committed hs]
    split <;> simp [*]
  have hfinish : finish inputs.completion inputs.storeCompletion =
      InOrderQueue.resolve inputs.completion inputs.storeCompletion := by
    funext e
    exact finish_eq _ _ e
  have hissued : (if accepts m.cur inputs (plan m.cur) then [issuedEntry m.cur inputs] else []) =
      if accepts m.cur inputs (plan m.cur) then [inputs.issueEntry] else [] := by
    split
    · rename_i h
      rw [issuedEntry_eq h]
    · rfl
  have hlive := (step_spec hs inputs).2
  rw [hissued, hfinish, hvalid, plan_flush_eq hs, accepts_eq hs] at hlive
  refine InOrderQueue.Outcome.ext ?_ ?_ ?_ ?_
  · exact plan_committed hs
  · exact plan_flush_eq hs
  · exact haccepted.trans (accepts_eq hs inputs)
  · exact hlive

/-- The buffer is a bounded in-order queue with flush. -/
theorem refines_queue (inputs : Nat → RobInputs) (n : Nat) :
    let s := (after inputs n).cur
    (after inputs 0).cur.live = [] ∧ Represents s s.live ∧
      ((nextTag s).valid = true ↔ s.live.length < kCapacity) ∧
      outcome (after inputs n) (inputs n) = InOrderQueue.cycle s.live (nextTag s) (inputs n) ∧
      (after inputs (n + 1)).cur.live = (InOrderQueue.cycle s.live (nextTag s) (inputs n)).entries := by
  intro s
  have hs : s.Wf := wf_after inputs n
  have hcycle := cycle_refines (after inputs n) hs (inputs n)
  refine ⟨rfl, represents_live hs, nextTag_valid_iff hs, hcycle, ?_⟩
  rw [← hcycle]
  rfl

/-! ## Tags -/

section Tags

variable (inputs : Nat → RobInputs)

/-- The issue of cycle `n` is accepted. -/
def accepted (n : Nat) : Bool := (cycle (after inputs n) (inputs n)).1

def outputs (n : Nat) : RobOutputs := (plan (after inputs n).cur).outputs

/-- The tag of the entry issued in cycle `k`. -/
def issuedTag (k : Nat) : RobTag := (inputs k).issueEntry.tag

/-- The slot an accepted entry gets. -/
def fill (n : Nat) : Option Nat := if accepted inputs n then some (after inputs n).cur.tail else none

/-- Cycle `n` empties slot `j`. -/
def release (n j : Nat) : Bool :=
  (outputs inputs n).flush || ((outputs inputs n).commit.valid && (after inputs n).cur.head == j)

/-- The entry that holds slot `j` in front of cycle `n`, by the cycle that accepted it. -/
def tenant (n j : Nat) : Option Nat := Tenants.tenant (release inputs) (fill inputs) n j

/-- How often slot `j` was allocated before cycle `n`. -/
def allocations (j n : Nat) : Nat := Tenants.lettings (fill inputs) j n

end Tags

theorem accepted_eq : accepted inputs n = accepts (after inputs n).cur (inputs n) (plan (after inputs n).cur) := by
  show (step (after inputs n).cur (inputs n) (plan (after inputs n).cur)).1 = _
  unfold step
  simp only []
  split <;> simp [*]

theorem fill_iff : fill inputs n = some j ↔ accepted inputs n = true ∧ (after inputs n).cur.tail = j := by
  unfold fill
  cases accepted inputs n <;> simp

theorem tail_lt (inputs : Nat → RobInputs) (n : Nat) : (after inputs n).cur.tail < kCapacity := by
  rw [(represents_live (wf_after inputs n)).tail]
  exact Nat.mod_lt _ (by decide)

/-- A slot's generation counts its allocations. -/
theorem generations_eq (inputs : Nat → RobInputs) (n j : Nat) :
    (after inputs n).cur.generations j = BitVec.ofNat 32 (allocations inputs j n) := by
  induction n with
  | zero => rfl
  | succ n ih =>
    rw [after_succ, step_generations (wf_after inputs n), ← accepted_eq, allocations, Tenants.lettings]
    by_cases ha : accepted inputs n = true
    · rw [if_pos ha]
      by_cases hj : (after inputs n).cur.tail = j
      · rw [if_pos (fill_iff.mpr ⟨ha, hj⟩), hj, Function.update_self, ih, BitVec.ofNat_add]
        rfl
      · rw [if_neg fun hc => hj (fill_iff.mp hc).2, Function.update_of_ne (Ne.symm hj), ih]
        rfl
    · rw [if_neg ha, if_neg fun hc => ha (fill_iff.mp hc).1, ih]
      rfl

/-- The tag of an accepted entry: its slot and the number of the allocation. -/
theorem issuedTag_eq (h : fill inputs k = some j) :
    issuedTag inputs k = ⟨BitVec.ofNat 32 j, BitVec.ofNat 32 (allocations inputs j k + 1), true⟩ := by
  obtain ⟨ha, rfl⟩ := fill_iff.mp h
  rw [accepted_eq] at ha
  obtain ⟨hcount, -, -, -, ht⟩ := accepts_room ha
  have hle : (after inputs k).cur.count ≤ 32 := (wf_after inputs k).ring.count_le
  rw [issuedTag, ht, nextTag_of_room (by omega), generations_eq, BitVec.ofNat_add]
  rfl

theorem applyCompletion_valid (cur next : RobState) (c : FuResult) (j : Nat) :
    ((applyCompletion cur next c).entries j).valid = (next.entries j).valid := by
  unfold applyCompletion
  split
  · rfl
  · by_cases hj : j = c.tag.index.toNat
    · simp [hj, (completeEntry_keeps c).valid]
    · simp [Function.update_of_ne hj]

theorem applyStoreCompletion_valid (cur next : RobState) (c : StoreCommitCompletion) (j : Nat) :
    ((applyStoreCompletion cur next c).entries j).valid = (next.entries j).valid := by
  unfold applyStoreCompletion
  split
  · rfl
  · simp only []
    split
    · rfl
    · by_cases hj : j = c.tag.index.toNat
      · simp [hj]
      · simp [Function.update_of_ne hj]

/-- A slot is valid after a cycle when it was filled, or was valid and not emptied. -/
theorem valid_succ (h : ((after inputs (n + 1)).cur.entries j).valid = true) :
    fill inputs n = some j ∨ ((after inputs n).cur.entries j).valid = true ∧ release inputs n j = false := by
  have hstep : (after inputs (n + 1)).cur =
      if accepted inputs n then
        allocate (committed (after inputs n).cur (inputs n)) (inputs n).issueEntry (nextTag (after inputs n).cur)
      else committed (after inputs n).cur (inputs n) := by
    rw [after_succ, accepted_eq]
    unfold step
    split <;> rfl
  have hcommitted : ((committed (after inputs n).cur (inputs n)).entries j).valid = true →
      ((after inputs n).cur.entries j).valid = true ∧ release inputs n j = false := by
    intro hv
    have hcompleted : ((completed (after inputs n).cur (inputs n)).entries j).valid =
        ((after inputs n).cur.entries j).valid := by
      rw [completed, applyStoreCompletion_valid, applyCompletion_valid]
    have hhead := (completed_frame (after inputs n).cur (inputs n)).2.1
    unfold committed applyCommit at hv
    by_cases hc : (plan (after inputs n).cur).outputs.commit.valid = true
    · rw [if_pos hc] at hv
      simp only [] at hv
      by_cases hf : (plan (after inputs n).cur).outputs.flush = true
      · rw [if_pos hf] at hv
        cases hv
      · rw [if_neg hf] at hv
        simp only [popHead, hhead] at hv
        by_cases hj : j = (after inputs n).cur.head
        · rw [hj, Function.update_self] at hv
          cases hv
        · rw [Function.update_of_ne hj, hcompleted] at hv
          refine ⟨hv, ?_⟩
          simp [release, outputs, hf, Ne.symm hj]
    · rw [if_neg hc, hcompleted] at hv
      have hf : (plan (after inputs n).cur).outputs.flush = false := by
        cases hf : (plan (after inputs n).cur).outputs.flush with
        | false => rfl
        | true => exact absurd (plan_flush_commit _ hf) hc
      exact ⟨hv, by simp [release, outputs, hf, hc]⟩
  by_cases ha : accepted inputs n = true
  · rw [hstep, if_pos ha] at h
    by_cases hj : (after inputs n).cur.tail = j
    · exact Or.inl (fill_iff.mpr ⟨ha, hj⟩)
    · rw [accepted_eq] at ha
      have htail := (committed_frame (s := (after inputs n).cur) (inputs n) (accepts_room ha).2.1).2.1
      simp only [allocate, htail, Function.update_of_ne (Ne.symm hj)] at h
      exact Or.inr (hcommitted h)
  · rw [hstep, if_neg ha] at h
    exact Or.inr (hcommitted h)

theorem tenant_of_valid (h : ((after inputs n).cur.entries j).valid = true) : ∃ k, tenant inputs n j = some k := by
  induction n with
  | zero => cases h
  | succ n ih =>
    rcases valid_succ h with hfill | ⟨hv, hrel⟩
    · exact ⟨n, Tenants.tenant_entered hfill⟩
    · by_cases hfill : fill inputs n = some j
      · exact ⟨n, Tenants.tenant_entered hfill⟩
      · obtain ⟨k, hk⟩ := ih hv
        exact ⟨k, (Tenants.tenant_stays hk).mpr ⟨hfill, hrel⟩⟩

/-- A live entry carries the tag of its slot's tenant. -/
theorem live_issuedTag {e : RobEntry} (he : e ∈ (after inputs n).cur.live) :
    ∃ k, tenant inputs n (slotOf e) = some k ∧ e.tag = issuedTag inputs k := by
  obtain ⟨hv, -, hslot, ht⟩ := live_tagged (wf_after inputs n) he
  have hvalid : ((after inputs n).cur.entries (slotOf e)).valid = true := by
    rw [← hslot]
    exact hv
  obtain ⟨k, hk⟩ := tenant_of_valid hvalid
  refine ⟨k, hk, ?_⟩
  rw [ht, slotTag, generations_eq, issuedTag_eq (Tenants.tenant_eq_some.mp hk).2.1]
  have hcount : allocations inputs (slotOf e) n = allocations inputs (slotOf e) k + 1 := Tenants.lettings_tenant hk
  rw [hcount]

/-- While no slot has been allocated 2^32 times, accepted issues have different tags. -/
theorem tag_inj {N k' : Nat} (hN : ∀ j < kCapacity, allocations inputs j N < 2 ^ 32) (hk : k < N) (hk' : k' < N)
    (ha : accepted inputs k = true) (ha' : accepted inputs k' = true)
    (ht : issuedTag inputs k = issuedTag inputs k') : k = k' := by
  have hfill : fill inputs k = some (after inputs k).cur.tail := fill_iff.mpr ⟨ha, rfl⟩
  have hfill' : fill inputs k' = some (after inputs k').cur.tail := fill_iff.mpr ⟨ha', rfl⟩
  have hlt := tail_lt inputs k
  have hlt' := tail_lt inputs k'
  rw [issuedTag_eq hfill, issuedTag_eq hfill'] at ht
  have hslot : (after inputs k).cur.tail = (after inputs k').cur.tail := by
    have := congrArg (fun t : RobTag => t.index.toNat) ht
    simp only [BitVec.toNat_ofNat] at this
    unfold kCapacity at hlt hlt'
    omega
  rw [hslot] at hfill hlt ht
  generalize (after inputs k').cur.tail = j at hfill hfill' hlt ht
  have hbound := hN j hlt
  have hle : allocations inputs j k < allocations inputs j N := Tenants.lettings_lt hfill hk
  have hle' : allocations inputs j k' < allocations inputs j N := Tenants.lettings_lt hfill' hk'
  have hgeneration : allocations inputs j k = allocations inputs j k' := by
    have := congrArg (fun t : RobTag => t.generation.toNat) ht
    simp only [BitVec.toNat_ofNat] at this
    omega
  rcases Nat.lt_trichotomy k k' with hc | hc | hc
  · have : allocations inputs j k < allocations inputs j k' := Tenants.lettings_lt hfill hc
    omega
  · exact hc
  · have : allocations inputs j k' < allocations inputs j k := Tenants.lettings_lt hfill' hc
    omega

/-- The entry issued in cycle `k` has committed or was flushed before cycle `n`. -/
def Departed (inputs : Nat → RobInputs) (k n : Nat) : Prop :=
  ∃ m, k < m ∧ m < n ∧
    ((outputs inputs m).flush = true ∨
      (outputs inputs m).commit.valid = true ∧ (outputs inputs m).commit.entry.tag = issuedTag inputs k)

theorem slotOf_head {x : RobEntry} (hs : s.Wf) (hx : s.live.head? = some x) : slotOf x = s.head := by
  have hcount : 0 < s.ring.count := by
    have hne : s.live ≠ [] := by
      intro hc
      rw [hc] at hx
      cases hx
    have := List.length_pos_iff.mpr hne
    rwa [length_live] at this
  have hhead : s.live.head? = some (s.entries s.head) := Ring.head?_contents hs.ring hcount
  have hzero : s.ring.slot kCapacity 0 = s.head := Nat.mod_eq_of_lt hs.ring.head_lt
  have ht := (hs.tagged 0 hcount).2
  rw [hhead] at hx
  rw [hzero] at ht
  rw [slotOf, ← Option.some.inj hx, ht]
  exact slotTag_index hs.ring.head_lt

/-- An entry that is gone holds no slot. -/
theorem departed_tenant {N : Nat} (hN : ∀ j < kCapacity, allocations inputs j N < 2 ^ 32) (hn : n ≤ N)
    (ha : accepted inputs k = true) (hd : Departed inputs k n) : tenant inputs n j ≠ some k := by
  obtain ⟨m, hkm, hmn, hevent⟩ := hd
  intro hc
  have hrelease := ((Tenants.tenant_eq_some.mp hc).2.2 m hkm hmn).2
  simp only [release, Bool.or_eq_false_iff] at hrelease
  rcases hevent with hf | ⟨hv, ht⟩
  · rw [hf] at hrelease
    cases hrelease.1
  · -- the head that commits is the slot's tenant, and its tag says which
    have hs := wf_after inputs m
    obtain ⟨x, hx, hr⟩ := (plan_commit_valid hs).mp hv
    have hentry : (outputs inputs m).commit.entry = x := by
      have hcommitted := plan_committed hs
      rw [show (plan (after inputs m).cur).outputs.commit.valid = true from hv, if_pos rfl, hx] at hcommitted
      simp only [Option.filter, hr, if_true, Option.some.injEq] at hcommitted
      exact hcommitted
    have hmem : x ∈ (after inputs m).cur.live := List.mem_of_mem_head? hx
    obtain ⟨k', hk', htag⟩ := live_issuedTag hmem
    rw [hentry, htag] at ht
    obtain ⟨hlt, hfill, -⟩ := Tenants.tenant_eq_some.mp hk'
    obtain rfl := tag_inj hN (by omega) (by omega) (fill_iff.mp hfill).1 ha ht
    have hhead : (after inputs m).cur.head = j := by
      rw [← slotOf_head hs hx]
      exact Tenants.tenant_slot hk' hc
    rw [hv, hhead] at hrelease
    simp at hrelease

/-- So nothing in the buffer has its tag. -/
theorem matchingEntry_departed {N : Nat} (hN : ∀ j < kCapacity, allocations inputs j N < 2 ^ 32) (hn : n ≤ N)
    (ha : accepted inputs k = true) (hd : Departed inputs k n) :
    matchingEntry (issuedTag inputs k) (after inputs n).cur.entries = false := by
  cases hm : matchingEntry (issuedTag inputs k) (after inputs n).cur.entries with
  | false => rfl
  | true =>
    obtain ⟨e, he, ht⟩ := (matchingEntry_iff (wf_after inputs n) _).mp hm
    obtain ⟨k', hk', htag⟩ := live_issuedTag he
    obtain ⟨hlt, hfill, -⟩ := Tenants.tenant_eq_some.mp hk'
    have hkn : k < n := by
      obtain ⟨m, hkm, hmn, -⟩ := hd
      omega
    obtain rfl := tag_inj hN (by omega) (by omega) (fill_iff.mp hfill).1 ha (htag.symm.trans ht)
    exact absurd hk' (departed_tenant hN hn ha hd)

/-- No tag is used twice, so a completion for an entry that is gone changes nothing. -/
theorem tags_never_confused (inputs : Nat → RobInputs) (N : Nat)
    (hN : ∀ j < kCapacity, allocations inputs j N < 2 ^ 32) :
    (∀ k k', k < N → k' < N → accepted inputs k = true → accepted inputs k' = true → k ≠ k' →
      issuedTag inputs k ≠ issuedTag inputs k') ∧
    ∀ k n, n ≤ N → accepted inputs k = true → Departed inputs k n →
      (∀ c : FuResult, c.tag = issuedTag inputs k →
        ∀ next, applyCompletion (after inputs n).cur next c = next) ∧
      ∀ c : StoreCommitCompletion, c.tag = issuedTag inputs k →
        ∀ next, applyStoreCompletion (after inputs n).cur next c = next := by
  refine ⟨fun k k' hk hk' ha ha' hne ht => hne (tag_inj hN hk hk' ha ha' ht), fun k n hn ha hd => ?_⟩
  have hno := matchingEntry_departed hN hn ha hd
  refine ⟨fun c hc next => ?_, fun c hc next => ?_⟩
  · rw [applyCompletion, if_pos (by simp [hc, hno])]
  · rw [applyStoreCompletion, if_pos (by simp [hc, hno])]

/-- A jump goes where it was not predicted to. Its commit flushes the entry issued in cycle 1,
    whose slot the issue of cycle 3 gets. -/
def reusedInputs : Nat → RobInputs
  | 0 =>
    { issueEntry := { tag := ⟨0, 1, true⟩, isJump := true, predictedNextPc := 4, valid := true }, issueValid := true }
  | 1 =>
    { issueEntry := { tag := ⟨1, 1, true⟩, valid := true }, issueValid := true
      completion := { tag := ⟨0, 1, true⟩, actualNextPc := 8, hasControlResult := true, valid := true } }
  | 3 => { issueEntry := { tag := ⟨1, 2, true⟩, valid := true }, issueValid := true }
  | _ => {}

/-- The flushed entry's result comes when its slot has the next entry. -/
theorem tags_never_confused_reused :
    ((after reusedInputs 4).cur.entries 1).tag = ⟨1, 2, true⟩ ∧ issuedTag reusedInputs 1 ≠ issuedTag reusedInputs 3 ∧
      applyCompletion (after reusedInputs 4).cur (after reusedInputs 4).cur { tag := ⟨1, 1, true⟩, valid := true } =
        (after reusedInputs 4).cur := by
  have hfew : ∀ j < kCapacity, allocations reusedInputs j 4 < 2 ^ 32 := by
    intro j _
    have hle : allocations reusedInputs j 4 ≤ 4 := Tenants.lettings_le _ j 4
    omega
  obtain ⟨hdistinct, hlate⟩ := tags_never_confused reusedInputs 4 hfew
  have hdeparted : Departed reusedInputs 1 4 := ⟨2, by decide, by decide, Or.inl (by decide)⟩
  exact ⟨by decide, hdistinct 1 3 (by decide) (by decide) (by decide) (by decide) (by decide),
    (hlate 1 4 (Nat.le_refl 4) (by decide) hdeparted).1 _ rfl _⟩

end ReorderBuffer

end TomasuloCpu
