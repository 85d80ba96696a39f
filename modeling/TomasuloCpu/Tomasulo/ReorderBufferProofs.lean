/-
  TomasuloCpu.Tomasulo.ReorderBufferProofs — the reorder buffer as a bounded queue.

  `live` is the list of entries from head to tail. Under `Wf` (the ring is well formed,
  every live entry is valid and tagged with its own slot and that slot's generation,
  every other slot is blank) the queries are list queries (`front_eq`, `lookup_eq`,
  `matchingEntry_iff`), and one cycle is `live_step`: completions rewrite the entries
  they name, a commit drops the head, a flush empties the list, an accepted issue
  appends. `wf_step` keeps `Wf`.
-/
import TomasuloCpu.Lib.Ring
import TomasuloCpu.Tomasulo.ReorderBuffer

namespace TomasuloCpu

namespace RobState

def ring (s : RobState) : Ring RobEntry := ⟨s.entries, s.head, s.tail, s.count⟩

/-- The live entries, oldest first. -/
def live (s : RobState) : List RobEntry := s.ring.contents ReorderBuffer.kCapacity

def tags (l : List RobEntry) : List RobTag := l.map (·.tag)

/-- The slot a tag names. -/
def slotOf (e : RobEntry) : Nat := e.tag.index.toNat

/-- The tag of a valid entry in slot `j`. -/
def slotTag (s : RobState) (j : Nat) : RobTag := ⟨BitVec.ofNat 32 j, s.generations j, true⟩

structure Wf (s : RobState) : Prop where
  ring : s.ring.Wf ReorderBuffer.kCapacity
  tagged : ∀ i < s.count, (s.entries (s.ring.slot ReorderBuffer.kCapacity i)).valid = true ∧
    (s.entries (s.ring.slot ReorderBuffer.kCapacity i)).tag = s.slotTag (s.ring.slot ReorderBuffer.kCapacity i)
  blank : s.ring.Outside ReorderBuffer.kCapacity (· = {})

end RobState

namespace ReorderBuffer

open RobState

variable {s : RobState}

/-! ## Live entries and their tags -/

theorem slot_lt (i : Nat) : s.ring.slot kCapacity i < 32 := Ring.slot_lt (by decide) i

theorem length_live : s.live.length = s.count := Ring.length_contents

theorem slotTag_index {j : Nat} (h : j < 32) : (s.slotTag j).index.toNat = j := by
  simp only [slotTag, BitVec.toNat_ofNat]; omega

theorem mem_live {e : RobEntry} :
    e ∈ s.live ↔ ∃ i < s.count, s.entries (s.ring.slot kCapacity i) = e := Ring.mem_contents

theorem live_tagged (hs : s.Wf) {e : RobEntry} (he : e ∈ s.live) :
    e.valid = true ∧ slotOf e < 32 ∧ e = s.entries (slotOf e) ∧ e.tag = s.slotTag (slotOf e) := by
  obtain ⟨i, hi, rfl⟩ := mem_live.mp he
  obtain ⟨hv, ht⟩ := hs.tagged i hi
  have hslot : slotOf (s.entries (s.ring.slot kCapacity i)) = s.ring.slot kCapacity i := by
    rw [slotOf, ht, slotTag_index (slot_lt i)]
  rw [hslot]
  exact ⟨hv, slot_lt i, rfl, ht⟩

theorem live_tag_valid (hs : s.Wf) {e : RobEntry} (he : e ∈ s.live) : e.tag.valid = true := by
  rw [(live_tagged hs he).2.2.2]; rfl

/-- Live entries with one tag are one entry. -/
theorem live_tag_inj (hs : s.Wf) {e f : RobEntry} (he : e ∈ s.live) (hf : f ∈ s.live) (h : e.tag = f.tag) : e = f := by
  have hslot : slotOf e = slotOf f := by rw [slotOf, slotOf, h]
  rw [(live_tagged hs he).2.2.1, (live_tagged hs hf).2.2.1, hslot]

theorem nodup_tags (hs : s.Wf) : (tags s.live).Nodup := by
  have hcount : s.count ≤ 32 := hs.ring.count_le
  have hslots : tags s.live =
      (List.range s.count).map fun i => s.slotTag (s.ring.slot kCapacity i) := by
    simp only [tags, live, Ring.contents, List.map_map]
    exact List.map_congr_left fun i hi => (hs.tagged i (List.mem_range.mp hi)).2
  rw [hslots]
  refine List.Nodup.map_on (fun i hi j hj h => ?_) List.nodup_range
  have h' := congrArg (fun t : RobTag => t.index.toNat) h
  simp only [slotTag_index (slot_lt _)] at h'
  exact Ring.slot_inj (by have := List.mem_range.mp hi; show i < 32; omega)
    (by have := List.mem_range.mp hj; show j < 32; omega) h'

/-- `matching_entry` finds exactly the live tags. -/
theorem matchingEntry_iff (hs : s.Wf) (t : RobTag) :
    matchingEntry t s.entries = true ↔ ∃ e ∈ s.live, e.tag = t := by
  constructor
  · intro h
    unfold matchingEntry at h
    split at h
    · cases h
    · rename_i hv
      simp only [] at h
      split at h
      · cases h
      · simp only [Bool.and_eq_true, beq_iff_eq] at h
        refine ⟨s.entries t.index.toNat, mem_live.mpr ?_, h.2⟩
        by_cases hw : s.ring.InWindow kCapacity t.index.toNat
        · obtain ⟨i, hi, e⟩ := hw
          exact ⟨i, hi, by rw [← e]⟩
        · have hb : s.entries t.index.toNat = {} := hs.blank _ hw
          rw [hb] at h
          cases h.1
  · rintro ⟨e, he, rfl⟩
    obtain ⟨hv, hlt, heq, -⟩ := live_tagged hs he
    have htv := live_tag_valid hs he
    unfold matchingEntry
    rw [if_neg (by simp [htv])]
    simp only []
    rw [if_neg (by unfold slotOf at hlt; show ¬ 32 ≤ e.tag.index.toNat; omega)]
    have heq' : s.entries e.tag.index.toNat = e := heq.symm
    simp [heq', hv]

theorem lookup_eq (hs : s.Wf) {e : RobEntry} (he : e ∈ s.live) : lookup s e.tag = some e := by
  unfold lookup
  rw [if_pos ((matchingEntry_iff hs e.tag).mpr ⟨e, he, rfl⟩)]
  exact congrArg some (live_tagged hs he).2.2.1.symm

theorem front_eq (hs : s.Wf) : front s = s.live.head? := by
  unfold front
  by_cases hc : s.count = 0
  · have hl : s.live = [] := List.eq_nil_of_length_eq_zero (by rw [length_live, hc])
    simp [empty, hc, hl]
  · have hcons := Ring.contents_cons hs.ring (Nat.pos_of_ne_zero hc : 0 < s.ring.count)
    have hhead : s.entries s.head ∈ s.live := by
      rw [live, hcons]; exact List.mem_cons_self
    have hv := (live_tagged hs hhead).1
    rw [if_neg (by simp [empty, hc]), if_pos hv, live, hcons]
    rfl

theorem full_eq : full s = (s.live.length == 32) := by rw [length_live]; rfl

theorem empty_eq : empty s = (s.live.length == 0) := by rw [length_live]; rfl

theorem resetState_wf : resetState.Wf :=
  ⟨⟨by decide, rfl, by decide⟩, fun _ h => absurd h (Nat.not_lt_zero _), fun _ _ => rfl⟩

@[simp] theorem resetState_live : resetState.live = [] := rfl

/-! ## Completions -/

/-- What a CDB completion does to a live entry. -/
def complete (c : FuResult) (e : RobEntry) : RobEntry :=
  if c.valid && e.tag == c.tag then completeEntry c e else e

/-- What a store completion does to a live entry. -/
def storeComplete (c : StoreCommitCompletion) (e : RobEntry) : RobEntry :=
  if c.valid && (e.tag == c.tag && e.isStore) then { e with ready := true } else e

/-- Both completions of a cycle. -/
def finish (c : FuResult) (sc : StoreCommitCompletion) (e : RobEntry) : RobEntry :=
  storeComplete sc (complete c e)

/-- A rewrite of an entry that keeps its tag and its valid bit. -/
structure Keeps (f : RobEntry → RobEntry) : Prop where
  tag : ∀ e, (f e).tag = e.tag
  valid : ∀ e, (f e).valid = e.valid

theorem completeEntry_keeps (c : FuResult) : Keeps (completeEntry c) := by
  constructor <;> intro e <;> unfold completeEntry <;> simp only [] <;> split <;> rfl

theorem map_fixed {f : RobEntry → RobEntry} {l : List RobEntry} (h : ∀ e ∈ l, f e = e) : l.map f = l :=
  (List.map_congr_left h).trans (List.map_id l)

theorem rewrite_wf (hs : s.Wf) {f : RobEntry → RobEntry} (hf : Keeps f) {e : RobEntry} (he : e ∈ s.live) :
    { s with entries := Function.update s.entries (slotOf e) (f (s.entries (slotOf e))) }.Wf := by
  refine ⟨Ring.wf_modify hs.ring (slotOf e) f, fun i hi => ?_, fun j hj => ?_⟩
  · obtain ⟨hv, ht⟩ := hs.tagged i hi
    show (Function.update s.entries (slotOf e) (f (s.entries (slotOf e))) _).valid = true ∧
      (Function.update s.entries (slotOf e) (f (s.entries (slotOf e))) _).tag = _
    by_cases h : s.ring.slot kCapacity i = slotOf e
    · have h' : Ring.slot kCapacity (ring { s with
          entries := Function.update s.entries (slotOf e) (f (s.entries (slotOf e))) }) i = slotOf e := h
      rw [h', Function.update_self, hf.valid, hf.tag, ← h]
      exact ⟨hv, ht⟩
    · have h' : Ring.slot kCapacity (ring { s with
          entries := Function.update s.entries (slotOf e) (f (s.entries (slotOf e))) }) i ≠ slotOf e := h
      rw [Function.update_of_ne h']
      exact ⟨hv, ht⟩
  · obtain ⟨i, hi, hc⟩ := mem_live.mp he
    have hne : j ≠ slotOf e := by
      rintro rfl
      refine hj ⟨i, hi, ?_⟩
      have h := (hs.tagged i hi).2
      rw [hc] at h
      rw [slotOf, h, slotTag_index (slot_lt i)]
      rfl
    show Function.update s.entries (slotOf e) (f (s.entries (slotOf e))) j = {}
    rw [Function.update_of_ne hne]
    exact hs.blank j hj

theorem rewrite_live (hs : s.Wf) {f : RobEntry → RobEntry} {e : RobEntry} (he : e ∈ s.live) :
    { s with entries := Function.update s.entries (slotOf e) (f (s.entries (slotOf e))) }.live =
      s.live.map fun x => if x.tag = e.tag then f x else x := by
  have hkey : ∀ i < s.ring.count, slotOf (s.ring.cells (s.ring.slot kCapacity i)) = s.ring.slot kCapacity i := by
    intro i hi
    rw [slotOf, show (s.ring.cells _).tag = _ from (hs.tagged i hi).2, slotTag_index (slot_lt i)]
  refine (Ring.contents_modify hkey (slotOf e) f).trans (List.map_congr_left fun x hx => ?_)
  have hiff : slotOf x = slotOf e ↔ x.tag = e.tag := by
    refine ⟨fun h => ?_, fun h => by rw [slotOf, slotOf, h]⟩
    rw [(live_tagged hs hx).2.2.2, (live_tagged hs he).2.2.2, h]
  simp only [hiff]

theorem applyCompletion_spec (hs : s.Wf) (c : FuResult) :
    (applyCompletion s s c).Wf ∧ (applyCompletion s s c).live = s.live.map (complete c) := by
  unfold applyCompletion
  by_cases hv : c.valid = true
  · by_cases hm : matchingEntry c.tag s.entries = true
    · obtain ⟨e, he, ht⟩ := (matchingEntry_iff hs _).mp hm
      rw [if_neg (by simp [hv, hm])]
      simp only [← ht]
      refine ⟨rewrite_wf hs (completeEntry_keeps c) he, (rewrite_live hs he).trans ?_⟩
      exact List.map_congr_left fun x _ => by simp [complete, hv, ht]
    · rw [if_pos (by simp [hm])]
      refine ⟨hs, ?_⟩
      have hne : ∀ x ∈ s.live, complete c x = x := by
        intro x hx
        have : x.tag ≠ c.tag := fun h => hm ((matchingEntry_iff hs _).mpr ⟨x, hx, h⟩)
        simp [complete, this]
      exact (map_fixed hne).symm
  · rw [if_pos (by simp [hv])]
    have hc : complete c = id := by funext x; simp [complete, hv]
    exact ⟨hs, by rw [hc, List.map_id]⟩

/-- The store completion finds its entry by the tags alone, so the rewrite of a CDB
    completion in the same cycle does not hide it. -/
theorem applyStoreCompletion_spec {cur : RobState} (hcur : cur.Wf) (hs : s.Wf) (ht : tags s.live = tags cur.live)
    (c : StoreCommitCompletion) :
    (applyStoreCompletion cur s c).Wf ∧ (applyStoreCompletion cur s c).live = s.live.map (storeComplete c) := by
  have hsame : (∃ e ∈ cur.live, e.tag = c.tag) ↔ ∃ e ∈ s.live, e.tag = c.tag := by
    simpa [tags] using (congrArg (c.tag ∈ ·) ht).to_iff.symm
  unfold applyStoreCompletion
  by_cases hv : c.valid = true
  · by_cases hm : matchingEntry c.tag cur.entries = true
    · obtain ⟨e, he, het⟩ := hsame.mp ((matchingEntry_iff hcur _).mp hm)
      have hentry : s.entries c.tag.index.toNat = e := by rw [← het]; exact (live_tagged hs he).2.2.1.symm
      rw [if_neg (by simp [hv, hm])]
      simp only [hentry]
      by_cases hst : e.isStore = true
      · rw [if_neg (by simp [hst])]
        have hk : Keeps fun x : RobEntry => { x with ready := true } := ⟨fun _ => rfl, fun _ => rfl⟩
        have hw := rewrite_wf hs hk he
        have hl := rewrite_live hs (f := fun x => { x with ready := true }) he
        rw [slotOf, het, hentry] at hw hl
        refine ⟨hw, hl.trans (List.map_congr_left fun x hx => ?_)⟩
        by_cases hx' : x.tag = c.tag
        · have : x = e := live_tag_inj hs hx he (hx'.trans het.symm)
          simp [storeComplete, hv, het, this, hst]
        · simp [storeComplete, hx']
      · rw [if_pos (by simp [hst])]
        refine ⟨hs, ?_⟩
        have hne : ∀ x ∈ s.live, storeComplete c x = x := by
          intro x hx
          by_cases hx' : x.tag = c.tag
          · have : x = e := live_tag_inj hs hx he (hx'.trans het.symm)
            simp [storeComplete, this, hst]
          · simp [storeComplete, hx']
        exact (map_fixed hne).symm
    · rw [if_pos (by simp [hm])]
      refine ⟨hs, ?_⟩
      have hne : ∀ x ∈ s.live, storeComplete c x = x := by
        intro x hx
        have : x.tag ≠ c.tag := fun h => hm ((matchingEntry_iff hcur _).mpr (hsame.mpr ⟨x, hx, h⟩))
        simp [storeComplete, this]
      exact (map_fixed hne).symm
  · rw [if_pos (by simp [hv])]
    have hc : storeComplete c = id := by funext x; simp [storeComplete, hv]
    exact ⟨hs, by rw [hc, List.map_id]⟩

theorem complete_tag (c : FuResult) (e : RobEntry) : (complete c e).tag = e.tag := by
  unfold complete; split
  · exact (completeEntry_keeps c).tag e
  · rfl

theorem storeComplete_tag (c : StoreCommitCompletion) (e : RobEntry) : (storeComplete c e).tag = e.tag := by
  unfold storeComplete; split <;> rfl

@[simp] theorem finish_tag (c : FuResult) (sc : StoreCommitCompletion) (e : RobEntry) :
    (finish c sc e).tag = e.tag := by
  rw [finish, storeComplete_tag, complete_tag]

/-- Completions leave what the issue wrote. -/
theorem finish_frame (c : FuResult) (sc : StoreCommitCompletion) (e : RobEntry) :
    (finish c sc e).op = e.op ∧ (finish c sc e).pc = e.pc ∧ (finish c sc e).rd = e.rd ∧
      (finish c sc e).writesRd = e.writesRd ∧ (finish c sc e).predictedNextPc = e.predictedNextPc ∧
      (finish c sc e).isBranch = e.isBranch ∧ (finish c sc e).isStore = e.isStore ∧
      (finish c sc e).isJump = e.isJump := by
  unfold finish storeComplete complete completeEntry
  simp only []
  repeat' split
  all_goals exact ⟨rfl, rfl, rfl, rfl, rfl, rfl, rfl, rfl⟩

theorem finish_ready (c : FuResult) (sc : StoreCommitCompletion) (e : RobEntry) :
    (finish c sc e).ready =
      (e.ready || (c.valid && e.tag == c.tag) || (sc.valid && e.tag == sc.tag && e.isStore)) := by
  have hs : (complete c e).isStore = e.isStore := by
    unfold complete completeEntry
    simp only []
    repeat' split
    all_goals rfl
  have hc : (complete c e).ready = (e.ready || (c.valid && e.tag == c.tag)) := by
    unfold complete completeEntry
    simp only []
    split
    · rename_i h
      split <;> simp [h]
    · rename_i h
      simp [h]
  unfold finish storeComplete
  rw [complete_tag, hs]
  split
  · rename_i h
    simp only [Bool.and_eq_true] at h
    simp [h.1, h.2]
  · rename_i h
    rw [hc]
    rw [Bool.and_assoc]
    simp [h]

/-- A rewrite that keeps tags keeps the list of tags. -/
theorem tags_map {f : RobEntry → RobEntry} (hf : ∀ e, (f e).tag = e.tag) (l : List RobEntry) :
    tags (l.map f) = tags l := by
  simp only [tags, List.map_map]
  exact List.map_congr_left fun e _ => hf e

/-- The queue after the two completions of a cycle. -/
def completed (s : RobState) (inputs : RobInputs) : RobState :=
  applyStoreCompletion s (applyCompletion s s inputs.completion) inputs.storeCompletion

theorem completed_spec (hs : s.Wf) (inputs : RobInputs) :
    (completed s inputs).Wf ∧
      (completed s inputs).live = s.live.map (finish inputs.completion inputs.storeCompletion) := by
  obtain ⟨hw, hl⟩ := applyCompletion_spec hs inputs.completion
  have ht : tags (applyCompletion s s inputs.completion).live = tags s.live := by
    rw [hl, tags_map (complete_tag _)]
  obtain ⟨hw', hl'⟩ := applyStoreCompletion_spec hs hw ht inputs.storeCompletion
  exact ⟨hw', by rw [completed, hl', hl, List.map_map]; rfl⟩

theorem applyCompletion_frame (cur next : RobState) (c : FuResult) :
    (applyCompletion cur next c).generations = next.generations ∧ (applyCompletion cur next c).head = next.head ∧
      (applyCompletion cur next c).tail = next.tail ∧ (applyCompletion cur next c).count = next.count := by
  unfold applyCompletion; split <;> exact ⟨rfl, rfl, rfl, rfl⟩

theorem applyStoreCompletion_frame (cur next : RobState) (c : StoreCommitCompletion) :
    (applyStoreCompletion cur next c).generations = next.generations ∧
      (applyStoreCompletion cur next c).head = next.head ∧
      (applyStoreCompletion cur next c).tail = next.tail ∧ (applyStoreCompletion cur next c).count = next.count := by
  unfold applyStoreCompletion
  split
  · exact ⟨rfl, rfl, rfl, rfl⟩
  · simp only []
    split <;> exact ⟨rfl, rfl, rfl, rfl⟩

/-- Completions move no index and no generation. -/
theorem completed_frame (s : RobState) (inputs : RobInputs) :
    (completed s inputs).generations = s.generations ∧ (completed s inputs).head = s.head ∧
      (completed s inputs).tail = s.tail ∧ (completed s inputs).count = s.count := by
  obtain ⟨hg, hh, ht, hc⟩ := applyStoreCompletion_frame s (applyCompletion s s inputs.completion) inputs.storeCompletion
  obtain ⟨hg', hh', ht', hc'⟩ := applyCompletion_frame s s inputs.completion
  exact ⟨hg.trans hg', hh.trans hh', ht.trans ht', hc.trans hc'⟩

/-! ## Commit and flush -/

theorem popHead_spec (hs : s.Wf) (h : 0 < s.count) :
    (popHead s).Wf ∧ (popHead s).live = s.live.tail := by
  have hring : (popHead s).ring = s.ring.pop kCapacity {} := rfl
  refine ⟨⟨by rw [hring]; exact Ring.wf_pop hs.ring h _, fun i hi => ?_, ?_⟩, ?_⟩
  · have hi' : i + 1 < s.count := by
      have : i < s.count - 1 := hi
      omega
    obtain ⟨hv, ht⟩ := hs.tagged (i + 1) hi'
    have h0 : s.ring.slot kCapacity 0 = s.head := Nat.mod_eq_of_lt hs.ring.head_lt
    have hne : s.ring.slot kCapacity (i + 1) ≠ s.head := by
      intro e
      have := Ring.slot_inj (by have := hs.ring.count_le; show i + 1 < kCapacity; have : s.count ≤ kCapacity := this; omega)
        (show 0 < kCapacity by decide) (e.trans h0.symm)
      omega
    rw [hring, Ring.slot_pop]
    show (Function.update s.entries s.head {} _).valid = true ∧ (Function.update s.entries s.head {} _).tag = _
    rw [Function.update_of_ne hne]
    exact ⟨hv, ht⟩
  · rw [hring]; exact Ring.outside_pop hs.ring hs.blank rfl
  · rw [RobState.live, hring]; exact Ring.contents_pop hs.ring _

theorem clearSpeculativeEntries_spec (s : RobState) {j : Nat} (hj : j < kCapacity) :
    (clearSpeculativeEntries s j).Wf ∧ (clearSpeculativeEntries s j).live = [] :=
  ⟨⟨⟨hj, (Nat.mod_eq_of_lt hj).symm, Nat.zero_le _⟩, fun _ h => absurd h (Nat.not_lt_zero _), fun _ _ => rfl⟩, rfl⟩

theorem plan_commit_valid (hs : s.Wf) :
    (plan s).outputs.commit.valid = true ↔ ∃ h, s.live.head? = some h ∧ h.ready = true := by
  simp only [plan, front_eq hs]
  cases s.live.head? with
  | none => simp [planCommit]
  | some h =>
    by_cases hr : h.ready = true
    · simp [planCommit, hr]
    · simp [planCommit, hr]

/-- A flush is a commit. -/
theorem plan_flush_commit (s : RobState) (h : (plan s).outputs.flush = true) :
    (plan s).outputs.commit.valid = true := by
  simp only [plan, planCommit] at h ⊢
  split at h
  · split at h
    · rw [if_pos (by assumption)]
    · cases h
  · cases h

/-- The queue after the completions and the commit. -/
def committed (s : RobState) (inputs : RobInputs) : RobState :=
  applyCommit (completed s inputs) (plan s).outputs

theorem committed_spec (hs : s.Wf) (inputs : RobInputs) :
    (committed s inputs).Wf ∧
      (committed s inputs).live =
        if (plan s).outputs.flush then []
        else if (plan s).outputs.commit.valid then
          (s.live.map (finish inputs.completion inputs.storeCompletion)).tail
        else s.live.map (finish inputs.completion inputs.storeCompletion) := by
  obtain ⟨hw, hl⟩ := completed_spec hs inputs
  unfold committed applyCommit
  by_cases hc : (plan s).outputs.commit.valid = true
  · rw [if_pos hc]
    obtain ⟨h, hh, -⟩ := (plan_commit_valid hs).mp hc
    have hpos : 0 < (completed s inputs).count := by
      rw [(completed_frame s inputs).2.2.2, ← length_live]
      exact List.length_pos_of_mem (List.mem_of_mem_head? hh)
    obtain ⟨hpw, hpl⟩ := popHead_spec hw hpos
    by_cases hf : (plan s).outputs.flush = true
    · simp only [hf, if_true]
      exact clearSpeculativeEntries_spec _ hpw.ring.head_lt
    · simp only [hf, if_false, if_pos hc, Bool.false_eq_true]
      exact ⟨hpw, by rw [hpl, hl]⟩
  · have hf : (plan s).outputs.flush ≠ true := fun h => hc (plan_flush_commit s h)
    rw [if_neg hc, if_neg hf, if_neg hc]
    exact ⟨hw, hl⟩

theorem committed_frame (inputs : RobInputs) (hf : (plan s).outputs.flush = false) :
    (committed s inputs).generations = s.generations ∧ (committed s inputs).tail = s.tail ∧
      (committed s inputs).count ≤ s.count := by
  obtain ⟨hg, -, ht, hc⟩ := completed_frame s inputs
  unfold committed applyCommit
  split
  · simp only [hf, Bool.false_eq_true, if_false]
    refine ⟨hg, ht, ?_⟩
    show (completed s inputs).count - 1 ≤ s.count
    omega
  · exact ⟨hg, ht, hc.le⟩

/-! ## Issue -/

theorem nextTag_of_room (h : s.count < 32) :
    nextTag s = ⟨BitVec.ofNat 32 s.tail, s.generations s.tail + 1, true⟩ := by
  have hf : full s = false := by simp [full, kCapacity]; omega
  simp [nextTag, hf, followingGeneration]

theorem allocate_spec (hs : s.Wf) (room : s.count < 32) (entry : RobEntry) (g : TagGeneration) :
    (allocate s entry ⟨BitVec.ofNat 32 s.tail, g, true⟩).Wf ∧
      (allocate s entry ⟨BitVec.ofNat 32 s.tail, g, true⟩).live =
        s.live ++ [{ entry with tag := ⟨BitVec.ofNat 32 s.tail, g, true⟩, valid := true }] := by
  have hring : (allocate s entry ⟨BitVec.ofNat 32 s.tail, g, true⟩).ring =
      s.ring.push kCapacity { entry with tag := ⟨BitVec.ofNat 32 s.tail, g, true⟩, valid := true } := rfl
  refine ⟨⟨by rw [hring]; exact Ring.wf_push hs.ring room _, fun i hi => ?_, ?_⟩, ?_⟩
  · have hslot : (allocate s entry ⟨BitVec.ofNat 32 s.tail, g, true⟩).ring.slot kCapacity i =
        s.ring.slot kCapacity i := rfl
    rw [hslot]
    show (Function.update s.entries s.tail _ _).valid = true ∧ (Function.update s.entries s.tail _ _).tag =
      ⟨_, Function.update s.generations s.tail g _, true⟩
    by_cases e : i = s.count
    · have ht : s.ring.slot kCapacity i = s.tail := by
        rw [e]; exact (Ring.tail_eq_slot hs.ring).symm
      simp [ht]
    · have hi' : i < s.count := by
        have : i < s.count + 1 := hi
        omega
      have hne : s.ring.slot kCapacity i ≠ s.tail := fun h =>
        Ring.tail_not_inWindow hs.ring room ⟨i, hi', h.symm⟩
      rw [Function.update_of_ne hne, Function.update_of_ne hne]
      exact hs.tagged i hi'
  · rw [hring]; exact Ring.outside_push hs.ring hs.blank _
  · rw [RobState.live, hring]; exact Ring.contents_push hs.ring room _

theorem accepts_room {inputs : RobInputs} {decision : RobDecision} (h : accepts s inputs decision = true) :
    s.count ≠ 32 ∧ decision.outputs.flush = false ∧ inputs.issueValid = true ∧ inputs.issueEntry.valid = true ∧
      inputs.issueEntry.tag = nextTag s := by
  simp only [accepts, full, kCapacity, Bool.and_eq_true, Bool.not_eq_true', beq_eq_false_iff_ne, beq_iff_eq] at h
  obtain ⟨⟨⟨hf, hi⟩, hc⟩, hv, ht⟩ := h
  exact ⟨hc, hf, hi, hv, ht⟩

/-- The entry an accepted issue appends. -/
def issuedEntry (s : RobState) (inputs : RobInputs) : RobEntry :=
  { inputs.issueEntry with tag := nextTag s, valid := true }

/-! ## One cycle -/

theorem step_plan (s : RobState) (inputs : RobInputs) : step s inputs (plan s) =
    if accepts s inputs (plan s) then (true, allocate (committed s inputs) inputs.issueEntry (nextTag s))
    else (false, committed s inputs) := rfl

theorem step_spec (hs : s.Wf) (inputs : RobInputs) :
    (step s inputs (plan s)).2.Wf ∧
      (step s inputs (plan s)).2.live =
        (if (plan s).outputs.flush then []
          else if (plan s).outputs.commit.valid then
            (s.live.map (finish inputs.completion inputs.storeCompletion)).tail
          else s.live.map (finish inputs.completion inputs.storeCompletion)) ++
        if accepts s inputs (plan s) then [issuedEntry s inputs] else [] := by
  obtain ⟨hw, hl⟩ := committed_spec hs inputs
  rw [step_plan]
  by_cases ha : accepts s inputs (plan s) = true
  · obtain ⟨hc, hf, -⟩ := accepts_room ha
    obtain ⟨-, ht, hle⟩ := committed_frame inputs hf
    have hcount : s.count < 32 := Nat.lt_of_le_of_ne hs.ring.count_le hc
    have hspec := allocate_spec hw (by omega) inputs.issueEntry (s.generations s.tail + 1)
    rw [ht, ← nextTag_of_room hcount] at hspec
    simp only [if_pos ha]
    exact ⟨hspec.1, by rw [hspec.2, hl]; rfl⟩
  · simp only [if_neg ha, List.append_nil]
    exact ⟨hw, hl⟩

/-- A generation changes only by an accepted issue, and then its slot's goes up by one. -/
theorem step_generations (hs : s.Wf) (inputs : RobInputs) :
    (step s inputs (plan s)).2.generations =
      if accepts s inputs (plan s) then Function.update s.generations s.tail (s.generations s.tail + 1)
      else s.generations := by
  rw [step_plan]
  by_cases ha : accepts s inputs (plan s) = true
  · obtain ⟨hc, hf, -⟩ := accepts_room ha
    obtain ⟨hg, ht, -⟩ := committed_frame inputs hf
    have hcount : s.count < 32 := Nat.lt_of_le_of_ne hs.ring.count_le hc
    simp only [if_pos ha, allocate, hg, ht, nextTag_of_room hcount]
  · simp only [if_neg ha]
    unfold committed applyCommit
    split
    · simp only []
      split <;> exact (completed_frame s inputs).1
    · exact (completed_frame s inputs).1

end ReorderBuffer

end TomasuloCpu
