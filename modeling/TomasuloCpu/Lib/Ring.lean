/-
  TomasuloCpu.Lib.Ring — a ring buffer and the list it holds.

  `Ring` is an array with a head, a tail and a count; `contents n` reads the `count`
  cells from the head on, modulo the capacity `n`, oldest first. Under `Wf` a push
  appends, a pop drops the head, a change of every cell maps, and a change of one cell
  picked by a key that every live cell carries maps at that key. Cells outside the
  window can satisfy a predicate of their own (`Outside`), which a pop that blanks the
  freed cell keeps.
-/
import TomasuloCpu.Lib.Slots
import Mathlib.Data.List.Nodup
import Mathlib.Data.List.Range
import Mathlib.Data.Nat.ModEq

namespace TomasuloCpu

structure Ring (α : Type) where
  cells : Nat → α
  head : Nat
  tail : Nat
  count : Nat

namespace Ring

variable {α : Type} {n : Nat} {q : Ring α}

/-- The cell that holds the `i`-th oldest element. -/
def slot (n : Nat) (q : Ring α) (i : Nat) : Nat := (q.head + i) % n

def contents (n : Nat) (q : Ring α) : List α := (List.range q.count).map fun i => q.cells (q.slot n i)

structure Wf (n : Nat) (q : Ring α) : Prop where
  head_lt : q.head < n
  tail_eq : q.tail = (q.head + q.count) % n
  count_le : q.count ≤ n

def InWindow (n : Nat) (q : Ring α) (j : Nat) : Prop := ∃ i < q.count, j = q.slot n i

/-- Every cell outside the window satisfies `P`. -/
def Outside (n : Nat) (P : α → Prop) (q : Ring α) : Prop := ∀ j, ¬ q.InWindow n j → P (q.cells j)

def push (n : Nat) (q : Ring α) (x : α) : Ring α :=
  { cells := Function.update q.cells q.tail x, head := q.head, tail := (q.tail + 1) % n, count := q.count + 1 }

def pop (n : Nat) (q : Ring α) (blank : α) : Ring α :=
  { cells := Function.update q.cells q.head blank, head := (q.head + 1) % n, tail := q.tail, count := q.count - 1 }

def map {β : Type} (f : α → β) (q : Ring α) : Ring β :=
  { cells := fun j => f (q.cells j), head := q.head, tail := q.tail, count := q.count }

/-- Change the cell at `j`. -/
def modify (q : Ring α) (j : Nat) (f : α → α) : Ring α :=
  { q with cells := Function.update q.cells j (f (q.cells j)) }

/-! ## Slots -/

theorem slot_inj {i j : Nat} (hi : i < n) (hj : j < n) (h : q.slot n i = q.slot n j) : i = j := by
  have hmod : i ≡ j [MOD n] := Nat.ModEq.add_left_cancel' q.head h
  exact Nat.ModEq.eq_of_lt_of_lt hmod hi hj

theorem slot_lt (hn : 0 < n) (i : Nat) : q.slot n i < n := Nat.mod_lt _ hn

@[simp] theorem length_contents : (q.contents n).length = q.count := by simp [contents]

theorem getElem?_contents (i : Nat) (hi : i < q.count) : (q.contents n)[i]? = some (q.cells (q.slot n i)) := by
  simp [contents, hi]

theorem mem_contents {x : α} : x ∈ q.contents n ↔ ∃ i < q.count, q.cells (q.slot n i) = x := by
  simp [contents]

theorem contents_empty (h : q.count = 0) : q.contents n = [] := by simp [contents, h]

/-- The head cell heads the list. -/
theorem contents_cons (hq : q.Wf n) (h : 0 < q.count) :
    q.contents n = q.cells q.head :: (q.contents n).tail := by
  obtain ⟨c, hc⟩ : ∃ c, q.count = c + 1 := ⟨q.count - 1, by omega⟩
  have h0 : q.slot n 0 = q.head := by simp [slot, Nat.mod_eq_of_lt hq.head_lt]
  simp [contents, hc, List.range_succ_eq_map, h0]

theorem head?_contents (hq : q.Wf n) (h : 0 < q.count) : (q.contents n).head? = some (q.cells q.head) := by
  rw [contents_cons hq h]; rfl

/-- The newest element is one cell before the tail. -/
theorem slot_last (hq : q.Wf n) (h : 0 < q.count) : q.slot n (q.count - 1) = (q.tail + n - 1) % n := by
  have hn : 0 < n := Nat.lt_of_le_of_lt (Nat.zero_le _) hq.head_lt
  rw [slot, hq.tail_eq, Nat.add_sub_assoc hn, Nat.mod_add_mod]
  have hsum : q.head + q.count + (n - 1) = q.head + (q.count - 1) + n := by omega
  rw [hsum, Nat.add_mod_right]

theorem getLast?_contents (hq : q.Wf n) (h : 0 < q.count) :
    (q.contents n).getLast? = some (q.cells ((q.tail + n - 1) % n)) := by
  rw [List.getLast?_eq_getElem?, length_contents, getElem?_contents _ (by omega), slot_last hq h]

/-- When exactly the cells of the window satisfy `p`, the occupied cells are the
    contents, in some order. -/
theorem occupied_perm {p : α → Bool} (hq : q.Wf n) (hp : ∀ j < n, p (q.cells j) = true ↔ q.InWindow n j) :
    (Slots.occupied n p q.cells).Perm (q.contents n) := by
  have hn : 0 < n := Nat.lt_of_le_of_lt (Nat.zero_le _) hq.head_lt
  have hslots : ((List.range n).filter fun j => p (q.cells j)).Perm ((List.range q.count).map (q.slot n)) := by
    refine (List.perm_ext_iff_of_nodup (List.nodup_range.filter _) ?_).mpr fun j => ?_
    · refine List.Nodup.map_on (fun i hi j hj h => ?_) List.nodup_range
      have hc := hq.count_le
      exact slot_inj (by have := List.mem_range.mp hi; omega) (by have := List.mem_range.mp hj; omega) h
    · simp only [List.mem_filter, List.mem_range, List.mem_map]
      constructor
      · rintro ⟨hj, hpj⟩
        obtain ⟨i, hi, rfl⟩ := (hp j hj).mp hpj
        exact ⟨i, hi, rfl⟩
      · rintro ⟨i, hi, rfl⟩
        exact ⟨slot_lt hn i, (hp _ (slot_lt hn i)).mpr ⟨i, hi, rfl⟩⟩
  have hmap := hslots.map q.cells
  rw [List.map_map] at hmap
  rw [Slots.occupied, List.filter_map]
  exact hmap

/-! ## Push -/

theorem tail_eq_slot (hq : q.Wf n) : q.tail = q.slot n q.count := hq.tail_eq

theorem tail_not_inWindow (hq : q.Wf n) (room : q.count < n) : ¬ q.InWindow n q.tail := by
  rintro ⟨i, hi, h⟩
  rw [tail_eq_slot hq] at h
  have := slot_inj (by omega) (by omega) h
  omega

theorem wf_push (hq : q.Wf n) (room : q.count < n) (x : α) : (q.push n x).Wf n := by
  refine ⟨hq.head_lt, ?_, room⟩
  show (q.tail + 1) % n = (q.head + (q.count + 1)) % n
  rw [hq.tail_eq, Nat.mod_add_mod, Nat.add_assoc]

theorem contents_push (hq : q.Wf n) (room : q.count < n) (x : α) :
    (q.push n x).contents n = q.contents n ++ [x] := by
  have hold : ∀ i < q.count, Function.update q.cells q.tail x (q.slot n i) = q.cells (q.slot n i) := by
    intro i hi
    exact Function.update_of_ne (fun h => tail_not_inWindow hq room ⟨i, hi, h.symm⟩) _ _
  have hnew : Function.update q.cells q.tail x (q.slot n q.count) = x := by
    rw [← tail_eq_slot hq, Function.update_self]
  show (List.range (q.count + 1)).map (fun i => Function.update q.cells q.tail x (q.slot n i)) = _
  rw [List.range_succ, List.map_append, List.map_singleton, hnew]
  exact congrArg (· ++ [x]) (List.map_congr_left fun i hi => hold i (List.mem_range.mp hi))

theorem inWindow_push (hq : q.Wf n) {x : α} {j : Nat} : (q.push n x).InWindow n j ↔ q.InWindow n j ∨ j = q.tail := by
  constructor
  · rintro ⟨i, hi, rfl⟩
    rcases Nat.lt_succ_iff_lt_or_eq.mp hi with hi | rfl
    · exact Or.inl ⟨i, hi, rfl⟩
    · exact Or.inr (tail_eq_slot hq).symm
  · rintro (⟨i, hi, rfl⟩ | rfl)
    · exact ⟨i, Nat.lt_succ_of_lt hi, rfl⟩
    · exact ⟨q.count, Nat.lt_succ_self _, tail_eq_slot hq⟩

theorem outside_push {P : α → Prop} (hq : q.Wf n) (ho : q.Outside n P) (x : α) : (q.push n x).Outside n P := by
  intro j hj
  rw [inWindow_push hq, not_or] at hj
  show P (Function.update q.cells q.tail x j)
  rw [Function.update_of_ne hj.2]
  exact ho j hj.1

/-! ## Pop -/

theorem slot_pop {b : α} (i : Nat) : (q.pop n b).slot n i = q.slot n (i + 1) := by
  show ((q.head + 1) % n + i) % n = (q.head + (i + 1)) % n
  rw [Nat.mod_add_mod, Nat.add_assoc, Nat.add_comm 1 i]

theorem wf_pop (hq : q.Wf n) (h : 0 < q.count) (b : α) : (q.pop n b).Wf n := by
  have hn : 0 < n := Nat.lt_of_le_of_lt (Nat.zero_le _) hq.head_lt
  refine ⟨Nat.mod_lt _ hn, ?_, ?_⟩
  · show q.tail = ((q.head + 1) % n + (q.count - 1)) % n
    rw [hq.tail_eq, Nat.mod_add_mod, Nat.add_assoc, Nat.add_sub_cancel' h]
  · exact Nat.le_trans (Nat.sub_le _ _) hq.count_le

/-- A pop drops the head, whatever it leaves in the freed cell. -/
theorem contents_pop (hq : q.Wf n) (b : α) : (q.pop n b).contents n = (q.contents n).tail := by
  rcases Nat.eq_zero_or_pos q.count with h | h
  · have h' : (q.pop n b).count = 0 := by show q.count - 1 = 0; omega
    rw [contents_empty h, contents_empty h']; rfl
  · obtain ⟨c, hc⟩ : ∃ c, q.count = c + 1 := ⟨q.count - 1, by omega⟩
    have hne : ∀ i < c, q.slot n (i + 1) ≠ q.head := by
      intro i hi e
      have h0 : q.slot n 0 = q.head := by simp [slot, Nat.mod_eq_of_lt hq.head_lt]
      have := slot_inj (by have := hq.count_le; omega) (by have := hq.count_le; omega) (e.trans h0.symm)
      omega
    have hcell : ∀ i < c, (q.pop n b).cells ((q.pop n b).slot n i) = q.cells (q.slot n (i + 1)) := by
      intro i hi
      rw [slot_pop]
      exact Function.update_of_ne (hne i hi) _ _
    have hpc : (q.pop n b).count = c := by show q.count - 1 = c; omega
    simp only [contents, hpc, hc, List.range_succ_eq_map, List.map_cons, List.tail_cons, List.map_map]
    exact List.map_congr_left fun i hi => hcell i (List.mem_range.mp hi)

theorem inWindow_of_pop (hq : q.Wf n) {b : α} {j : Nat} (h : q.InWindow n j) (hj : j ≠ q.head) :
    (q.pop n b).InWindow n j := by
  obtain ⟨i, hi, rfl⟩ := h
  cases i with
  | zero => exact absurd (by simp [slot, Nat.mod_eq_of_lt hq.head_lt]) hj
  | succ i => exact ⟨i, by show i < q.count - 1; omega, (slot_pop i).symm⟩

theorem outside_pop {P : α → Prop} (hq : q.Wf n) (ho : q.Outside n P) {b : α} (hb : P b) :
    (q.pop n b).Outside n P := by
  intro j hj
  show P (Function.update q.cells q.head b j)
  by_cases e : j = q.head
  · rw [e, Function.update_self]; exact hb
  · rw [Function.update_of_ne e]
    exact ho j fun h => hj (inWindow_of_pop hq h e)

/-! ## Changing cells -/

theorem wf_map {β : Type} {f : α → β} (hq : q.Wf n) : (q.map f).Wf n := ⟨hq.head_lt, hq.tail_eq, hq.count_le⟩

theorem contents_map {β : Type} (f : α → β) : (q.map f).contents n = (q.contents n).map f := by
  simp only [contents, List.map_map]; rfl

theorem outside_map {β : Type} {P : α → Prop} {Q : β → Prop} {f : α → β} (hf : ∀ x, P x → Q (f x))
    (ho : q.Outside n P) : (q.map f).Outside n Q := fun j hj => hf _ (ho j hj)

theorem wf_modify (hq : q.Wf n) (j : Nat) (f : α → α) : (q.modify j f).Wf n :=
  ⟨hq.head_lt, hq.tail_eq, hq.count_le⟩

/-- Changing the cell a key names changes the live elements with that key, when every
    live element's key is its own cell. -/
theorem contents_modify {key : α → Nat} (hk : ∀ i < q.count, key (q.cells (q.slot n i)) = q.slot n i) (j : Nat)
    (f : α → α) : (q.modify j f).contents n = (q.contents n).map fun x => if key x = j then f x else x := by
  simp only [contents, List.map_map]
  apply List.map_congr_left
  intro i hi
  have hki := hk i (List.mem_range.mp hi)
  show Function.update q.cells j (f (q.cells j)) (q.slot n i) = if key (q.cells (q.slot n i)) = j then _ else _
  rw [hki]
  by_cases e : q.slot n i = j
  · rw [if_pos e, ← e, Function.update_self]
  · rw [if_neg e, Function.update_of_ne e]

/-- Changing the head cell changes the head of the list. -/
theorem contents_modify_head (hq : q.Wf n) (f : α → α) :
    (q.modify q.head f).contents n = (q.contents n).modifyHead f := by
  have h0 : q.slot n 0 = q.head := by simp [slot, Nat.mod_eq_of_lt hq.head_lt]
  rcases Nat.eq_zero_or_pos q.count with h | h
  · rw [contents_empty h, contents_empty (q := q.modify q.head f) h]; rfl
  · obtain ⟨c, hc⟩ : ∃ c, q.count = c + 1 := ⟨q.count - 1, by omega⟩
    have hmc : (q.modify q.head f).count = c + 1 := hc
    simp only [contents, hc, hmc, List.range_succ_eq_map, List.map_cons, List.map_map, List.modifyHead_cons]
    congr 1
    · show Function.update q.cells q.head _ (q.slot n 0) = f (q.cells (q.slot n 0))
      rw [h0, Function.update_self]
    · apply List.map_congr_left
      intro i hi
      refine Function.update_of_ne (fun e => ?_) _ _
      have := slot_inj (by have := hq.count_le; have := List.mem_range.mp hi; omega)
        (by have := hq.count_le; omega) (Eq.trans e h0.symm)
      omega

end Ring

end TomasuloCpu
