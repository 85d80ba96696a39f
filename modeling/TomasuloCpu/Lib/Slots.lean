/-
  TomasuloCpu.Lib.Slots — a table of slots and the elements that occupy it.

  A table is a function from slot numbers; `occupied n p` lists, in slot order, the
  elements of the first `n` slots that satisfy `p`. Emptying a slot removes its element
  and filling a free one adds an element, both up to the order of the list.
-/
import Mathlib.Logic.Function.Basic
import Mathlib.Data.List.Perm.Basic
import Mathlib.Data.List.Range

namespace TomasuloCpu

namespace Slots

variable {α : Type} {n : Nat} {f : Nat → α} {p : α → Bool}

def occupied (n : Nat) (p : α → Bool) (f : Nat → α) : List α := ((List.range n).map f).filter p

theorem mem_occupied {x : α} : x ∈ occupied n p f ↔ ∃ i < n, f i = x ∧ p x = true := by
  simp only [occupied, List.mem_filter, List.mem_map, List.mem_range]
  constructor
  · rintro ⟨⟨i, hi, rfl⟩, hp⟩
    exact ⟨i, hi, rfl, hp⟩
  · rintro ⟨i, hi, rfl, hp⟩
    exact ⟨⟨i, hi, rfl⟩, hp⟩

theorem map_update {i : Nat} (hi : i < n) (x : α) :
    (List.range n).map (Function.update f i x) = ((List.range n).map f).set i x := by
  apply List.ext_getElem
  · simp
  · intro j hj hj'
    have hj : j < n := by simpa using hj
    by_cases e : j = i
    · subst e; simp
    · simp [Ne.symm e, Function.update_of_ne e]

/-- The table after writing slot `i` is the old one with the element of slot `i`
    exchanged. -/
theorem map_update_perm {i : Nat} (hi : i < n) (x : α) :
    ∃ rest, ((List.range n).map f).Perm (f i :: rest) ∧ ((List.range n).map (Function.update f i x)).Perm (x :: rest) := by
  have hlen : i < ((List.range n).map f).length := by simpa using hi
  refine ⟨((List.range n).map f).eraseIdx i, ?_, ?_⟩
  · have h := List.getElem_cons_eraseIdx_perm hlen
    simp only [List.getElem_map, List.getElem_range] at h
    exact h.symm
  · rw [map_update hi]
    exact List.set_perm_cons_eraseIdx hlen x

/-- Emptying a slot removes its element. -/
theorem occupied_release {i : Nat} (hi : i < n) (h : p (f i) = true) {x : α} (hx : p x = false) :
    (occupied n p f).Perm (f i :: occupied n p (Function.update f i x)) := by
  obtain ⟨rest, hold, hnew⟩ := map_update_perm (f := f) hi x
  have hold' := hold.filter p
  have hnew' := hnew.filter p
  rw [List.filter_cons_of_pos h] at hold'
  rw [List.filter_cons_of_neg (by simp [hx])] at hnew'
  exact hold'.trans (hnew'.symm.cons _)

/-- Filling a free slot adds an element. -/
theorem occupied_fill {i : Nat} (hi : i < n) (h : p (f i) = false) {x : α} (hx : p x = true) :
    (occupied n p (Function.update f i x)).Perm (x :: occupied n p f) := by
  obtain ⟨rest, hold, hnew⟩ := map_update_perm (f := f) hi x
  have hold' := hold.filter p
  have hnew' := hnew.filter p
  rw [List.filter_cons_of_neg (by simp [h])] at hold'
  rw [List.filter_cons_of_pos hx] at hnew'
  exact hnew'.trans (hold'.symm.cons _)

/-- A change of every slot that respects `p` changes every occupant. -/
theorem occupied_map {g : α → α} (hg : ∀ x, p (g x) = p x) :
    occupied n p (fun i => g (f i)) = (occupied n p f).map g := by
  have hcomp : p ∘ g = p := funext hg
  have hmap : (List.range n).map (fun i => g (f i)) = ((List.range n).map f).map g := by rw [List.map_map]; rfl
  rw [occupied, occupied, hmap, List.filter_map, hcomp]

/-- The slots whose element has a key are as many as the occupants with that key. -/
theorem length_filter_key {κ : Type} [DecidableEq κ] (key : α → κ) (k : κ) :
    ((List.range n).filter fun i => p (f i) && key (f i) == k).length = ((occupied n p f).map key).count k := by
  rw [← List.countP_eq_length_filter, List.count, List.countP_map, occupied, List.countP_filter, List.countP_map]
  refine List.countP_congr fun i _ => ?_
  simp [Bool.and_comm]

theorem occupied_blank {x : α} (hx : p x = false) : occupied n p (fun _ => x) = [] := by
  simp [occupied, hx]

end Slots

end TomasuloCpu
