/-
  TomasuloCpu.Lib.Keyed — a queue of keyed elements.

  The elements of a queue carry keys that are pairwise different. `pending p` is the
  list of the keys of the elements that satisfy `p`, `latest p` the key of the youngest
  of them, `Before a b` says that `a` is the key of an older element than `b`. Each is
  followed through the three things that happen to a queue: a change of its elements
  that keeps their keys, a removal of the head, an append.
-/
import Mathlib.Data.List.NodupEquivFin
import Mathlib.Data.List.Perm.Basic

namespace TomasuloCpu

namespace Keyed

variable {α κ : Type} {key : α → κ} {p : α → Bool} {l : List α}

/-! ## Keys -/

theorem map_keys {f : α → α} (hf : ∀ x, key (f x) = key x) (l : List α) : (l.map f).map key = l.map key := by
  rw [List.map_map]
  exact List.map_congr_left fun x _ => hf x

theorem inj (hn : (l.map key).Nodup) {x y : α} (hx : x ∈ l) (hy : y ∈ l) (h : key x = key y) : x = y :=
  List.inj_on_of_nodup_map hn hx hy h

/-! ## Pending keys -/

def pending (key : α → κ) (p : α → Bool) (l : List α) : List κ := (l.filter p).map key

theorem mem_pending {k : κ} : k ∈ pending key p l ↔ ∃ x ∈ l, p x = true ∧ key x = k := by
  simp only [pending, List.mem_map, List.mem_filter, and_assoc]

theorem pending_sublist (key : α → κ) (p : α → Bool) (l : List α) : (pending key p l).Sublist (l.map key) :=
  List.filter_sublist.map key

theorem nodup_pending (hn : (l.map key).Nodup) : (pending key p l).Nodup := hn.sublist (pending_sublist key p l)

/-- The pending key of an element of the queue says that the element itself satisfies `p`. -/
theorem of_key_mem_pending (hn : (l.map key).Nodup) {x : α} (hx : x ∈ l) (h : key x ∈ pending key p l) : p x = true := by
  obtain ⟨y, hy, hp, hk⟩ := mem_pending.mp h
  rw [← inj hn hy hx hk]
  exact hp

theorem pending_disjoint (hn : (l.map key).Nodup) {q : α → Bool} (hpq : ∀ x, p x = true → q x = true → False)
    {k : κ} (h : k ∈ pending key p l) : k ∉ pending key q l := by
  obtain ⟨x, hx, hp, rfl⟩ := mem_pending.mp h
  exact fun hq => hpq x hp (of_key_mem_pending hn hx hq)

/-- After a change that settles the elements whose key is `done`, the pending keys are
    the others. -/
theorem pending_map {f : α → α} (hf : ∀ x, key (f x) = key x) {done : κ → Bool}
    (hp : ∀ x ∈ l, p (f x) = (p x && !done (key x))) :
    pending key p (l.map f) = (pending key p l).filter fun k => !done k := by
  induction l with
  | nil => rfl
  | cons x t ih =>
    have hx := hp x List.mem_cons_self
    have ht := ih fun y hy => hp y (List.mem_cons_of_mem x hy)
    simp only [pending, List.map_cons] at ht ⊢
    rw [List.filter_cons, @List.filter_cons _ _ t]
    by_cases h1 : p x = true
    · by_cases h2 : done (key x) = true
      · simp [hx, h1, h2, ht]
      · simp [hx, h1, h2, ht, hf]
    · simp [hx, h1, ht]

theorem pending_tail {x : α} (h : p x = false) : pending key p (x :: l) = pending key p l := by
  simp [pending, h]

theorem pending_append (l r : List α) : pending key p (l ++ r) = pending key p l ++ pending key p r := by
  simp [pending]

/-! ## The youngest element of a kind -/

/-- Before the element with the first pending key nothing is pending. -/
theorem not_pending_before {k : κ} (hn : (l.map key).Nodup) (h : (pending key p l).head? = some k) {i j : Nat} {x y : α}
    (hx : l[i]? = some x) (hk : key x = k) (hj : j < i) (hy : l[j]? = some y) : p y = false := by
  rw [pending, List.head?_map, Option.map_eq_some_iff] at h
  obtain ⟨z, hz, hzk⟩ := h
  rw [List.head?_filter, List.find?_eq_some_iff_getElem] at hz
  obtain ⟨-, n, hlt, hnz, hbefore⟩ := hz
  obtain ⟨hi, hix⟩ := List.getElem?_eq_some_iff.mp hx
  obtain ⟨hjl, hjy⟩ := List.getElem?_eq_some_iff.mp hy
  have hzx : z = x := inj hn (by rw [← hnz]; exact List.getElem_mem hlt) (List.mem_of_getElem? hx) (hzk.trans hk.symm)
  have hni : n = i := (List.Nodup.getElem_inj_iff hn.of_map).mp (by rw [hnz, hix, hzx])
  have := hbefore j (by omega)
  rw [hjy] at this
  simpa using this

def latest (key : α → κ) (p : α → Bool) (l : List α) : Option κ := (l.filter p).getLast?.map key

theorem latest_some {k : κ} (h : latest key p l = some k) : ∃ x ∈ l, p x = true ∧ key x = k := by
  unfold latest at h
  obtain ⟨x, hx, hk⟩ := Option.map_eq_some_iff.mp h
  have hm := List.mem_filter.mp (List.mem_of_getLast? hx)
  exact ⟨x, hm.1, hm.2, hk⟩

theorem latest_none (h : latest key p l = none) : ∀ x ∈ l, p x = false := by
  intro x hx
  have hnil : l.filter p = [] := List.getLast?_eq_none_iff.mp (by simpa [latest] using h)
  simpa using List.filter_eq_nil_iff.mp hnil x hx

theorem latest_map {f : α → α} (hf : ∀ x, key (f x) = key x) (hp : ∀ x, p (f x) = p x) :
    latest key p (l.map f) = latest key p l := by
  have hcomp : p ∘ f = p := funext hp
  simp only [latest, List.filter_map, hcomp, List.getLast?_map, Option.map_map]
  exact congrArg (Option.map · _) (funext hf)

theorem latest_append_of_pos {x : α} (h : p x = true) : latest key p (l ++ [x]) = some (key x) := by
  simp [latest, h]

theorem latest_append_of_neg {x : α} (h : p x = false) : latest key p (l ++ [x]) = latest key p l := by
  simp [latest, h]

/-- Where the youngest element of a kind stands: behind it there is none of that kind. -/
theorem latest_index {k : κ} (h : latest key p l = some k) :
    ∃ (i : Nat) (x : α), l[i]? = some x ∧ p x = true ∧ key x = k ∧ ∀ j y, i < j → l[j]? = some y → p y = false := by
  unfold latest at h
  obtain ⟨x, hx, hk⟩ := Option.map_eq_some_iff.mp h
  have hfind : l.reverse.find? p = some x := by
    rw [← List.head?_filter, List.filter_reverse, List.head?_reverse, hx]
  obtain ⟨hp, as, bs, hl, has⟩ := List.find?_eq_some_iff_append.mp hfind
  have hl' : l = bs.reverse ++ x :: as.reverse := by
    have := congrArg List.reverse hl
    simpa using this
  refine ⟨bs.reverse.length, x, by simp [hl'], hp, hk, fun j y hj hy => ?_⟩
  rw [hl', List.getElem?_append_right (Nat.le_of_lt hj)] at hy
  obtain ⟨m, hm⟩ : ∃ m, j - bs.reverse.length = m + 1 := ⟨j - bs.reverse.length - 1, by omega⟩
  rw [hm, List.getElem?_cons_succ] at hy
  have hmem : y ∈ as := List.mem_reverse.mp (List.mem_of_getElem? hy)
  simpa using has y hmem

/-- Without its head the queue has the same youngest element, or none if that was it. -/
theorem latest_tail [DecidableEq κ] {x : α} (hn : ((x :: l).map key).Nodup) :
    latest key p l = if latest key p (x :: l) = some (key x) then none else latest key p (x :: l) := by
  have hfresh : ∀ y ∈ l, key y ≠ key x := by
    intro y hy h
    rw [List.map_cons, List.nodup_cons] at hn
    exact hn.1 (h ▸ List.mem_map_of_mem hy)
  unfold latest
  rw [List.filter_cons]
  by_cases hx : p x = true
  · rw [if_pos hx, List.getLast?_cons]
    cases hl : (l.filter p).getLast? with
    | none => simp
    | some y =>
      have hy : y ∈ l := (List.mem_filter.mp (List.mem_of_getLast? hl)).1
      simp [hfresh y hy]
  · rw [if_neg hx]
    cases hl : (l.filter p).getLast? with
    | none => simp
    | some y =>
      have hy : y ∈ l := (List.mem_filter.mp (List.mem_of_getLast? hl)).1
      simp [hfresh y hy]

/-! ## Age -/

/-- `a` is the key of an element that stands before one with key `b`. -/
def Before (key : α → κ) (l : List α) (a b : κ) : Prop := [a, b].Sublist (l.map key)

theorem Before.map {f : α → α} (hf : ∀ x, key (f x) = key x) {a b : κ} (h : Before key l a b) :
    Before key (l.map f) a b := by
  rw [Before, map_keys hf]; exact h

theorem Before.append {a b : κ} (h : Before key l a b) (r : List α) : Before key (l ++ r) a b := by
  rw [Before, List.map_append]
  exact h.trans (List.sublist_append_left ..)

theorem before_append {x y : α} (hx : x ∈ l) : Before key (l ++ [y]) (key x) (key y) := by
  rw [Before, List.map_append]
  exact (List.singleton_sublist.mpr (List.mem_map_of_mem hx)).append (List.Sublist.refl [key y])

theorem Before.tail {x : α} {a b : κ} (h : Before key (x :: l) a b) (hne : a ≠ key x) : Before key l a b := by
  rw [Before, List.map_cons] at h
  cases h with
  | cons _ h => exact h
  | cons_cons _ h => exact absurd rfl hne

theorem Before.mem {a b : κ} (h : Before key l a b) : a ∈ l.map key ∧ b ∈ l.map key :=
  ⟨h.subset List.mem_cons_self, h.subset (List.mem_cons_of_mem a List.mem_cons_self)⟩

/-- Nothing comes before the first. -/
theorem not_before_head {x : α} {a : κ} (hn : ((x :: l).map key).Nodup) : ¬ Before key (x :: l) a (key x) := by
  intro h
  rw [List.map_cons, List.nodup_cons] at hn
  rcases List.sublist_cons_iff.mp h with hsub | ⟨r, heq, hsub⟩
  · exact hn.1 (hsub.subset (List.mem_cons_of_mem a List.mem_cons_self))
  · rw [List.cons.injEq] at heq
    rw [← heq.2] at hsub
    exact hn.1 (hsub.subset List.mem_cons_self)

/-- Positions of the two elements. -/
theorem Before.index {a b : κ} (h : Before key l a b) :
    ∃ i j : Nat, i < j ∧ (l[i]?).map key = some a ∧ (l[j]?).map key = some b := by
  obtain ⟨i, j, hij, ha, hb⟩ : ∃ i j : Nat, i < j ∧ (l.map key)[i]? = some a ∧ (l.map key)[j]? = some b := by
    rw [Before] at h
    obtain ⟨f, hf⟩ := List.sublist_iff_exists_orderEmbedding_getElem?_eq.mp h
    have hlt : f 0 < f 1 := f.lt_iff_lt.mpr Nat.zero_lt_one
    refine ⟨f 0, f 1, hlt, ?_, ?_⟩
    · rw [← hf 0]; rfl
    · rw [← hf 1]; rfl
  exact ⟨i, j, hij, by rw [← ha, List.getElem?_map], by rw [← hb, List.getElem?_map]⟩

end Keyed

end TomasuloCpu
