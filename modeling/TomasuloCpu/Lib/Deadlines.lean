/-
  TomasuloCpu.Lib.Deadlines — a line that is served in turn, against the clock.

  `i` customers stand in line, and each moment serves the first of them if that one is
  ready. They are all served in `T` moments if and only if they are no more than `T` and
  each is ready by a deadline of its own, the last one in the last moment and every other
  one a moment before the one behind it (`all_served_iff`).
-/
import TomasuloCpu.Lib.Once

namespace TomasuloCpu

namespace Deadlines

open Once

/-- `served t` of the `i` customers are served before moment `t`. -/
structure InTurn (i T : Nat) (ready : Nat → Nat → Prop) (served : Nat → Nat) : Prop where
  start : served 0 = 0
  serve : ∀ t < T, served t < i → ready (served t) t → served (t + 1) = served t + 1
  wait : ∀ t < T, served t < i → ¬ ready (served t) t → served (t + 1) = served t
  done : ∀ t < T, served t = i → served (t + 1) = i
  stays : ∀ p t, t < T → ready p t → ready p (t + 1)

namespace InTurn

variable {i T : Nat} {ready : Nat → Nat → Prop} {served : Nat → Nat} {p t u : Nat}

theorem served_le (h : InTurn i T ready served) (ht : t ≤ T) : served t ≤ i := by
  induction t with
  | zero => rw [h.start]; exact Nat.zero_le i
  | succ t ih =>
    rcases Nat.lt_or_eq_of_le (ih (Nat.le_of_lt ht)) with hlt | heq
    · by_cases hr : ready (served t) t
      · rw [h.serve t ht hlt hr]
        exact hlt
      · rw [h.wait t ht hlt hr]
        exact Nat.le_of_lt hlt
    · exact Nat.le_of_eq (h.done t ht heq)

/-- A moment serves nobody or one customer, who is ready. -/
theorem step (h : InTurn i T ready served) (ht : t < T) :
    served (t + 1) = served t ∨ (served (t + 1) = served t + 1 ∧ ready (served t) t) := by
  rcases Nat.lt_or_eq_of_le (h.served_le (Nat.le_of_lt ht)) with hlt | heq
  · by_cases hr : ready (served t) t
    · exact Or.inr ⟨h.serve t ht hlt hr, hr⟩
    · exact Or.inl (h.wait t ht hlt hr)
  · exact Or.inl ((h.done t ht heq).trans heq.symm)

theorem ready_of_le (h : InTurn i T ready served) (hr : ready p t) (hle : t ≤ u) (hu : u ≤ T) : ready p u :=
  StaysTill.of_le (fun n hn hp => h.stays p n hn hp) hr hle hu

theorem served_add_le (h : InTurn i T ready served) (hu : t + u ≤ T) : served (t + u) ≤ served t + u := by
  induction u with
  | zero => exact Nat.le_refl _
  | succ u ih =>
    have hbefore : served (t + u) ≤ served t + u := ih (by omega)
    have hlt : t + u < T := by omega
    rw [← Nat.add_assoc]
    rcases h.step hlt with hs | ⟨hs, -⟩ <;> omega

/-- Who is served before a moment was ready before it. -/
theorem ready_of_served (h : InTurn i T ready served) (ht : t < T) (hp : p < served (t + 1)) : ready p t := by
  obtain ⟨u, -, hut, hbefore, hafter⟩ := exists_switches (P := fun u => p < served u) (Nat.zero_le (t + 1))
    (by rw [h.start]; exact Nat.not_lt_zero p) hp
  rcases h.step (Nat.lt_of_lt_of_le hut ht) with hs | ⟨hs, hr⟩
  · omega
  · obtain rfl : p = served u := by omega
    exact h.ready_of_le hr (Nat.le_of_lt_succ hut) (Nat.le_of_lt ht)

/-- Where all are ready by their deadlines, each is served by its own. -/
theorem le_served (h : InTurn i T ready served) (hiT : i ≤ T) (hready : ∀ p < i, ready p (T - (i - p))) (hp : p ≤ i) :
    p ≤ served (T - (i - p)) := by
  induction p with
  | zero => exact Nat.zero_le _
  | succ p ih =>
    have hlast := ih (Nat.le_of_lt hp)
    have hdeadline : T - (i - (p + 1)) = T - (i - p) + 1 := by omega
    have hlt : T - (i - p) < T := by omega
    rw [hdeadline]
    rcases Nat.lt_or_eq_of_le hlast with hmore | heq
    · rcases h.step hlt with hs | ⟨hs, -⟩ <;> omega
    · have hr : ready (served (T - (i - p))) (T - (i - p)) := heq ▸ hready p hp
      rw [h.serve _ hlt (by omega) hr]
      omega

theorem all_served_iff (h : InTurn i T ready served) : served T = i ↔ i ≤ T ∧ ∀ p < i, ready p (T - (i - p)) := by
  constructor
  · intro hall
    have hiT : i ≤ T := by
      have hfirst := h.served_add_le (t := 0) (u := T) (by omega)
      rw [h.start, Nat.zero_add, hall] at hfirst
      omega
    refine ⟨hiT, fun p hp => h.ready_of_served (by omega) ?_⟩
    -- those behind `p` take the moments that are left
    have hrest := h.served_add_le (t := T - (i - p) + 1) (u := i - p - 1) (by omega)
    have hend : T - (i - p) + 1 + (i - p - 1) = T := by omega
    rw [hend, hall] at hrest
    omega
  · rintro ⟨hiT, hready⟩
    have hi := h.le_served hiT hready (Nat.le_refl i)
    rw [Nat.sub_self, Nat.sub_zero] at hi
    exact Nat.le_antisymm (h.served_le (Nat.le_refl T)) hi

end InTurn

end Deadlines

end TomasuloCpu
