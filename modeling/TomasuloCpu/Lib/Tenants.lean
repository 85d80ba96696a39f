/-
  TomasuloCpu.Lib.Tenants — who holds which slot of a table over time.

  A cycle of the table may free slots (`release`) and give one slot to a newcomer
  (`fill`). A newcomer is known by the cycle it came in, so two of them are never mixed
  up, whichever slots they get. `tenant n i` holds slot `i` when cycle `n` starts: it came
  last, and the slot was not freed since (`tenant_eq_some`). What a newcomer brings and
  every cycle keeps is true of every tenant (`tenant_invariant`), and one that is gone
  does not come back (`tenant_gone`).
-/
import Mathlib.Data.List.Range

namespace TomasuloCpu

namespace Tenants

def tenant (release : Nat → Nat → Bool) (fill : Nat → Option Nat) : Nat → Nat → Option Nat
  | 0, _ => none
  | n + 1, i => if fill n = some i then some n else if release n i then none else tenant release fill n i

/-- How often slot `i` was given away before cycle `n`. -/
def lettings (fill : Nat → Option Nat) (i : Nat) : Nat → Nat
  | 0 => 0
  | n + 1 => lettings fill i n + if fill n = some i then 1 else 0

variable {release : Nat → Nat → Bool} {fill : Nat → Option Nat} {m n i j k : Nat}

theorem tenant_entered (h : fill n = some i) : tenant release fill (n + 1) i = some n := if_pos h

theorem tenant_succ (h : fill n ≠ some i) :
    tenant release fill (n + 1) i = if release n i then none else tenant release fill n i := if_neg h

theorem tenant_eq_some : tenant release fill n i = some k ↔
    k < n ∧ fill k = some i ∧ ∀ m, k < m → m < n → fill m ≠ some i ∧ release m i = false := by
  induction n with
  | zero => simp [tenant]
  | succ n ih =>
    by_cases hf : fill n = some i
    · rw [tenant_entered hf]
      constructor
      · intro h
        obtain rfl := Option.some.inj h
        exact ⟨Nat.lt_succ_self n, hf, fun m hm hlt => by omega⟩
      · rintro ⟨hlt, -, hsince⟩
        by_cases hk : k = n
        · rw [hk]
        · exact absurd hf (hsince n (by omega) (Nat.lt_succ_self n)).1
    · rw [tenant_succ hf]
      by_cases hr : release n i = true
      · rw [if_pos hr]
        constructor
        · intro h
          cases h
        · rintro ⟨hlt, hk, hsince⟩
          have hne : k ≠ n := by
            intro hc
            exact hf (hc ▸ hk)
          rw [(hsince n (by omega) (Nat.lt_succ_self n)).2] at hr
          cases hr
      · rw [if_neg hr, ih]
        constructor
        · rintro ⟨hlt, hk, hsince⟩
          refine ⟨by omega, hk, fun m hm hmn => ?_⟩
          by_cases hc : m = n
          · subst hc
            exact ⟨hf, by simpa using hr⟩
          · exact hsince m hm (by omega)
        · rintro ⟨hlt, hk, hsince⟩
          have hne : k ≠ n := by
            intro hc
            exact hf (hc ▸ hk)
          exact ⟨by omega, hk, fun m hm hmn => hsince m hm (by omega)⟩

/-- A tenant keeps its slot while the slot is neither freed nor given away. -/
theorem tenant_stays (h : tenant release fill n i = some k) :
    tenant release fill (n + 1) i = some k ↔ fill n ≠ some i ∧ release n i = false := by
  obtain ⟨hlt, hk, hsince⟩ := tenant_eq_some.mp h
  rw [tenant_eq_some]
  constructor
  · rintro ⟨-, -, hall⟩
    exact hall n hlt (Nat.lt_succ_self n)
  · intro hn
    refine ⟨by omega, hk, fun m hm hmn => ?_⟩
    by_cases hc : m = n
    · rw [hc]
      exact hn
    · exact hsince m hm (by omega)

/-- It was there all the time since it came. -/
theorem tenant_since (h : tenant release fill n i = some k) (hk : k < m) (hm : m ≤ n) :
    tenant release fill m i = some k := by
  obtain ⟨-, hfill, hsince⟩ := tenant_eq_some.mp h
  exact tenant_eq_some.mpr ⟨hk, hfill, fun t ht htm => hsince t ht (by omega)⟩

/-- A tenant has one slot, for all its time. -/
theorem tenant_slot (h : tenant release fill n i = some k) (h' : tenant release fill m j = some k) : i = j := by
  have hi := (tenant_eq_some.mp h).2.1
  have hj := (tenant_eq_some.mp h').2.1
  rw [hi] at hj
  exact Option.some.inj hj

/-- Once its slot is freed it is nowhere any more. -/
theorem tenant_gone (h : tenant release fill n i = some k) (hr : release n i = true) (hm : n < m) :
    tenant release fill m j ≠ some k := by
  intro hc
  obtain rfl := tenant_slot h hc
  have hlt := (tenant_eq_some.mp h).1
  have := ((tenant_eq_some.mp hc).2.2 n hlt hm).2
  rw [this] at hr
  cases hr

/-- What a newcomer brings, and every cycle keeps while it stays, is true of a tenant. -/
theorem tenant_invariant {P : Nat → Nat → Nat → Prop} (enter : ∀ k i, fill k = some i → P k (k + 1) i)
    (stay : ∀ n i k, tenant release fill n i = some k → P k n i → fill n ≠ some i → release n i = false →
      P k (n + 1) i)
    (h : tenant release fill n i = some k) : P k n i := by
  induction n with
  | zero => cases h
  | succ n ih =>
    by_cases hf : fill n = some i
    · rw [tenant_entered hf] at h
      obtain rfl := Option.some.inj h
      exact enter n i hf
    · have hold := h
      rw [tenant_succ hf] at hold
      split at hold
      · cases hold
      · rename_i hr
        exact stay n i k hold (ih hold) hf (by simpa using hr)

theorem lettings_mono (hm : m ≤ n) : lettings fill i m ≤ lettings fill i n := by
  induction n, hm using Nat.le_induction with
  | base => exact Nat.le_refl _
  | succ n _ ih => exact Nat.le_trans ih (Nat.le_add_right _ _)

theorem lettings_le (fill : Nat → Option Nat) (i n : Nat) : lettings fill i n ≤ n := by
  induction n with
  | zero => exact Nat.le_refl 0
  | succ n ih =>
    rw [lettings]
    split <;> omega

/-- Successive newcomers of a slot have different numbers. -/
theorem lettings_lt (h : fill m = some i) (hm : m < n) : lettings fill i m < lettings fill i n := by
  have hstep : lettings fill i (m + 1) = lettings fill i m + 1 := by rw [lettings, if_pos h]
  have hle : lettings fill i (m + 1) ≤ lettings fill i n := lettings_mono hm
  omega

/-- Since the newcomer that holds a slot came, the slot was given to no other. -/
theorem lettings_tenant (h : tenant release fill n i = some k) : lettings fill i n = lettings fill i k + 1 := by
  obtain ⟨hlt, hk, hsince⟩ := tenant_eq_some.mp h
  have hall : ∀ m, k < m → m ≤ n → lettings fill i m = lettings fill i k + 1 := by
    intro m hm hmn
    induction m, hm using Nat.le_induction with
    | base => rw [lettings, if_pos hk]
    | succ m hm ih =>
      rw [lettings, if_neg (hsince m hm (by omega)).1]
      exact ih (by omega)
  exact hall n hlt (Nat.le_refl n)

end Tenants

end TomasuloCpu
