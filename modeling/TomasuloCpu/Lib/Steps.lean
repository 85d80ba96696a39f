/-
  TomasuloCpu.Lib.Steps — runs of a machine that may stop.

  `next` is one step, `none` where the machine stops. `after s n` is the state after `n`
  steps from `s`, if it gets that far.
-/
import Mathlib.Data.Option.Basic

namespace TomasuloCpu

namespace Steps

variable {σ α : Type} {next : σ → Option σ} {s t u : σ}

def after (next : σ → Option σ) (s : σ) : Nat → Option σ
  | 0 => some s
  | n + 1 => (after next s n).bind next

theorem after_succ {n : Nat} (h : after next s n = some t) : after next s (n + 1) = next t := by
  rw [after, h]; rfl

theorem after_pred {n : Nat} (h : after next s (n + 1) = some u) : ∃ t, after next s n = some t ∧ next t = some u :=
  Option.bind_eq_some_iff.mp h

/-- A run that gets to step `n` has passed every earlier one. -/
theorem after_of_le {m n : Nat} (hle : m ≤ n) (h : after next s n = some u) : ∃ t, after next s m = some t := by
  induction hle generalizing u with
  | refl => exact ⟨u, h⟩
  | step _ ih =>
    obtain ⟨t, ht, -⟩ := after_pred h
    exact ih ht

/-- No step is made from a state where the machine stops. -/
theorem after_stopped {m n : Nat} (h : after next s m = some t) (hstop : next t = none) (hn : after next s n = some u) :
    n ≤ m := by
  by_contra hc
  obtain ⟨v, hv⟩ := after_of_le (Nat.not_le.mp hc) hn
  rw [after_succ h, hstop] at hv
  cases hv

/-- A run goes on from a state it passes. -/
theorem after_add {m k : Nat} (h : after next s m = some t) : after next s (m + k) = after next t k := by
  induction k with
  | zero => exact h
  | succ k ih => rw [← Nat.add_assoc, after, ih, after]

theorem after_invariant {P : σ → Prop} (h0 : P s) (hstep : ∀ t u, P t → next t = some u → P u) {n : Nat}
    (h : after next s n = some t) : P t := by
  induction n generalizing t with
  | zero => cases h; exact h0
  | succ n ih =>
    obtain ⟨v, hv, hn⟩ := after_pred h
    exact hstep v t (ih hv) hn

/-- What no step from `j` to `k` changes is the same at both. -/
theorem after_frame {f : σ → α} {j k : Nat} (hle : j ≤ k) (hj : after next s j = some t) (hk : after next s k = some u)
    (hf : ∀ i v w, j ≤ i → i < k → after next s i = some v → next v = some w → f w = f v) : f u = f t := by
  induction hle generalizing u with
  | refl => rw [Option.some.inj (hj.symm.trans hk)]
  | @step k hle ih =>
    obtain ⟨v, hv, hn⟩ := after_pred hk
    rw [hf k v u hle (Nat.lt_succ_self k) hv hn]
    exact ih hv fun i v w hi hik => hf i v w hi (Nat.lt_succ_of_lt hik)

/-! ## Observations -/

/-- The list shows a beginning of the sequence. -/
def Observes (f : Nat → Option α) (l : List α) : Prop := ∀ i x, l[i]? = some x → f i = some x

/-- Of two observations of one sequence the shorter begins the longer. -/
theorem Observes.begins {f : Nat → Option α} {l l' : List α} (h : Observes f l) (h' : Observes f l')
    (hle : l.length ≤ l'.length) : l <+: l' := by
  rw [List.prefix_iff_getElem?]
  intro i hi
  have hfirst : f i = some l[i] := h i _ (List.getElem?_eq_getElem hi)
  have hsecond : f i = some l'[i] := h' i _ (List.getElem?_eq_getElem (Nat.lt_of_lt_of_le hi hle))
  rw [List.getElem?_eq_getElem (Nat.lt_of_lt_of_le hi hle), ← hsecond, hfirst]

theorem Observes.comparable {f : Nat → Option α} {l l' : List α} (h : Observes f l) (h' : Observes f l') :
    l <+: l' ∨ l' <+: l := (Nat.le_total l.length l'.length).imp (h.begins h') (h'.begins h)

theorem Observes.eq_of_length {f : Nat → Option α} {l l' : List α} (h : Observes f l) (h' : Observes f l')
    (heq : l.length = l'.length) : l = l' := (h.begins h' (Nat.le_of_eq heq)).eq_of_length heq

end Steps

end TomasuloCpu
