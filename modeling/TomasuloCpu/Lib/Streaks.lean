/-
  TomasuloCpu.Lib.Streaks — how often somebody's events change their value.

  At a moment at most one event happens, of somebody and with a value. It is a turn when
  the last event of the same one had another value or there was none. A moment is settled
  when two events of the same one, the later more than `delay` before it, began a streak
  of its value: those that are not are at most `delay + 2` for each turn
  (`count_unsettled_le`).
-/
import Mathlib.Algebra.Order.BigOperators.Group.Finset
import Mathlib.Data.Finset.Max
import Mathlib.Data.Nat.Count
import Mathlib.Logic.Function.Basic
import Mathlib.Order.Interval.Finset.Nat

namespace TomasuloCpu

namespace Streaks

variable {ι β : Type} (event : Nat → Option (ι × β))

/-- From `a` on, `i` has had value `v` only, up to and with `n`. -/
structure Streak (i : ι) (v : β) (a n : Nat) : Prop where
  start : event a = some (i, v)
  le : a ≤ n
  same : ∀ m u, a ≤ m → m ≤ n → event m = some (i, u) → u = v

/-- Events of `i` with value `v` at `a` and `b`, and no other value of `i` since `a`. -/
structure Settled (delay : Nat) (i : ι) (v : β) (n : Nat) (a b : Nat) : Prop where
  streak : Streak event i v a n
  again : event b = some (i, v)
  before : a < b
  old : b + delay < n

variable {i : ι} {v : β}

/-- The moments of one streak that are not settled: its first, and those at most `delay`
    behind its second. -/
theorem card_streak_le (delay : Nat) {a : Nat} (s : Finset Nat)
    (hs : ∀ k ∈ s, event k = some (i, v) ∧ Streak event i v a k ∧ ∀ b, ¬ Settled event delay i v k a b) :
    s.card ≤ delay + 2 := by
  have hsub : ∃ b, s.erase a ⊆ Finset.Icc b (b + delay) := by
    by_cases hne : (s.erase a).Nonempty
    · obtain ⟨hba, hb⟩ := Finset.mem_erase.mp (Finset.min'_mem _ hne)
      refine ⟨(s.erase a).min' hne, fun k hk => Finset.mem_Icc.mpr ⟨Finset.min'_le _ k hk, ?_⟩⟩
      by_contra hlt
      obtain ⟨-, hstreak, hno⟩ := hs k (Finset.mem_of_mem_erase hk)
      obtain ⟨hevent, hbstreak, -⟩ := hs _ hb
      exact hno _ ⟨hstreak, hevent, Nat.lt_of_le_of_ne hbstreak.le hba.symm, Nat.lt_of_not_le hlt⟩
    · exact ⟨0, by rw [Finset.not_nonempty_iff_eq_empty.mp hne]; exact Finset.empty_subset _⟩
  obtain ⟨b, hsub⟩ := hsub
  have hcard : (s.erase a).card ≤ delay + 1 := by
    refine (Finset.card_le_card hsub).trans ?_
    rw [Nat.card_Icc]
    omega
  have herase : s.card - 1 ≤ (s.erase a).card := Finset.pred_card_le_card_erase
  omega

variable [DecidableEq ι]

/-- Everyone's last value before moment `n`. -/
def last : Nat → ι → Option β
  | 0 => fun _ => none
  | n + 1 =>
    match event n with
    | some (i, v) => Function.update (last n) i (some v)
    | none => last n

variable {event} {n : Nat}

omit [DecidableEq ι] in
theorem no_event_succ {m : Nat} (hno : ∀ l u, m < l → l < n → event l ≠ some (i, u))
    (hn : ∀ u : β, event n ≠ some (i, u)) : ∀ l u, m < l → l < n + 1 → event l ≠ some (i, u) := by
  intro l u hml hl
  rcases Nat.lt_succ_iff_lt_or_eq.mp hl with hl | rfl
  · exact hno l u hml hl
  · exact hn u

theorem last_some (h : last event n i = some v) :
    ∃ m < n, event m = some (i, v) ∧ ∀ l u, m < l → l < n → event l ≠ some (i, u) := by
  induction n with
  | zero => cases h
  | succ n ih =>
    rw [last] at h
    cases hn : event n with
    | none =>
      rw [hn] at h
      obtain ⟨m, hm, hv, hno⟩ := ih h
      exact ⟨m, Nat.lt_succ_of_lt hm, hv, no_event_succ hno fun u hc => by rw [hn] at hc; cases hc⟩
    | some x =>
      obtain ⟨j, w⟩ := x
      rw [hn] at h
      have h : Function.update (last event n) j (some w) i = some v := h
      by_cases hj : i = j
      · subst hj
        rw [Function.update_self, Option.some.injEq] at h
        subst h
        exact ⟨n, Nat.lt_succ_self n, hn, fun l u hml hl => by omega⟩
      · rw [Function.update_of_ne hj] at h
        obtain ⟨m, hm, hv, hno⟩ := ih h
        refine ⟨m, Nat.lt_succ_of_lt hm, hv, no_event_succ hno fun u hc => ?_⟩
        rw [hn] at hc
        exact hj (congrArg Prod.fst (Option.some.inj hc)).symm

variable [DecidableEq β]

variable (event) in
def turn (n : Nat) : Bool :=
  match event n with
  | some (i, v) => decide (last event n i ≠ some v)
  | none => false

variable (event) in
/-- The turns before moment `n`. -/
def turns (n : Nat) : Nat := Nat.count (turn event · = true) n

/-- Every event is in a streak that a turn began. -/
theorem exists_turn (h : event n = some (i, v)) : ∃ a, turn event a = true ∧ Streak event i v a n := by
  induction n using Nat.strong_induction_on with
  | _ n ih =>
    by_cases hl : last event n i = some v
    · obtain ⟨m, hm, hv, hno⟩ := last_some hl
      obtain ⟨a, ha, hs⟩ := ih m hm hv
      refine ⟨a, ha, hs.start, Nat.le_trans hs.le (Nat.le_of_lt hm), fun k u hak hkn hk => ?_⟩
      rcases Nat.lt_or_ge m k with hmk | hkm
      · rcases Nat.lt_or_eq_of_le hkn with hlt | rfl
        · exact absurd hk (hno k u hmk hlt)
        · rw [h, Option.some.injEq] at hk
          exact (congrArg Prod.snd hk).symm
      · exact hs.same k u hak hkm hk
    · have hturn : turn event n = true := by
        rw [turn, h]
        exact decide_eq_true hl
      refine ⟨n, hturn, h, Nat.le_refl n, fun k u hle hge hk => ?_⟩
      obtain rfl : k = n := Nat.le_antisymm hge hle
      rw [h, Option.some.injEq] at hk
      exact (congrArg Prod.snd hk).symm

variable (delay : Nat) {unsettled : Nat → Prop}

/-- Each turn begins at most `delay + 2` moments that are not settled. -/
theorem count_unsettled_le [DecidablePred unsettled]
    (h : ∀ k, unsettled k → ∃ i v, event k = some (i, v) ∧ ∀ a b, ¬ Settled event delay i v k a b) (n : Nat) :
    Nat.count unsettled n ≤ (delay + 2) * turns event n := by
  have hstart : ∀ k, ∃ a, unsettled k → turn event a = true ∧ ∃ i v, event k = some (i, v) ∧
      Streak event i v a k ∧ ∀ b, ¬ Settled event delay i v k a b := by
    intro k
    by_cases hk : unsettled k
    · obtain ⟨i, v, he, hno⟩ := h k hk
      obtain ⟨a, ha, hs⟩ := exists_turn he
      exact ⟨a, fun _ => ⟨ha, i, v, he, hs, hno a⟩⟩
    · exact ⟨0, fun hc => absurd hc hk⟩
  choose start hstart using hstart
  rw [turns, Nat.count_eq_card_filter_range, Nat.count_eq_card_filter_range]
  refine Finset.card_le_mul_card_image_of_maps_to (f := start) (fun k hk => ?_) _ fun a _ => ?_
  · obtain ⟨hlt, hu⟩ := Finset.mem_filter.mp hk
    obtain ⟨ha, i, v, -, hs, -⟩ := hstart k hu
    have hle := hs.le
    have hkn := Finset.mem_range.mp hlt
    exact Finset.mem_filter.mpr ⟨Finset.mem_range.mpr (by omega), ha⟩
  · -- the moments of one start are of one streak
    cases hev : event a with
    | none =>
      refine (Nat.le_of_eq (Finset.card_eq_zero.mpr (Finset.filter_eq_empty_iff.mpr fun k hk hka => ?_))).trans
        (Nat.zero_le _)
      obtain ⟨-, i, v, -, hs, -⟩ := hstart k (Finset.mem_filter.mp hk).2
      rw [hka] at hs
      have hstart := hs.start
      rw [hev] at hstart
      cases hstart
    | some x =>
      refine card_streak_le event (i := x.1) (v := x.2) delay (a := a) _ fun k hk => ?_
      obtain ⟨hmem, rfl⟩ := Finset.mem_filter.mp hk
      obtain ⟨-, i, v, he, hs, hno⟩ := hstart k (Finset.mem_filter.mp hmem).2
      have hstart := hs.start
      rw [hev, Option.some.injEq] at hstart
      subst hstart
      exact ⟨he, hs, hno⟩

end Streaks

end TomasuloCpu
