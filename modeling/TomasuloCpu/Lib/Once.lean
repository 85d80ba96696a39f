/-
  TomasuloCpu.Lib.Once — facts that come to hold, and then stay.

  A moment switches `P` on when `P` holds behind it and not in front of it. A fact that does
  not hold early and holds late is switched on in between (`exists_switches`); one that stays
  is switched on once (`StaysTill.unique`).
-/
import Mathlib.Order.Basic

namespace TomasuloCpu

namespace Once

variable {P Q : Nat → Prop} {a b m n : Nat}

structure Switches (P : Nat → Prop) (n : Nat) : Prop where
  before : ¬ P n
  after : P (n + 1)

theorem exists_switches (hle : a ≤ b) (ha : ¬ P a) (hb : P b) : ∃ n, a ≤ n ∧ n < b ∧ Switches P n := by
  induction hle with
  | refl => exact absurd hb ha
  | @step b hle ih =>
    by_cases hlast : P b
    · obtain ⟨n, han, hnb, hn⟩ := ih hlast
      exact ⟨n, han, Nat.lt_succ_of_lt hnb, hn⟩
    · exact ⟨b, hle, Nat.lt_succ_self b, hlast, hb⟩

/-- Where it holds before moment `b`, it also holds in the next one. -/
def StaysTill (P : Nat → Prop) (b : Nat) : Prop := ∀ n < b, P n → P (n + 1)

theorem StaysTill.of_le (h : StaysTill P b) (hm : P m) (hle : m ≤ n) (hn : n ≤ b) : P n := by
  induction hle with
  | refl => exact hm
  | @step n _ ih => exact h n hn (ih (Nat.le_of_succ_le hn))

/-- A fact that stays is switched on in one moment. -/
theorem StaysTill.unique (h : StaysTill P b) (hm : Switches P m) (hn : Switches P n) (hmb : m < b) (hnb : n < b) :
    m = n := by
  rcases Nat.lt_trichotomy m n with hlt | heq | hlt
  · exact absurd (h.of_le hm.after hlt (Nat.le_of_lt hnb)) hn.before
  · exact heq
  · exact absurd (h.of_le hn.after hlt (Nat.le_of_lt hmb)) hm.before

/-- The same of a fact that stays as far as it holds. -/
theorem switches_unique (h : ∀ b, P b → StaysTill P b) (hm : Switches P m) (hn : Switches P n) : m = n := by
  rcases Nat.le_total m n with hle | hle
  · exact (h _ hn.after).unique hm hn (Nat.lt_succ_of_le hle) (Nat.lt_succ_self n)
  · exact (h _ hm.after).unique hm hn (Nat.lt_succ_self m) (Nat.lt_succ_of_le hle)

end Once

end TomasuloCpu
