/-
  TomasuloCpu.Lib.RoundRobin — cyclic scans of a table from a cursor.

  `scan n c` lists the `n` slots cyclically from `c` on. The first slot that satisfies a
  predicate is no further from the cursor than any other that does (`find_scan`), and when
  the cursor moves behind it, the others come closer (`distance_advance`). So a slot that
  keeps satisfying the predicate is chosen after at most `n` choices.
-/
import Mathlib.Data.List.Range

namespace TomasuloCpu

namespace RoundRobin

variable {n c d i : Nat}

def scan (n c : Nat) : List Nat := (List.range n).map fun offset => (c + offset) % n

theorem scan_lt (hi : i ∈ scan n c) : i < n := by
  obtain ⟨o, ho, rfl⟩ := List.mem_map.mp hi
  exact Nat.mod_lt _ (Nat.zero_lt_of_lt (List.mem_range.mp ho))

/-- Every slot is at some distance from the cursor. -/
theorem exists_distance (hi : i < n) : ∃ d < n, (c + d) % n = i := by
  refine ⟨(i + n - c % n) % n, Nat.mod_lt _ (Nat.zero_lt_of_lt hi), ?_⟩
  have hc : c % n < n := Nat.mod_lt _ (Nat.zero_lt_of_lt hi)
  rw [Nat.add_mod, Nat.mod_mod, ← Nat.add_mod, ← Nat.mod_add_mod, show c % n + (i + n - c % n) = i + n by omega,
    Nat.add_mod_right, Nat.mod_eq_of_lt hi]

/-- The slot found is not behind one that qualifies. -/
theorem find_scan {p : Nat → Bool} (hd : d < n) (hp : p ((c + d) % n) = true) :
    ∃ d' ≤ d, (scan n c).find? p = some ((c + d') % n) := by
  rw [scan, List.find?_map]
  cases hf : (List.range n).find? (p ∘ fun offset => (c + offset) % n) with
  | none =>
    have := List.find?_eq_none.mp hf d (List.mem_range.mpr hd)
    exact absurd hp this
  | some d' =>
    refine ⟨d', ?_, rfl⟩
    obtain ⟨-, -, hbefore⟩ := List.find?_range_eq_some.mp hf
    by_contra hlt
    have := hbefore d (by omega)
    simp [hp] at this

/-- Behind a slot that was closer, the distance shrinks. -/
theorem distance_advance {d' : Nat} (hlt : d' < d) (n c : Nat) :
    (((c + d') % n + 1) % n + (d - (d' + 1))) % n = (c + d) % n := by
  rw [Nat.mod_add_mod, Nat.add_assoc, Nat.mod_add_mod]
  congr 1
  omega

end RoundRobin

end TomasuloCpu
