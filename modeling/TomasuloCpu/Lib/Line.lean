/-
  TomasuloCpu.Lib.Line — who waits in a line, and who has left it.

  A moment may serve the first of the line, send everyone else away (`clear`) and let one
  customer join at the end, who is known by that moment. Nobody is lost or counted twice:
  those served, those sent away and those who wait are together those who joined
  (`accounting`), and service goes by the order of arrival (`served_sorted`). A log whose
  entries are in the order of their owners' arrival is read off owner by owner
  (`filter_owners`).
-/
import Mathlib.Data.List.Range
import Mathlib.Data.List.Perm.Basic

namespace TomasuloCpu

namespace Line

variable (clear serve join : Nat → Bool)

/-- The line in front of moment `n`, first come first. -/
def waiting : Nat → List Nat
  | 0 => []
  | n + 1 =>
    (if clear n then [] else if serve n then (waiting n).tail else waiting n) ++ if join n then [n] else []

/-- Who is served in moment `n`. -/
def served (n : Nat) : List Nat := if serve n then (waiting clear serve join n).head?.toList else []

/-- Who is sent away in moment `n`. -/
def dropped (n : Nat) : List Nat :=
  if clear n then
    if serve n then (waiting clear serve join n).tail else waiting clear serve join n
  else []

/-- Who joined before moment `n`. -/
def joined (n : Nat) : List Nat := (List.range n).filter join

/-- Everyone served before moment `n`, in the order of service. -/
def servedLog (n : Nat) : List Nat := (List.range n).flatMap (served clear serve join)

def droppedLog (n : Nat) : List Nat := (List.range n).flatMap (dropped clear serve join)

variable {clear serve join} {m n k : Nat}

theorem joined_succ (n : Nat) : joined join (n + 1) = joined join n ++ if join n then [n] else [] := by
  rw [joined, List.range_succ, List.filter_append, joined]
  cases h : join n <;> simp [h]

theorem servedLog_succ (n : Nat) :
    servedLog clear serve join (n + 1) = servedLog clear serve join n ++ served clear serve join n := by
  rw [servedLog, List.range_succ, List.flatMap_append, List.flatMap_singleton]
  rfl

theorem droppedLog_succ (n : Nat) :
    droppedLog clear serve join (n + 1) = droppedLog clear serve join n ++ dropped clear serve join n := by
  rw [droppedLog, List.range_succ, List.flatMap_append, List.flatMap_singleton]
  rfl

/-- Those who are in line before a moment are served in it, sent away or stay. -/
theorem waiting_split (clear serve join : Nat → Bool) (n : Nat) :
    waiting clear serve join n =
      served clear serve join n ++
        (dropped clear serve join n ++
          if clear n then []
          else if serve n then (waiting clear serve join n).tail else waiting clear serve join n) := by
  unfold served dropped
  cases clear n <;> cases serve n <;> cases waiting clear serve join n <;> simp

/-- Nobody is lost and nobody is counted twice. -/
theorem accounting (clear serve join : Nat → Bool) (n : Nat) :
    (servedLog clear serve join n ++ (droppedLog clear serve join n ++ waiting clear serve join n)).Perm
      (joined join n) := by
  induction n with
  | zero => exact .refl _
  | succ n ih =>
    rw [servedLog_succ, droppedLog_succ, joined_succ, waiting]
    generalize hkept : (if clear n = true then [] else if serve n = true then (waiting clear serve join n).tail
      else waiting clear serve join n) = kept
    have hsplit := waiting_split clear serve join n
    rw [hkept] at hsplit
    rw [hsplit] at ih
    generalize (if join n = true then [n] else []) = new
    generalize servedLog clear serve join n = s at ih ⊢
    generalize served clear serve join n = s' at ih ⊢
    generalize droppedLog clear serve join n = d at ih ⊢
    generalize dropped clear serve join n = d' at ih ⊢
    -- the one served goes in front of those sent away before
    have hswap : (s ++ s' ++ (d ++ d' ++ (kept ++ new))).Perm (s ++ (d ++ (s' ++ (d' ++ kept))) ++ new) := by
      have hfront : (s' ++ d).Perm (d ++ s') := List.perm_append_comm
      simpa only [List.append_assoc] using
        ((hfront.append_left s).append_right (d' ++ kept)).append_right new
    exact hswap.trans (ih.append_right new)

theorem joined_nodup (n : Nat) : (joined join n).Nodup := List.nodup_range.filter _

theorem mem_joined : k ∈ joined join n ↔ k < n ∧ join k = true := by
  rw [joined, List.mem_filter, List.mem_range]

/-- Nobody is served twice, sent away twice, or both, or one of them and still in line. -/
theorem nodup (clear serve join : Nat → Bool) (n : Nat) :
    (servedLog clear serve join n ++ (droppedLog clear serve join n ++ waiting clear serve join n)).Nodup :=
  (accounting clear serve join n).nodup_iff.mpr (joined_nodup n)

theorem mem_cases : k < n ∧ join k = true ↔
    k ∈ servedLog clear serve join n ∨ k ∈ droppedLog clear serve join n ∨ k ∈ waiting clear serve join n := by
  rw [← mem_joined, ← (accounting clear serve join n).mem_iff, List.mem_append, List.mem_append]

/-- Service goes by the order of arrival, and those in line came after those served. -/
theorem served_sorted (clear serve join : Nat → Bool) (n : Nat) :
    (servedLog clear serve join n ++ waiting clear serve join n).Pairwise (· < ·) := by
  induction n with
  | zero => exact .nil
  | succ n ih =>
    have hbefore : ∀ k ∈ servedLog clear serve join n ++ waiting clear serve join n, k < n := by
      intro k hk
      have hjoin : k ∈ servedLog clear serve join n ∨ k ∈ droppedLog clear serve join n ∨
          k ∈ waiting clear serve join n := by
        rcases List.mem_append.mp hk with hk | hk
        · exact Or.inl hk
        · exact Or.inr (Or.inr hk)
      exact (mem_cases.mpr hjoin).1
    rw [servedLog_succ, waiting]
    generalize hkept : (if clear n = true then [] else if serve n = true then (waiting clear serve join n).tail
      else waiting clear serve join n) = kept
    have hsub : (servedLog clear serve join n ++ (served clear serve join n ++ kept)).Sublist
        (servedLog clear serve join n ++ waiting clear serve join n) := by
      refine List.Sublist.append_left ?_ _
      have hsplit := waiting_split clear serve join n
      rw [hkept] at hsplit
      rw [hsplit]
      exact (List.sublist_append_right _ _).append_left _
    rw [List.append_assoc, ← List.append_assoc (served clear serve join n), ← List.append_assoc,
      List.pairwise_append]
    refine ⟨ih.sublist hsub, ?_, fun a ha b hb => ?_⟩
    · split
      · exact List.pairwise_singleton _ n
      · exact .nil
    · split at hb
      · rw [List.mem_singleton.mp hb]
        exact hbefore a (hsub.subset ha)
      · cases hb

/-! ## Over time -/

theorem waiting_lt (hk : k ∈ waiting clear serve join n) : k < n :=
  (mem_cases.mpr (Or.inr (Or.inr hk))).1

theorem mem_waiting_succ (hk : k ∈ waiting clear serve join (n + 1)) :
    k ∈ waiting clear serve join n ∨ k = n := by
  rw [waiting] at hk
  rcases List.mem_append.mp hk with hk | hk
  · left
    split at hk
    · cases hk
    · split at hk
      · exact List.mem_of_mem_tail hk
      · exact hk
  · split at hk
    · exact Or.inr (List.mem_singleton.mp hk)
    · cases hk

/-- Who is in line now was in line ever since joining. -/
theorem waiting_of_le (hk : k ∈ waiting clear serve join n) (hlt : k < m) (hle : m ≤ n) :
    k ∈ waiting clear serve join m := by
  induction hle with
  | refl => exact hk
  | @step n hle ih =>
    rcases mem_waiting_succ hk with hk | rfl
    · exact ih hk
    · exact absurd hle (Nat.not_le.mpr hlt)

theorem mem_served (hk : k ∈ served clear serve join n) : k ∈ waiting clear serve join n := by
  unfold served at hk
  split at hk
  · exact List.mem_of_mem_head? (Option.mem_toList.mp hk)
  · cases hk

theorem servedLog_split (clear serve join : Nat → Bool) (hle : m ≤ n) :
    ∃ later, servedLog clear serve join n = servedLog clear serve join m ++ later ∧
      ∀ k ∈ later, k ∈ waiting clear serve join m ∨ m ≤ k := by
  induction hle with
  | refl => exact ⟨[], (List.append_nil _).symm, fun k hk => by cases hk⟩
  | @step n hle ih =>
    obtain ⟨later, hlog, hlater⟩ := ih
    refine ⟨later ++ served clear serve join n, ?_, fun k hk => ?_⟩
    · rw [servedLog_succ, hlog, List.append_assoc]
    · rcases List.mem_append.mp hk with hk | hk
      · exact hlater k hk
      · by_cases hlt : k < m
        · exact Or.inl (waiting_of_le (mem_served hk) hlt hle)
        · exact Or.inr (Nat.le_of_not_lt hlt)

theorem waiting_sorted (clear serve join : Nat → Bool) (n : Nat) : (waiting clear serve join n).Pairwise (· < ·) :=
  (List.pairwise_append.mp (served_sorted clear serve join n)).2.1

/-- Nobody gets in front of the first one. -/
theorem first_le {rest : List Nat} (hfirst : waiting clear serve join m = k :: rest) {j : Nat}
    (hj : j ∈ waiting clear serve join n) (hlt : j < m) (hle : m ≤ n) : k ≤ j := by
  have hmem : j ∈ waiting clear serve join m := waiting_of_le hj hlt hle
  have hsorted := waiting_sorted clear serve join m
  rw [hfirst] at hmem hsorted
  rcases List.mem_cons.mp hmem with rfl | hrest
  · exact Nat.le_refl j
  · exact Nat.le_of_lt (List.rel_of_pairwise_cons hsorted hrest)

/-- The first one stays the first one until leaving. -/
theorem first_stays {rest : List Nat} (hfirst : waiting clear serve join m = k :: rest)
    (hk : k ∈ waiting clear serve join n) (hle : m ≤ n) : ∃ rest', waiting clear serve join n = k :: rest' := by
  have hkm : k < m := waiting_lt (by rw [hfirst]; exact List.mem_cons_self)
  cases hn : waiting clear serve join n with
  | nil =>
    rw [hn] at hk
    cases hk
  | cons j rest' =>
    have hsorted := waiting_sorted clear serve join n
    have hj : j ≤ k := by
      rw [hn] at hk hsorted
      rcases List.mem_cons.mp hk with rfl | hrest
      · exact Nat.le_refl k
      · exact Nat.le_of_lt (List.rel_of_pairwise_cons hsorted hrest)
    have hkj : k ≤ j := first_le hfirst (by rw [hn]; exact List.mem_cons_self) (by omega) hle
    obtain rfl : j = k := by omega
    exact ⟨rest', rfl⟩

/-- The first one leaves when served. -/
theorem first_leaves {rest : List Nat} (hfirst : waiting clear serve join n = k :: rest) (hserve : serve n = true) :
    k ∉ waiting clear serve join (n + 1) := by
  intro hk
  have hkn : k < n := waiting_lt (by rw [hfirst]; exact List.mem_cons_self)
  have hsorted := waiting_sorted clear serve join n
  rw [hfirst] at hsorted
  rw [waiting, hserve, hfirst] at hk
  rcases List.mem_append.mp hk with hk | hk
  · split at hk
    · cases hk
    · exact absurd (List.rel_of_pairwise_cons hsorted hk) (Nat.lt_irrefl k)
  · split at hk
    · rw [List.mem_singleton.mp hk] at hkn
      exact Nat.lt_irrefl n hkn
    · cases hk

/-- While someone waits, only others of the line they found are served. -/
theorem served_before (hk : k ∈ waiting clear serve join n) (hlt : k < m) (hle : m ≤ n) :
    (servedLog clear serve join n).length <
      (servedLog clear serve join m).length + (waiting clear serve join m).length := by
  obtain ⟨later, hlog, hlater⟩ := servedLog_split clear serve join hle
  have hsorted := served_sorted clear serve join n
  rw [hlog, List.append_assoc, List.pairwise_append] at hsorted
  have hafter := List.pairwise_append.mp hsorted.2.1
  have hfirst : k ∈ waiting clear serve join m := waiting_of_le hk hlt hle
  have hsub : later ⊆ (waiting clear serve join m).erase k := by
    intro j hj
    have hjk : j < k := hafter.2.2 j hj k hk
    rcases hlater j hj with hj | hj
    · exact (List.mem_erase_of_ne (Nat.ne_of_lt hjk)).mpr hj
    · omega
  have hlen : later.length ≤ ((waiting clear serve join m).erase k).length :=
    (List.subperm_of_subset (hafter.1.imp Nat.ne_of_lt) hsub).length_le
  rw [List.length_erase_of_mem hfirst] at hlen
  have hpos : 0 < (waiting clear serve join m).length := List.length_pos_of_mem hfirst
  rw [hlog, List.length_append]
  omega

/-! ## Logs -/

section Owners

variable {α : Type} {owner : α → Nat} {log : List α} {owners : List Nat} {a : Nat}

/-- A log by the order of its owners shows a last owner's entries last. -/
theorem filter_owners (hlog : log.Pairwise (owner · < owner ·)) (ha : ∀ b ∈ owners, b < a) :
    log.filter (fun x => owner x ∈ owners ++ [a]) =
      log.filter (fun x => owner x ∈ owners) ++ log.filter (fun x => owner x = a) := by
  induction hlog with
  | nil => rfl
  | @cons x log hx _ ih =>
    rw [List.filter_cons, List.filter_cons, List.filter_cons, ih]
    by_cases hxa : owner x = a
    · -- nobody behind the last owner's entry is one of the others
      have hnone : log.filter (fun y => owner y ∈ owners) = [] := by
        refine List.filter_eq_nil_iff.mpr fun y hy hmem => ?_
        have hlt := hx y hy
        have := ha _ (of_decide_eq_true hmem)
        omega
      have hnot : a ∉ owners := fun hmem => absurd (ha a hmem) (Nat.lt_irrefl a)
      simp [hnone, hnot, hxa]
    · by_cases hmem : owner x ∈ owners
      · simp [hmem, hxa]
      · simp [hmem, hxa]

/-- An owner has at most one entry. -/
theorem filter_owner (hlog : log.Pairwise (owner · < owner ·)) {x : α} (hx : x ∈ log) :
    log.filter (fun y => owner y = owner x) = [x] := by
  induction hlog with
  | nil => cases hx
  | @cons y log hy _ ih =>
    rw [List.filter_cons]
    rcases List.mem_cons.mp hx with rfl | hmem
    · have hnone : log.filter (fun y => owner y = owner x) = [] := by
        refine List.filter_eq_nil_iff.mpr fun z hz heq => ?_
        have hlt := hy z hz
        have heq := of_decide_eq_true heq
        omega
      simp [hnone]
    · have hlt := hy x hmem
      rw [if_neg (by simp; omega), ih hmem]

end Owners

end Line

end TomasuloCpu
