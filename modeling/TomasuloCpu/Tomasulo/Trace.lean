/-
  TomasuloCpu.Tomasulo.Trace — runs, and the identity of instructions along them.

  A cycle issues at most one instruction, so the number of the cycle that issued it
  identifies an instruction for good, while its tag can come back. `liveIds` follows the
  identities of the live entries: a flush drops them all, a commit the first, an issue
  appends its own. They line up with the reorder buffer (`ids_tags`), are in order of
  age (`ids_sorted`) and never return (`ids_of_le`).
-/
import TomasuloCpu.Tomasulo.Reachable

namespace TomasuloCpu

open Keyed

namespace Core

/-- The states of a run from a load, the predictor's table filled in any way. -/
structure IsRun (tr : Nat → Core) : Prop where
  start : ∃ counters input, tr 0 = loadedWith counters input
  step : ∀ n, tr (n + 1) = (tr n).tick

variable {tr : Nat → Core}

theorem isRun_loaded (input : Istream) : IsRun fun n => (loaded input).after n :=
  ⟨⟨_, input, rfl⟩, fun n => after_succ _ n⟩

theorem IsRun.inv (h : IsRun tr) (n : Nat) : Inv (tr n) := by
  induction n with
  | zero =>
    obtain ⟨counters, input, h0⟩ := h.start
    rw [h0]
    exact reset_inv _ _ _
  | succ n ih => rw [h.step]; exact ih.tick

theorem IsRun.running_of_succ (h : IsRun tr) {n : Nat} (hr : (tr (n + 1)).status = .running) :
    (tr n).status = .running := by
  by_contra hc
  rw [h.step, tick_of_stopped hc] at hr
  exact hc hr

/-- A stopped machine stays as it is. -/
theorem IsRun.frozen (h : IsRun tr) {m n : Nat} (hs : (tr m).status ≠ .running) (hle : m ≤ n) : tr n = tr m := by
  induction hle with
  | refl => rfl
  | step _ ih => rw [h.step, ih, tick_of_stopped hs]

/-- A run that got going stops in some cycle. -/
theorem IsRun.stop (h : IsRun tr) {n : Nat} (hs : (tr n).status ≠ .running) (hl : (tr n).status ≠ .loadError) :
    ∃ k < n, (tr k).status = .running ∧ tr n = tr (k + 1) := by
  induction n with
  | zero =>
    obtain ⟨counters, input, h0⟩ := h.start
    rw [h0] at hs hl
    unfold loadedWith loaded reset at hs hl
    simp only at hs hl
    split at hs
    · exact absurd rfl hs
    · rename_i hok
      exact absurd (if_neg hok) hl
  | succ n ih =>
    by_cases hrun : (tr n).status = .running
    · exact ⟨n, Nat.lt_succ_self n, hrun, rfl⟩
    · have heq : tr (n + 1) = tr n := h.frozen hrun (Nat.le_succ n)
      rw [heq] at hs hl ⊢
      obtain ⟨k, hk, hkrun, htr⟩ := ih hs hl
      exact ⟨k, Nat.lt_succ_of_lt hk, hkrun, htr⟩

theorem IsRun.start_not_halted (h : IsRun tr) : (tr 0).status ≠ .halted := by
  intro hh
  obtain ⟨k, hk, -⟩ := h.stop (n := 0) (by simp [hh]) (by simp [hh])
  exact absurd hk (Nat.not_lt_zero k)

/-! ## Identities -/

/-- The identities that outlive the cycle. -/
def keptIds (s : Core) (ids : List Nat) : List Nat :=
  if s.flush then [] else if s.committing then ids.tail else ids

/-- The issue cycles of the live entries, oldest first. -/
def liveIds (tr : Nat → Core) : Nat → List Nat
  | 0 => []
  | n + 1 =>
    if (tr n).status ≠ .running then liveIds tr n
    else (tr n).keptIds (liveIds tr n) ++ if (tr n).issuing.isSome then [n] else []

/-- The tag the instruction issued in cycle `id` got. -/
def tagOf (tr : Nat → Core) (id : Nat) : RobTag := (tr id).newTag

theorem keptIds_sublist (s : Core) (ids : List Nat) : (s.keptIds ids).Sublist ids := by
  unfold keptIds
  split
  · exact List.nil_sublist ids
  · split
    · exact List.tail_sublist ids
    · exact .refl ids

theorem liveIds_running {n : Nat} (hr : (tr n).status = .running) :
    liveIds tr (n + 1) = (tr n).keptIds (liveIds tr n) ++ if (tr n).issuing.isSome then [n] else [] := by
  rw [liveIds, if_neg (not_not.mpr hr)]

theorem liveIds_stopped {n : Nat} (hr : (tr n).status ≠ .running) : liveIds tr (n + 1) = liveIds tr n := by
  rw [liveIds, if_pos hr]

theorem keptIds_tags {s : Core} {ids : List Nat} {f : Nat → RobTag}
    (h : ids.map f = RobState.tags s.rob.live) : (s.keptIds ids).map f = RobState.tags s.survivors := by
  unfold keptIds survivors
  split
  · rfl
  · have hm : RobState.tags (s.rob.live.map s.finish) = RobState.tags s.rob.live :=
      ReorderBuffer.tags_map (fun x => finish_tag x) _
    split
    · rw [List.map_tail, h, ← hm, RobState.tags, RobState.tags, List.map_tail]
    · rw [h, hm]

/-- The identities stand for the live entries, one by one. -/
theorem ids_tags (h : IsRun tr) (n : Nat) : (liveIds tr n).map (tagOf tr) = RobState.tags (tr n).rob.live := by
  induction n with
  | zero =>
    obtain ⟨counters, input, h0⟩ := h.start
    rw [h0]
    rfl
  | succ n ih =>
    by_cases hr : (tr n).status = .running
    · rw [liveIds_running hr, h.step, (tick_rob hr (h.inv n).rob).2, List.map_append,
        keptIds_tags ih, RobState.tags, RobState.tags, List.map_append]
      congr 1
      cases hd : (tr n).issuing with
      | none => simp [newRob, hd]
      | some d =>
        simp only [newRob, hd, Option.isSome_some, if_true, Option.map_some, Option.toList_some, List.map_cons,
          List.map_nil]
        rfl
    · rw [liveIds_stopped hr, h.step, tick_of_stopped hr]
      exact ih

theorem mem_ids_succ {n id : Nat} (hm : id ∈ liveIds tr (n + 1)) : id ∈ liveIds tr n ∨ id = n := by
  by_cases hr : (tr n).status = .running
  · rw [liveIds_running hr] at hm
    rcases List.mem_append.mp hm with hm | hm
    · exact Or.inl ((keptIds_sublist _ _).subset hm)
    · split at hm
      · exact Or.inr (List.mem_singleton.mp hm)
      · cases hm
  · rw [liveIds_stopped hr] at hm
    exact Or.inl hm

theorem ids_lt {n id : Nat} (hm : id ∈ liveIds tr n) : id < n := by
  induction n with
  | zero => cases hm
  | succ n ih =>
    rcases mem_ids_succ hm with hm | rfl
    · exact Nat.lt_succ_of_lt (ih hm)
    · exact Nat.lt_succ_self _

theorem ids_sorted (tr : Nat → Core) (n : Nat) : (liveIds tr n).Pairwise (· < ·) := by
  induction n with
  | zero => exact .nil
  | succ n ih =>
    by_cases hr : (tr n).status = .running
    · rw [liveIds_running hr, List.pairwise_append]
      refine ⟨ih.sublist (keptIds_sublist _ _), ?_, fun a ha b hb => ?_⟩
      · split
        · exact List.pairwise_singleton _ n
        · exact .nil
      · split at hb
        · rw [List.mem_singleton.mp hb]
          exact ids_lt ((keptIds_sublist _ _).subset ha)
        · cases hb
    · rw [liveIds_stopped hr]
      exact ih

theorem ids_nodup (tr : Nat → Core) (n : Nat) : (liveIds tr n).Nodup := (ids_sorted tr n).imp Nat.ne_of_lt

/-- An identity that is live now was live ever since its issue. -/
theorem ids_of_le {m n id : Nat} (hm : id ∈ liveIds tr m) (hlt : id < n) (hle : n ≤ m) : id ∈ liveIds tr n := by
  induction hle with
  | refl => exact hm
  | @step m hle ih =>
    rcases mem_ids_succ hm with hm | rfl
    · exact ih hm
    · exact absurd hle (Nat.not_le.mpr hlt)

theorem tagOf_inj (h : IsRun tr) {n a b : Nat} (ha : a ∈ liveIds tr n) (hb : b ∈ liveIds tr n)
    (ht : tagOf tr a = tagOf tr b) : a = b := by
  have hn : ((liveIds tr n).map (tagOf tr)).Nodup := by rw [ids_tags h]; exact (h.inv n).nodup
  exact List.inj_on_of_nodup_map hn ha hb ht

theorem id_of_tag (h : IsRun tr) {n : Nat} {t : RobTag} (ht : t ∈ RobState.tags (tr n).rob.live) :
    ∃ id ∈ liveIds tr n, tagOf tr id = t := by
  rw [← ids_tags h] at ht
  obtain ⟨id, hid, rfl⟩ := List.mem_map.mp ht
  exact ⟨id, hid, rfl⟩

theorem head_id (h : IsRun tr) {n : Nat} {x : RobEntry} (hx : (tr n).rob.live.head? = some x) :
    ∃ id, (liveIds tr n).head? = some id ∧ tagOf tr id = x.tag := by
  have hh : ((liveIds tr n).map (tagOf tr)).head? = some x.tag := by
    rw [ids_tags h, RobState.tags, List.head?_map, hx]; rfl
  rw [List.head?_map] at hh
  exact Option.map_eq_some_iff.mp hh

theorem issued_id {n : Nat} (hrun : (tr n).status = .running) (hi : (tr n).issuing.isSome = true) :
    n ∈ liveIds tr (n + 1) := by
  rw [liveIds_running hrun, if_pos hi]
  exact List.mem_append_right _ List.mem_cons_self

/-- A new issue gets a tag of its own, so a live entry keeps its identity. -/
theorem kept_id (h : IsRun tr) {n id : Nat} (hrun : (tr n).status = .running) (hm : id ∈ liveIds tr (n + 1))
    {x : RobEntry} (hx : x ∈ (tr n).rob.live) (ht : x.tag = tagOf tr id) : id ∈ liveIds tr n := by
  rcases mem_ids_succ hm with hold | rfl
  · exact hold
  · exfalso
    have hi : (tr id).issuing.isSome = true := by
      by_contra hno
      rw [liveIds_running hrun, if_neg hno, List.append_nil] at hm
      exact absurd (ids_lt ((keptIds_sublist _ _).subset hm)) (Nat.lt_irrefl _)
    refine newTag_fresh (h.inv id).rob hi ?_
    rw [show (tr id).newTag = x.tag from ht.symm]
    exact List.mem_map_of_mem hx

/-- Of two live instructions the one with the older tag has the smaller number. -/
theorem id_lt_of_before (h : IsRun tr) {n a b : Nat} (ha : a ∈ liveIds tr n) (hb : b ∈ liveIds tr n)
    (ht : Before (·.tag) (tr n).rob.live (tagOf tr a) (tagOf tr b)) : a < b := by
  have hbefore : Before (tagOf tr) (liveIds tr n) (tagOf tr a) (tagOf tr b) := by
    rw [Before, ids_tags h]; exact ht
  obtain ⟨i, j, hij, hi, hj⟩ := hbefore.index
  obtain ⟨x, hx, hxt⟩ := Option.map_eq_some_iff.mp hi
  obtain ⟨y, hy, hyt⟩ := Option.map_eq_some_iff.mp hj
  have hxa : x = a := tagOf_inj h (List.mem_of_getElem? hx) ha hxt
  have hyb : y = b := tagOf_inj h (List.mem_of_getElem? hy) hb hyt
  obtain ⟨hli, hxi⟩ := List.getElem?_eq_some_iff.mp hx
  obtain ⟨hlj, hyj⟩ := List.getElem?_eq_some_iff.mp hy
  have hlt := (List.pairwise_iff_getElem.mp (ids_sorted tr n)) i j hli hlj hij
  rw [hxi, hyj, hxa, hyb] at hlt
  exact hlt

/-! ## How an instruction leaves -/

/-- The instruction issued in cycle `id` commits in cycle `n`. -/
structure Commits (tr : Nat → Core) (n id : Nat) : Prop where
  running : (tr n).status = .running
  committing : (tr n).committing = true
  head : (liveIds tr n).head? = some id

/-- The instruction issued in cycle `id` is removed in cycle `n` by the flush of the
    committing head. -/
structure Flushes (tr : Nat → Core) (n id : Nat) : Prop where
  running : (tr n).status = .running
  flush : (tr n).flush = true
  behind : id ∈ (liveIds tr n).tail

theorem Commits.mem {n id : Nat} (h : Commits tr n id) : id ∈ liveIds tr n := List.mem_of_mem_head? h.head

theorem Flushes.mem {n id : Nat} (h : Flushes tr n id) : id ∈ liveIds tr n := List.mem_of_mem_tail h.behind

theorem not_mem_after {m n id : Nat} (hgone : id ∉ liveIds tr (n + 1)) (hlt : id < n + 1) (hle : n + 1 ≤ m) :
    id ∉ liveIds tr m := fun hm => hgone (ids_of_le hm hlt hle)

theorem Commits.gone {n id : Nat} (h : Commits tr n id) : id ∉ liveIds tr (n + 1) := by
  have hlt := ids_lt h.mem
  obtain ⟨rest, hl⟩ := List.head?_eq_some_iff.mp h.head
  have hn := ids_nodup tr n
  rw [hl, List.nodup_cons] at hn
  rw [liveIds_running h.running]
  intro hm
  rcases List.mem_append.mp hm with hm | hm
  · unfold keptIds at hm
    split at hm
    · cases hm
    · rw [if_pos h.committing, hl] at hm
      exact hn.1 hm
  · split at hm
    · rw [List.mem_singleton.mp hm] at hlt
      exact Nat.lt_irrefl n hlt
    · cases hm

theorem Flushes.gone {n id : Nat} (h : Flushes tr n id) : id ∉ liveIds tr (n + 1) := by
  rw [liveIds_running h.running, keptIds, if_pos h.flush, issuing_flush h.flush]
  exact List.not_mem_nil

/-- A live instruction stays, unless it commits or is flushed. -/
theorem stays {n id : Nat} (hm : id ∈ liveIds tr n) (hc : ¬ Commits tr n id) (hf : ¬ Flushes tr n id) :
    id ∈ liveIds tr (n + 1) := by
  by_cases hr : (tr n).status = .running
  · obtain ⟨a, rest, hl⟩ := List.exists_cons_of_ne_nil (List.ne_nil_of_mem hm)
    have hcase : id = a ∨ id ∈ rest := by rw [hl] at hm; exact List.mem_cons.mp hm
    rw [liveIds_running hr]
    refine List.mem_append_left _ ?_
    unfold keptIds
    split
    · rename_i hfl
      rcases hcase with rfl | hid
      · exact absurd ⟨hr, committing_of_flush hfl, by rw [hl]; rfl⟩ hc
      · exact absurd ⟨hr, hfl, by rw [hl]; exact hid⟩ hf
    · split
      · rename_i hcm
        rcases hcase with rfl | hid
        · exact absurd ⟨hr, hcm, by rw [hl]; rfl⟩ hc
        · rw [hl]; exact hid
      · exact hm
  · rw [liveIds_stopped hr]
    exact hm

/-- An instruction leaves once. -/
theorem Commits.unique {m n id : Nat} (hm : Commits tr m id) (hn : Commits tr n id) : m = n := by
  rcases Nat.lt_trichotomy m n with hlt | heq | hlt
  · exact absurd hn.mem (not_mem_after hm.gone (Nat.lt_succ_of_lt (ids_lt hm.mem)) hlt)
  · exact heq
  · exact absurd hm.mem (not_mem_after hn.gone (Nat.lt_succ_of_lt (ids_lt hn.mem)) hlt)

theorem Commits.not_flushes {m n id : Nat} (hm : Commits tr m id) (hn : Flushes tr n id) : False := by
  rcases Nat.lt_trichotomy m n with hlt | rfl | hlt
  · exact not_mem_after hm.gone (Nat.lt_succ_of_lt (ids_lt hm.mem)) hlt hn.mem
  · obtain ⟨rest, hl⟩ := List.head?_eq_some_iff.mp hm.head
    have hnd := ids_nodup tr m
    have hb := hn.behind
    rw [hl] at hnd hb
    exact (List.nodup_cons.mp hnd).1 hb
  · exact not_mem_after hn.gone (Nat.lt_succ_of_lt (ids_lt hn.mem)) hlt hm.mem

end Core

namespace Cpu

open TomasuloCpu.Core

/-- The states of the run `cpu` makes after loading `input`. -/
def history (cpu : Cpu) (input : Istream) (n : Nat) : Core := ((cpu.load input).2.cycles n).core

theorem history_isRun (cpu : Cpu) (input : Istream) : IsRun (cpu.history input) :=
  ⟨⟨_, input, core_run cpu input 0⟩, fun n => by
    rw [history, history, core_run, core_run, after_succ]⟩

theorem history_eq (cpu : Cpu) (input : Istream) (n : Nat) : cpu.history input n = (loaded input).after n :=
  core_run cpu input n

theorem cycles_status (cpu : Cpu) (input : Istream) (n : Nat) :
    ((cpu.load input).2.cycles n).status = (cpu.history input n).status := rfl

theorem cycles_committedCount (cpu : Cpu) (input : Istream) (n : Nat) :
    ((cpu.load input).2.cycles n).committedCount = (cpu.history input n).committedCount := rfl

theorem cycles_registerValue (cpu : Cpu) (input : Istream) (n : Nat) (r : RegisterIndex) :
    ((cpu.load input).2.cycles n).registerValue r = RegisterFile.read (cpu.history input n).registers r := rfl

end Cpu

end TomasuloCpu
