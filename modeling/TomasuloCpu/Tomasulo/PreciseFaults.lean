/-
  TomasuloCpu.Tomasulo.PreciseFaults — when a memory error finds the older instructions
  committed.

  A request is answered four cycles later, and a failed answer stops the machine at once
  (`memory_fault_before_commit`). The instructions ahead of the access have these cycles to
  commit in, one in each, so each has a deadline for its result. Once the request is out no
  loaded value wants the bus, and whoever has left the station is ready two cycles later.
  `memory_fault_precise_iff`: the stop is precise if and only if no more than five are ahead
  when the request is sent and each has come far enough by then or leaves the station in time.
-/
import TomasuloCpu.Lib.Deadlines
import TomasuloCpu.Tomasulo.Latency
import TomasuloCpu.Tomasulo.WrongPath

namespace TomasuloCpu

open Keyed Once Rv32i

namespace Core

variable {s : Core} {tr : Nat → Core} {memory : Nat → Byte} {c i j k n a id t : Nat} {m m' : Machine}

/-! ## The machine that stops -/

/-- A head that commits without a flush was predicted right. -/
theorem predictedRight_one (h : Inv s) (hsim : Sim memory c s) (hfl : s.flush = false) (hc : s.committing = true)
    (hh : s.halts = false) : PredictedRight memory c s.rob.live 1 := by
  intro j hj e m he hcontrol hm
  obtain rfl : j = 0 := by omega
  obtain ⟨x, hx, hr⟩ := (committing_iff h.rob).mp hc
  have hxe : x = e := by
    rw [List.head?_eq_getElem?, he, Option.some.injEq] at hx
    exact hx.symm
  subst hxe
  obtain ⟨y, hp⟩ := hsim.head he
  have hop : x.op ≠ .halt := by
    intro hop
    rw [halts_eq h hx hr, hop] at hh
    cases hh
  obtain ⟨m', hm', hpc⟩ := (hsim.done 0 x y hp hr hop).next
  have hstep : run memory (c + 0 + 1) = some m' := by rw [run_succ hp.step, hm']
  obtain rfl := Option.some.inj (hm.symm.trans hstep)
  rw [← hpc hcontrol]
  by_contra hne
  have : s.flush = true := (flush_iff h.rob).mpr ⟨x, hx, hr, hcontrol, hne⟩
  rw [hfl] at this
  cases this

/-- The sequential run does not get past its fault. -/
theorem run_le_fault {k n : Nat} (hm : run memory k = some m) (hfault : m.step = .memoryOutOfBounds)
    (hn : run memory n = some m') : n ≤ k := by
  refine Steps.after_stopped hm ?_ hn
  rw [Machine.next, hfault]

theorem retired_stop (h : IsRun tr) {n : Nat} (hrun : (tr n).status = .running)
    (hstop : (tr (n + 1)).status = .memoryOutOfBound) : retired tr (n + 1) = retired tr n + (tr n).shift := by
  rw [h.step] at hstop
  rw [retired, retires_running hrun (memory_tick (h.inv n) hrun hstop).1]

/-- A run that stops with a memory error has committed what its sequential run completes
    if and only if the last cycle leaves nothing ahead of the failing access. -/
theorem fault_precise (h : IsRun tr) (hs : ¬ SelfModifying (tr 0).memory.bytes)
    (hm : run (tr 0).memory.bytes k = some m) (hfault : m.step = .memoryOutOfBounds)
    (hrun : (tr n).status = .running) (hstop : (tr (n + 1)).status = .memoryOutOfBound) :
    ∃ e i x, (tr n).answered = some e ∧ (tr n).rob.live[i]? = some x ∧ x.tag = e.destination ∧
      (retired tr (n + 1) = k ↔ (tr n).shift = i) := by
  obtain ⟨hfl, e, rest, i, x, hq, hmatch, -, hx, hxt, hpath⟩ := fault_cycle h hs hrun hstop
  have hi := h.inv n
  have hsim := (follows h hs n).1 (by simp [hrun])
  have hh : (tr n).halts = false := by
    rw [h.step] at hstop
    exact (memory_tick hi hrun hstop).1
  -- the prediction of a head that commits in this cycle is right
  have hright : ∀ j, j ≤ (tr n).shift → PredictedRight (tr 0).memory.bytes (retired tr n) (tr n).rob.live j := by
    intro j hj k hk
    by_cases hc : (tr n).committing = true
    · have hshift : (tr n).shift = 1 := if_pos hc
      exact predictedRight_one hi hsim hfl hc hh k (by omega)
    · have hshift : (tr n).shift = 0 := if_neg hc
      omega
  have honly : ∀ {j v}, run (tr 0).memory.bytes j = some v → v.step = .memoryOutOfBounds → j = k := fun hj hv =>
    Nat.le_antisymm (run_le_fault hm hfault hj) (run_le_fault hj hv hm)
  refine ⟨e, i, x, answered_of_matching hi hrun hfl hq hmatch, hx, hxt, ?_⟩
  rw [retired_stop h hrun hstop]
  constructor
  · intro hk
    by_cases hpred : PredictedRight (tr 0).memory.bytes (retired tr n) (tr n).rob.live i
    · obtain ⟨v, hv, hvf⟩ := hpath hpred
      have := honly hv hvf
      omega
    · -- the sequential run goes past the wrong prediction, which has not committed
      unfold PredictedRight at hpred
      push Not at hpred
      obtain ⟨j, hj, y, v, hy, hcontrol, hv, hne⟩ := hpred
      have hle := run_le_fault hm hfault hv
      exact absurd (hright (j + 1) (by omega) j (Nat.lt_succ_self j) y v hy hcontrol hv) hne
  · intro hshift
    obtain ⟨v, hv, hvf⟩ := hpath (hright i (by omega))
    rw [hshift]
    exact honly hv hvf

/-! ## The line in front of an access -/

/-- The live instructions that are older than instruction `id`. -/
def olderIds (tr : Nat → Core) (j id : Nat) : List Nat := (liveIds tr j).filter (· < id)

theorem olderIds_split (hid : id ∈ liveIds tr j) : ∃ younger, liveIds tr j = olderIds tr j id ++ id :: younger := by
  obtain ⟨older, younger, hl⟩ := List.append_of_mem hid
  have hsorted := ids_sorted tr j
  rw [hl, List.pairwise_append] at hsorted
  obtain ⟨-, hbehind, hahead⟩ := hsorted
  have holder : older.filter (· < id) = older :=
    List.filter_eq_self.mpr fun b hb => decide_eq_true (hahead b hb id List.mem_cons_self)
  have hyounger : (id :: younger).filter (· < id) = [] := by
    refine List.filter_eq_nil_iff.mpr fun b hb hlt => ?_
    have hlt := of_decide_eq_true hlt
    rcases List.mem_cons.mp hb with rfl | hb
    · exact Nat.lt_irrefl b hlt
    · exact Nat.lt_asymm hlt (List.rel_of_pairwise_cons hbehind hb)
  refine ⟨younger, ?_⟩
  rw [olderIds, hl, List.filter_append, holder, hyounger, List.append_nil]

/-- Without a flush the live instructions lose the one that commits, and gain the one issued. -/
theorem liveIds_noFlush (hrun : (tr c).status = .running) (hfl : (tr c).flush = false) :
    ∃ issued, liveIds tr (c + 1) = (liveIds tr c).drop (tr c).shift ++ issued := by
  refine ⟨if (tr c).issuing.isSome = true then [c] else [], ?_⟩
  rw [liveIds_running hrun, keptIds, if_neg (by rw [hfl]; decide), shift]
  split
  · rw [List.drop_one]
  · rfl

/-- The entry of a live instruction stands where its number does. -/
theorem entry_at (h : IsRun tr) (hid : (liveIds tr c)[i]? = some id) :
    ∃ x, (tr c).rob.live[i]? = some x ∧ x.tag = tagOf tr id := by
  have hat : (RobState.tags (tr c).rob.live)[i]? = some (tagOf tr id) := by
    rw [← ids_tags h, List.getElem?_map, hid]
    rfl
  rw [RobState.tags, List.getElem?_map] at hat
  exact Option.map_eq_some_iff.mp hat

theorem index_lt (hi : (liveIds tr c)[i]? = some a) (hj : (liveIds tr c)[j]? = some id) (hlt : a < id) : i < j := by
  obtain ⟨hil, hia⟩ := List.getElem?_eq_some_iff.mp hi
  obtain ⟨hjl, hjid⟩ := List.getElem?_eq_some_iff.mp hj
  rcases Nat.lt_trichotomy i j with hij | rfl | hji
  · exact hij
  · omega
  · have hsorted := List.pairwise_iff_getElem.mp (ids_sorted tr c) j i hjl hil hji
    omega

/-- The oldest instruction commits when it is ready. -/
theorem committing_iff_finished (h : IsRun tr) (hrun : (tr c).status = .running)
    (hhead : (liveIds tr c).head? = some a) : (tr c).committing = true ↔ Finished tr a c := by
  constructor
  · intro hc
    exact commits_finished h ⟨hrun, hc, hhead⟩
  · rintro ⟨-, x, hx, hxt, hr⟩
    rw [List.head?_eq_getElem?] at hhead
    obtain ⟨y, hy, hyt⟩ := entry_at h hhead
    have hxy : x = y := inj (h.inv c).nodup hx (List.mem_of_getElem? hy) (hxt.trans hyt.symm)
    rw [← List.head?_eq_getElem?, ← hxy] at hy
    exact (committing_iff (h.inv c).rob).mpr ⟨x, hy, hr⟩

/-- Instruction `id` asks the memory in cycle `j`, and is live in the cycle that sees the
    response, in which the machine runs and does not halt. -/
structure Asks (tr : Nat → Core) (j id : Nat) : Prop where
  run : IsRun tr
  sends : ∃ r, Sends tr j id r
  running : (tr (j + 4)).status = .running
  live : id ∈ liveIds tr (j + 4)
  goes : (tr (j + 5)).status ≠ .halted

namespace Asks

theorem running_at (h : Asks tr j id) (hc : c ≤ j + 4) : (tr c).status = .running :=
  running_of_le h.run h.running hc

theorem live_at (h : Asks tr j id) (hjc : j ≤ c) (hc : c ≤ j + 4) : id ∈ liveIds tr c := by
  obtain ⟨r, hs⟩ := h.sends
  exact ids_of_le h.live (Nat.lt_of_lt_of_le (ids_lt hs.live) hjc) hc

theorem noFlush (h : Asks tr j id) (hjc : j ≤ c) (hc : c < j + 4) : (tr c).flush = false :=
  noFlush_of_live (h.running_at (Nat.le_of_lt hc)) (h.live_at (Nat.le_succ_of_le hjc) hc)

/-- The access is still in the queue. -/
theorem queued (h : Asks tr j id) (hjc : j ≤ c) (hc : c ≤ j + 4) :
    ∃ e ∈ (tr c).lsq.queue, e.destination = tagOf tr id := by
  obtain ⟨r, hs⟩ := h.sends
  have hlive := h.live_at hjc hc
  rcases memory_history h.run (hs.issuesMemory h.run) (ids_lt hlive) with ⟨-, he⟩ | ⟨n, hn, hrec⟩ | ⟨n, hn, hfl⟩
  · exact he
  · obtain ⟨k, r', rfl, hs'⟩ := hrec.sent h.run
    have := hs'.unique h.run hs
    omega
  · exact absurd hlive (not_mem_after hfl.gone (Nat.lt_succ_of_lt (ids_lt hfl.mem)) hn)

theorem waiting (h : Asks tr j id) (hjc : j ≤ c) (hc : c ≤ j + 4) : ¬ Finished tr id c := by
  obtain ⟨e, he, ht⟩ := h.queued hjc hc
  obtain ⟨x, hx, hxt, -, hr, -⟩ := (h.run.inv c).queued_entry he
  exact not_finished h.run hx (hxt.trans ht) hr

/-- Behind the cycle that asks, the access at the queue's head has been sent. -/
theorem head_at (h : Asks tr j id) (hjc : j < c) (hc : c ≤ j + 4) :
    ∃ e, (tr c).lsq.queue.head? = some e ∧ e.destination = tagOf tr id ∧ e.requestSent = true := by
  obtain ⟨r, hs⟩ := h.sends
  obtain ⟨e, he, ht⟩ := h.queued (Nat.le_of_lt hjc) hc
  have hsent := (queue_history h.run (h.running_at hc) he (h.live_at (Nat.le_of_lt hjc) hc) ht.symm).2 j r hjc hs
  refine ⟨e, ?_, ht, hsent⟩
  cases hq : (tr c).lsq.queue with
  | nil => rw [hq] at he; cases he
  | cons x rest =>
    rw [hq] at he
    rcases List.mem_cons.mp he with rfl | hrest
    · rfl
    · rw [(h.run.inv c).sentHead e (by rw [hq]; exact hrest)] at hsent
      cases hsent

/-- An access with older instructions is a load, so no other load's result waits. -/
theorem noResult (h : Asks tr j id) (ha : a ∈ liveIds tr j) (hlt : a < id) (hjc : j < c) (hc : c ≤ j + 4) :
    (tr c).lsq.loadResult.valid = false := by
  have hi := h.run.inv c
  obtain ⟨r, hs⟩ := h.sends
  obtain ⟨e, he, ht, hsent⟩ := h.head_at hjc hc
  refine hi.sentLoad e (head_mem he) hsent ?_
  by_contra hty
  have hst : e.type = .store := by
    cases hty' : e.type with
    | store => rfl
    | load => exact absurd hty' hty
  obtain ⟨j', -, hs'⟩ := (queue_history h.run (h.running_at hc) (head_mem he) (h.live_at (Nat.le_of_lt hjc) hc)
    ht.symm).1 hsent
  obtain rfl := hs'.unique h.run hs
  -- a store is sent by the oldest instruction
  obtain ⟨rest, hl⟩ := List.head?_eq_some_iff.mp (hs'.store_head h.run hst)
  have haj := ids_lt ha
  rw [liveIds_line] at hl ha
  have hfirst : id ≤ a := Line.first_le hl ha haj (Nat.le_refl j')
  omega

end Asks

/-! ## Commits against the clock -/

/-- Instruction `a` is not in the way of those behind it in cycle `c`: it is gone, or ready
    to commit. -/
def Clear (tr : Nat → Core) (c a : Nat) : Prop := a ∉ liveIds tr c ∨ Finished tr a c

theorem Clear.succ (h : IsRun tr) (hclear : Clear tr c a) (hac : a < c) : Clear tr (c + 1) a := by
  by_cases hlive : a ∈ liveIds tr (c + 1)
  · rcases hclear with hgone | hf
    · exact absurd (ids_of_le hlive hac (Nat.le_succ c)) hgone
    · exact Or.inr (finished_step h hf hlive)
  · exact Or.inl hlive

/-- How many steps have committed in the `t` cycles from cycle `j` on. -/
def committedSince (tr : Nat → Core) (j t : Nat) : Nat := retired tr (j + t) - retired tr j

theorem lt_of_older (ha : a ∈ olderIds tr j id) : a ∈ liveIds tr j ∧ a < id := by
  rw [olderIds, List.mem_filter] at ha
  exact ⟨ha.1, of_decide_eq_true ha.2⟩

namespace Asks

/-- No HALT commits while the access is live. -/
theorem noHalt (h : Asks tr j id) (hc : c ≤ j + 4) : (tr c).halts = false := by
  by_contra hh
  have hhalted := halted_tick (h.run.inv c) (h.running_at hc) (by simpa using hh)
  rw [← h.run.step] at hhalted
  rcases Nat.lt_or_eq_of_le hc with hlt | rfl
  · rw [h.running_at hlt] at hhalted
    cases hhalted
  · exact h.goes hhalted

theorem committedSince_succ (h : Asks tr j id) (ht : t ≤ 4) :
    committedSince tr j (t + 1) = committedSince tr j t + (tr (j + t)).shift := by
  have hct : j + t ≤ j + 4 := by omega
  rw [committedSince, ← Nat.add_assoc, retired, retires_running (h.running_at hct) (h.noHalt hct),
    Nat.sub_add_comm (retired_mono tr (Nat.le_add_right j t)), committedSince]

/-- Those ahead of the access in a cycle are those ahead when it asked, without those that
    have committed since. -/
theorem line (h : Asks tr j id) (ht : t ≤ 4) :
    committedSince tr j t ≤ (olderIds tr j id).length ∧
      ∃ new, liveIds tr (j + t) = (olderIds tr j id).drop (committedSince tr j t) ++ id :: new := by
  induction t with
  | zero =>
    obtain ⟨younger, hl⟩ := olderIds_split (h.live_at (Nat.le_refl j) (Nat.le_add_right j 4))
    have hnone : committedSince tr j 0 = 0 := Nat.sub_self _
    rw [hnone]
    exact ⟨Nat.zero_le _, younger, hl⟩
  | succ t ih =>
    obtain ⟨hle, new, hl⟩ := ih (Nat.le_of_lt ht)
    have hct : j + t ≤ j + 4 := by omega
    have hrun := h.running_at hct
    obtain ⟨issued, hnext⟩ := liveIds_noFlush hrun (h.noFlush (Nat.le_add_right j t) (by omega))
    rw [h.committedSince_succ (Nat.le_of_lt ht), ← Nat.add_assoc, hnext, hl]
    by_cases hc : (tr (j + t)).committing = true
    · have hshift : (tr (j + t)).shift = 1 := if_pos hc
      rw [hshift]
      rcases Nat.lt_or_eq_of_le hle with hlt | heq
      · refine ⟨hlt, new ++ issued, ?_⟩
        rw [List.drop_append_of_le_length (by rw [List.length_drop]; omega), List.drop_drop, List.append_assoc]
        rfl
      · -- the access itself is not ready
        rw [heq, List.drop_length, List.nil_append] at hl
        have hf := (committing_iff_finished h.run hrun (by rw [hl]; rfl)).mp hc
        exact absurd hf (h.waiting (Nat.le_add_right j t) hct)
    · have hshift : (tr (j + t)).shift = 0 := if_neg hc
      rw [hshift, Nat.add_zero, List.drop_zero]
      exact ⟨hle, new ++ issued, List.append_assoc _ _ _⟩

theorem head_of_line (h : Asks tr j id) (ht : t ≤ 4) (ha : (olderIds tr j id)[committedSince tr j t]? = some a) :
    (liveIds tr (j + t)).head? = some a := by
  obtain ⟨-, new, hl⟩ := h.line ht
  rw [hl, List.head?_append, List.head?_drop, ha]
  rfl

/-- The instructions ahead of the access commit in turn, one a cycle, each when ready. -/
theorem inTurn (h : Asks tr j id) :
    Deadlines.InTurn (olderIds tr j id).length 5 (fun p t => ∀ a, (olderIds tr j id)[p]? = some a → Clear tr (j + t) a)
      (committedSince tr j) where
  start := Nat.sub_self _
  serve t ht hlt hready := by
    have ht : t ≤ 4 := Nat.le_of_lt_succ ht
    obtain ⟨a, ha⟩ : ∃ a, (olderIds tr j id)[committedSince tr j t]? = some a := ⟨_, List.getElem?_eq_getElem hlt⟩
    have hhead := h.head_of_line ht ha
    have hf : Finished tr a (j + t) := (hready a ha).resolve_left (not_not_intro (List.mem_of_mem_head? hhead))
    have hshift : (tr (j + t)).shift = 1 :=
      if_pos ((committing_iff_finished h.run (h.running_at (by omega)) hhead).mpr hf)
    rw [h.committedSince_succ ht, hshift]
  wait t ht _ hnot := by
    have ht : t ≤ 4 := Nat.le_of_lt_succ ht
    push Not at hnot
    obtain ⟨a, ha, hnot⟩ := hnot
    have hhead := h.head_of_line ht ha
    have hshift : (tr (j + t)).shift = 0 := if_neg fun hc =>
      hnot (Or.inr ((committing_iff_finished h.run (h.running_at (by omega)) hhead).mp hc))
    rw [h.committedSince_succ ht, hshift, Nat.add_zero]
  done t ht hall := by
    have ht : t ≤ 4 := Nat.le_of_lt_succ ht
    obtain ⟨-, new, hl⟩ := h.line ht
    rw [hall, List.drop_length, List.nil_append] at hl
    have hshift : (tr (j + t)).shift = 0 := if_neg fun hc =>
      h.waiting (Nat.le_add_right j t) (by omega)
        ((committing_iff_finished h.run (h.running_at (by omega)) (by rw [hl]; rfl)).mp hc)
    rw [h.committedSince_succ ht, hshift, hall, Nat.add_zero]
  stays p t _ hready a ha := by
    have haj : a < j := ids_lt (lt_of_older (List.mem_of_getElem? ha)).1
    exact (hready a ha).succ h.run (Nat.lt_of_lt_of_le haj (Nat.le_add_right j t))

/-- In the last cycle the access is behind those that have not committed yet. -/
theorem position (h : Asks tr j id) {x : RobEntry}
    (hx : (tr (j + 4)).rob.live[i]? = some x) (hxt : x.tag = tagOf tr id) :
    (tr (j + 4)).shift = i ↔ committedSince tr j 5 = (olderIds tr j id).length := by
  obtain ⟨hle, new, hl⟩ := h.line (Nat.le_refl 4)
  have hat : (liveIds tr (j + 4))[(olderIds tr j id).length - committedSince tr j 4]? = some id := by
    rw [hl, List.getElem?_append_right (by rw [List.length_drop]), List.length_drop, Nat.sub_self]
    rfl
  obtain ⟨y, hy, hyt⟩ := entry_at h.run hat
  have hi := h.run.inv (j + 4)
  have hxy : x = y := inj hi.nodup (List.mem_of_getElem? hx) (List.mem_of_getElem? hy) (hxt.trans hyt.symm)
  have hpos : i = (olderIds tr j id).length - committedSince tr j 4 := by
    refine (List.getElem?_inj (List.getElem?_eq_some_iff.mp hx).1 hi.nodup.of_map).mp ?_
    rw [hx, hy, hxy]
  have hlast := h.committedSince_succ (Nat.le_refl 4)
  rw [hlast]
  omega

end Asks

/-! ## Deadlines for the results -/

/-- The instruction issued in cycle `a` is in the reservation station in cycle `c`. -/
def Stationed (tr : Nat → Core) (c a : Nat) : Prop :=
  a ∈ liveIds tr c ∧ ∃ e ∈ (tr c).rs.waiting, e.destination = tagOf tr a

/-- Instruction `a`, the one `d` places ahead of an access that is sent in cycle `j`, is far
    enough on its way: five ahead, it is ready in that cycle; four ahead, it is ready or has
    the bus; nearer, it is out of the station in front of cycle `j + 4 - d`. -/
def InTime (tr : Nat → Core) (j d a : Nat) : Prop :=
  if d ≤ 3 then ¬ Stationed tr (j + 4 - d) a
  else if d = 4 then Finished tr a j ∨ Broadcasts tr j a
  else d = 5 ∧ Finished tr a j

/-- Every live instruction older than the access `id`, which is sent in cycle `j`, is far
    enough. -/
def OlderInTime (tr : Nat → Core) (j id : Nat) : Prop :=
  ∀ p a, (olderIds tr j id)[p]? = some a → InTime tr j ((olderIds tr j id).length - p) a

theorem inTime_of_left {d : Nat} (hd : d ≤ 3) (hleft : tagOf tr a ∉ (tr (j + 4 - d)).rs.waiting.map (·.destination)) :
    InTime tr j d a := by
  rw [InTime, if_pos hd]
  rintro ⟨-, e, he, ht⟩
  exact hleft (List.mem_map.mpr ⟨e, he, ht⟩)

/-- What is in the station is not ready in the next cycle. -/
theorem Stationed.not_clear (h : IsRun tr) (hst : Stationed tr c a) (hfl : (tr c).flush = false) :
    ¬ Clear tr (c + 1) a := by
  have hi := h.inv c
  obtain ⟨hlive, e, he, ht⟩ := hst
  obtain ⟨x, hx, hxt, -, hr, halu⟩ := hi.station_entry he
  have hxa : x.tag = tagOf tr a := hxt.trans ht
  rintro (hgone | hf)
  · exact hgone (stays_waiting h hlive hx hxa hr hfl)
  · obtain ⟨-, y, hy, hyt, hyr, hyf⟩ := finished_cause h ⟨not_finished h hx hxa hr, hf⟩ hlive
    have hxy : y = x := inj hi.nodup hy hx (hyt.trans hxa.symm)
    have hpending : x.tag ∈ pending (·.tag) aluWaiting (tr c).rob.live :=
      mem_pending.mpr ⟨x, hx, by simp [aluWaiting, waits, hr, halu], rfl⟩
    rw [hxy, finish_ready hi hx, hr, Bool.false_or, finishes_alu hi hpending, Bool.and_eq_true, beq_iff_eq] at hyf
    exact station_not_unit hi he (integerGranted_valid hi hyf.1) (hxt.symm.trans hyf.2)

namespace Asks

/-- In the cycle that asks, an older instruction gets ready over the bus only. -/
theorem clear_next (h : Asks tr j id) (ha : a ∈ liveIds tr j) :
    Clear tr (j + 1) a ↔ Finished tr a j ∨ Broadcasts tr j a := by
  have hrun := h.running_at (c := j) (by omega)
  have hfl := h.noFlush (Nat.le_refl j) (by omega)
  constructor
  · intro hclear
    by_contra hno
    rw [not_or] at hno
    obtain ⟨hnotf, hnob⟩ := hno
    obtain ⟨x, hx, hxt⟩ := entry_of_id h.run ha
    have hr : x.ready = false := by
      by_contra hc
      exact hnotf ⟨ha, x, hx, hxt, by simpa using hc⟩
    rcases hclear with hgone | hf
    · exact hgone (stays_waiting h.run ha hx hxt hr hfl)
    · obtain ⟨-, y, hy, hyt, hyr, hyf⟩ := finished_cause h.run ⟨hnotf, hf⟩ ha
      obtain ⟨r, hs⟩ := h.sends
      obtain ⟨-, -, -, -, hdone, -⟩ := taken_some (h.run.inv j) hs.taken
      rw [finish_ready (h.run.inv j) hy, hyr, finishes, hdone, hyt] at hyf
      simp only [Bool.false_or, Bool.false_and, Bool.or_false, Bool.and_eq_true, beq_iff_eq] at hyf
      exact hnob ⟨hrun, ha, hyf.1, hyf.2.symm⟩
  · rintro (hf | hb)
    · exact Clear.succ h.run (Or.inr hf) (ids_lt ha)
    · exact Or.inr (hb.switches h.run).after

/-- Once the request is out, an older instruction that has left the station is ready in the
    next cycle. -/
theorem clear_of_left (h : Asks tr j id) (ha : a ∈ liveIds tr j) (hlt : a < id) (hjc : j < c) (hc : c < j + 4)
    (hleft : ¬ Stationed tr c a) : Clear tr (c + 1) a := by
  have hac : a < c := Nat.lt_trans (ids_lt ha) hjc
  have hi := h.run.inv c
  have hrun := h.running_at (Nat.le_of_lt hc)
  have hfl := h.noFlush (Nat.le_of_lt hjc) hc
  by_cases hclear : Clear tr c a
  · exact hclear.succ h.run hac
  · rw [Clear, not_or, not_not] at hclear
    obtain ⟨hlive, hnotf⟩ := hclear
    obtain ⟨p, hp⟩ := List.getElem?_of_mem hlive
    obtain ⟨x, hx, hxt⟩ := entry_at h.run hp
    have hxm := List.mem_of_getElem? hx
    have hr : x.ready = false := by
      by_contra hc
      exact hnotf ⟨hlive, x, hxm, hxt, by simpa using hc⟩
    have hbuffer := h.noResult ha hlt hjc (Nat.le_of_lt hc)
    -- an older access has had its response
    have hmem : x.op.isMemory = false := by
      by_contra hmem
      obtain ⟨e, he, het, -⟩ := h.head_at hjc (Nat.le_of_lt hc)
      obtain ⟨q, hq⟩ := List.getElem?_of_mem (h.live_at (Nat.le_of_lt hjc) (Nat.le_of_lt hc))
      obtain ⟨y, hy, hyt⟩ := entry_at h.run hq
      have hop : x.op.isMemory = true := by simpa using hmem
      rcases older_access hi he hy (hyt.trans het.symm) (index_lt hp hq hlt) hx hop with hready | ⟨hv, -⟩
      · rw [hr] at hready
        cases hready
      · rw [hbuffer] at hv
        cases hv
    have hhalt : x.op ≠ .halt := by
      intro hop
      rw [(hi.entry x hxm).halt hop] at hr
      cases hr
    have halu : x.op.isAlu = true := Op.isAlu_of hmem hhalt (hi.entry x hxm).op_ne
    have hpending : x.tag ∈ pending (·.tag) aluWaiting (tr c).rob.live :=
      mem_pending.mpr ⟨x, hxm, by simp [aluWaiting, waits, hr, halu], rfl⟩
    rw [← hi.alu.mem_iff, List.mem_append] at hpending
    rcases hpending with hst | hunit
    · obtain ⟨e, he, het⟩ := List.mem_map.mp hst
      exact absurd ⟨hlive, e, he, het.trans hxt⟩ hleft
    · -- the unit has the bus to itself
      have hv : (tr c).fu.valid = true := by
        by_contra hv
        rw [holds, if_neg hv] at hunit
        cases hunit
      rw [holds, if_pos hv, List.mem_singleton] at hunit
      have hcompletion : (tr c).completion = (tr c).fu := by
        rcases cdb_cases hfl with ⟨-, -, -, -, ho, -⟩ | ⟨hcomp, -⟩ | ⟨-, -, -, -, ho, -⟩
        · rw [hi.offered_fu, hv] at ho
          cases ho
        · exact hcomp
        · rw [hi.offered_loadResult, hbuffer] at ho
          cases ho
      have hb : Broadcasts tr c a :=
        ⟨hrun, hlive, by rw [hcompletion]; exact hv, by rw [hcompletion, ← hunit]; exact hxt⟩
      exact Or.inr (hb.switches h.run).after

/-- An older instruction that is in time is one that is out of the way by its deadline. -/
theorem inTime_iff (h : Asks tr j id) (ha : a ∈ liveIds tr j) (hlt : a < id) {d : Nat} (hd : 0 < d) :
    InTime tr j d a ↔ d ≤ 5 ∧ Clear tr (j + (5 - d)) a := by
  unfold InTime
  split
  · rename_i h3
    have hc : j + (5 - d) = j + 4 - d + 1 := by omega
    rw [hc]
    constructor
    · intro hleft
      exact ⟨by omega, h.clear_of_left ha hlt (by omega) (by omega) hleft⟩
    · rintro ⟨-, hclear⟩ hst
      exact hst.not_clear h.run (h.noFlush (by omega) (by omega)) hclear
  · split
    · rename_i h4
      subst h4
      rw [← h.clear_next ha]
      exact ⟨fun hclear => ⟨by omega, hclear⟩, fun hclear => hclear.2⟩
    · constructor
      · rintro ⟨rfl, hf⟩
        exact ⟨Nat.le_refl 5, Or.inr hf⟩
      · rintro ⟨hle, hclear⟩
        obtain rfl : d = 5 := by omega
        exact ⟨rfl, hclear.resolve_left (not_not_intro ha)⟩

/-- All who were ahead when the access asked have committed in the cycle that sees the
    response if and only if they were in time. -/
theorem served_iff_inTime (h : Asks tr j id) :
    committedSince tr j 5 = (olderIds tr j id).length ↔ OlderInTime tr j id := by
  rw [h.inTurn.all_served_iff]
  constructor
  · rintro ⟨hle, hready⟩ p a hpa
    have hp := (List.getElem?_eq_some_iff.mp hpa).1
    obtain ⟨ha, hlt⟩ := lt_of_older (List.mem_of_getElem? hpa)
    exact (h.inTime_iff ha hlt (by omega)).mpr ⟨by omega, hready p hp a hpa⟩
  · intro hall
    have hclear : ∀ p a, (olderIds tr j id)[p]? = some a →
        (olderIds tr j id).length - p ≤ 5 ∧ Clear tr (j + (5 - ((olderIds tr j id).length - p))) a := by
      intro p a hpa
      have hp := (List.getElem?_eq_some_iff.mp hpa).1
      obtain ⟨ha, hlt⟩ := lt_of_older (List.mem_of_getElem? hpa)
      exact (h.inTime_iff ha hlt (by omega)).mp (hall p a hpa)
    refine ⟨?_, fun p hp a hpa => (hclear p a hpa).2⟩
    by_contra hmany
    exact hmany (hclear 0 _ (List.getElem?_eq_getElem (by omega))).1

end Asks

/-- A run that stops with a memory error has committed what its sequential run completes
    if and only if those ahead of the failing access were in time when it was sent, four
    cycles before. -/
theorem fault_precise_iff (h : IsRun tr) (hs : ¬ SelfModifying (tr 0).memory.bytes)
    (hm : run (tr 0).memory.bytes k = some m) (hfault : m.step = .memoryOutOfBounds)
    (hrun : (tr n).status = .running) (hstop : (tr (n + 1)).status = .memoryOutOfBound) :
    ∃ j id r, n = j + 4 ∧ Sends tr j id r ∧ (retired tr (n + 1) = k ↔ OlderInTime tr j id) := by
  obtain ⟨e, i, x, ha, hx, hxt, hiff⟩ := fault_precise h hs hm hfault hrun hstop
  obtain ⟨-, j, id, rfl, -, hsend, hlive, ht, -⟩ := answered_history h ha
  have hasks : Asks tr j id := ⟨h, ⟨_, hsend⟩, hrun, hlive, fun hc => by rw [hc] at hstop; cases hstop⟩
  exact ⟨j, id, _, rfl, hsend, hiff.trans ((hasks.position hx (hxt.trans ht.symm)).trans hasks.served_iff_inTime)⟩

end Core

namespace Cpu

open TomasuloCpu.Core

/-- Six dependent `addi` and `lw x2, -1(x0)`. -/
def slowChainImage : Istream :=
  { text := "@0 93 00 10 00 93 80 10 00 93 80 10 00 93 80 10 00 93 80 10 00 93 80 10 00 03 21 f0 ff".toList }

/-- The sequential run completes six steps and faults, the machine stops after five
    commits. -/
theorem memory_fault_before_commit :
    ((new fun _ => baseOrders).load slowChainImage).1.ok = true ∧
      ¬ SelfModifying ((new fun _ => baseOrders).load slowChainImage).2.memoryUnit.memory.bytes ∧
      (((new fun _ => baseOrders).load slowChainImage).2.cycles 12).status = .memoryOutOfBound ∧
      (((new fun _ => baseOrders).load slowChainImage).2.cycles 12).committedCount = 5 ∧
      ∃ m, Rv32i.run ((new fun _ => baseOrders).load slowChainImage).2.memoryUnit.memory.bytes 6 = some m ∧
        m.step = .memoryOutOfBounds ∧
        (((new fun _ => baseOrders).load slowChainImage).2.cycles 12).registerValue 1 ≠ m.read 1 := by
  obtain ⟨hok, hcode, hstop, hcount, hreg, hfault⟩ : (MemoryImage.load slowChainImage).1.ok = true ∧
      everyStep (loaded slowChainImage).memory.bytes 7 (codeBelow 28) = true ∧
      ((loaded slowChainImage).after 12).status = .memoryOutOfBound ∧
      ((loaded slowChainImage).after 12).committedCount = 5 ∧
      RegisterFile.read ((loaded slowChainImage).after 12).registers 1 = 5 ∧
      (Rv32i.run (loaded slowChainImage).memory.bytes 6).any (fun m =>
        m.instruction.op.isMemory && !m.inBounds m.instruction && m.read 1 == 6) = true := by decide +kernel
  obtain ⟨m, hm, hfacts⟩ := (Option.any_eq_true _ _).mp hfault
  simp only [Bool.and_eq_true, Bool.not_eq_true', beq_iff_eq] at hfacts
  rw [load_result, load_memory, cycles_status, cycles_committedCount, history_eq]
  refine ⟨hok, not_selfModifying hcode, hstop, hcount, m, hm, Machine.step_outOfBounds.mpr hfacts.1, ?_⟩
  rw [cycles_registerValue, history_eq, hfacts.2, hreg]
  decide

/-- When a failed response stops the machine, its request was sent four cycles before. The
    stop is precise if and only if, when it was sent, at most five older instructions were
    live, and each was far enough: five ahead of the access, ready; four ahead, ready or on
    the bus; nearer, out of the station before the first, second and third cycle behind it. -/
theorem memory_fault_precise_iff (cpu : Cpu) (input : Istream)
    (hs : ¬ SelfModifying (cpu.load input).2.memoryUnit.memory.bytes) {k : Nat} {m : Machine}
    (hm : Rv32i.run (cpu.load input).2.memoryUnit.memory.bytes k = some m) (hfault : m.step = .memoryOutOfBounds)
    {n N : Nat} (hrun : (cpu.history input n).status = .running)
    (hstop : (cpu.history input (n + 1)).status = .memoryOutOfBound) (hN : n < N) :
    ∃ j id r, n = j + 4 ∧ Sends (cpu.history input) j id r ∧
      ((retired (cpu.history input) N = k ∧
        ((cpu.load input).2.cycles N).committedCount = BitVec.ofNat 64 k ∧
        ∀ r, ((cpu.load input).2.cycles N).registerValue r = m.read r) ↔ OlderInTime (cpu.history input) j id) := by
  have h := history_isRun cpu input
  have hfrozen : cpu.history input N = cpu.history input (n + 1) := h.frozen (by simp [hstop]) hN
  have hretired : retired (cpu.history input) N = retired (cpu.history input) (n + 1) :=
    retired_frozen h (by simp [hstop]) hN
  obtain ⟨j, id, r, hj, hsend, hiff⟩ := fault_precise_iff h hs hm hfault hrun hstop
  refine ⟨j, id, r, hj, hsend, ?_⟩
  rw [← hiff, hretired]
  refine ⟨fun hp => hp.1, fun hk => ⟨hk, ?_, fun r => ?_⟩⟩
  · show (cpu.history input N).committedCount = BitVec.ofNat 64 k
    rw [hfrozen, committedCount_eq h, hk]
  · obtain ⟨m', hm', hreg⟩ := registers_follow h hs (n + 1)
    rw [hk] at hm'
    obtain rfl := Option.some.inj (hm.symm.trans hm')
    exact registerValue_eq hm (by rw [← hreg, ← hfrozen]; rfl) r

/-- Four dependent `addi` and `lw x2, -1(x0)`. -/
def chainImage : Istream :=
  { text := "@0 93 00 10 00 93 80 10 00 93 80 10 00 93 80 10 00 03 21 f0 ff".toList }

/-- The request is sent behind three `addi` of which only the first is ready. -/
theorem memory_fault_precise_iff_sample :
    (((new fun _ => baseOrders).load chainImage).2.cycles 10).committedCount = 4 ∧
      (((new fun _ => baseOrders).load chainImage).2.cycles 10).registerValue 1 = 4 ∧
      (((new fun _ => baseOrders).load chainImage).2.cycles 10).registerValue 2 = 0 := by
  have heq : (new fun _ => baseOrders).history chainImage = (loaded chainImage).after :=
    funext fun n => history_eq _ _ n
  have h := history_isRun (new fun _ => baseOrders) chainImage
  obtain ⟨hcode, hrun, hstop, hfault⟩ : everyStep (loaded chainImage).memory.bytes 5 (codeBelow 20) = true ∧
      ((loaded chainImage).after 9).status = .running ∧ ((loaded chainImage).after 10).status = .memoryOutOfBound ∧
      (Rv32i.run (loaded chainImage).memory.bytes 4).any (fun m =>
        m.instruction.op.isMemory && !m.inBounds m.instruction && m.read 1 == 4 && m.read 2 == 0) = true := by
    decide +kernel
  obtain ⟨hlive, htaken, h1, h2, h3⟩ : liveIds (loaded chainImage).after 5 = [1, 2, 3, 4] ∧
      ((loaded chainImage).after 5).taken.map (·.tag) = some (tagOf (loaded chainImage).after 4) ∧
      tagOf (loaded chainImage).after 1 ∉ ((loaded chainImage).after 6).rs.waiting.map (·.destination) ∧
      tagOf (loaded chainImage).after 2 ∉ ((loaded chainImage).after 7).rs.waiting.map (·.destination) ∧
      tagOf (loaded chainImage).after 3 ∉ ((loaded chainImage).after 8).rs.waiting.map (·.destination) := by
    decide +kernel
  obtain ⟨m, hm, hfacts⟩ := (Option.any_eq_true _ _).mp hfault
  simp only [Bool.and_eq_true, Bool.not_eq_true', beq_iff_eq] at hfacts
  obtain ⟨⟨hbounds, hx1⟩, hx2⟩ := hfacts
  obtain ⟨j, id, r, hj, hsend, hiff⟩ := memory_fault_precise_iff (new fun _ => baseOrders) chainImage
    (not_selfModifying hcode) (k := 4) hm (Machine.step_outOfBounds.mpr hbounds) (n := 9) (N := 10)
    (by rw [heq]; exact hrun) (by rw [heq]; exact hstop) (by omega)
  obtain rfl : j = 5 := by omega
  rw [heq] at h hsend hiff
  obtain rfl : id = 4 := by
    rw [hsend.taken, Option.map_some, Option.some.injEq, hsend.tag] at htaken
    exact tagOf_inj h hsend.live (by rw [hlive]; decide) htaken
  have holder : olderIds (loaded chainImage).after 5 4 = [1, 2, 3] := by rw [olderIds, hlive]; decide
  obtain ⟨-, hcount, hreg⟩ := hiff.mpr (by
    intro p a hpa
    rw [holder] at hpa ⊢
    match p, hpa with
    | 0, rfl => exact inTime_of_left (by decide) h1
    | 1, rfl => exact inTime_of_left (by decide) h2
    | 2, rfl => exact inTime_of_left (by decide) h3
    | p + 3, hpa => cases hpa)
  exact ⟨hcount, (hreg 1).trans hx1, (hreg 2).trans hx2⟩

end Cpu

end TomasuloCpu
