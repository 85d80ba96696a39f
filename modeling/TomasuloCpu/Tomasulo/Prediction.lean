/-
  TomasuloCpu.Tomasulo.Prediction — what branches are predicted from.

  The counters change with the branches that commit, so after `c` steps they are those that
  the first `c` steps of the sequential run train (`counters_follow`). A branch is predicted
  when it issues, from the counters of a step at most 32 back, and the machine flushes where
  that prediction is not what the step does: which steps of a program flush is decided by
  its sequential run and by how far the commit is at each issue (`flushes_predicted`).
-/
import TomasuloCpu.Tomasulo.Latency
import TomasuloCpu.Tomasulo.Statistics

namespace TomasuloCpu

open Keyed Rv32i

/-! ## Training by the sequential run -/

namespace Rv32i

/-- Whether the step takes its branch. -/
def Machine.takes (m : Machine) : Bool :=
  taken m.instruction.op (m.read m.instruction.rs1) (m.read m.instruction.rs2)

/-- The counters behind the step. -/
def Machine.train (m : Machine) (counters : Nat → BitVec 8) : Nat → BitVec 8 :=
  if m.instruction.op.isBranch then
    Function.update counters (BranchPredictor.indexOf m.pc)
      (BranchPredictor.train (counters (BranchPredictor.indexOf m.pc)) m.takes)
  else counters

/-- Where the step is predicted to go. -/
def Machine.predicted (m : Machine) (counters : Nat → BitVec 8) : Address :=
  if m.instruction.op.isBranch then
    if BranchPredictor.kWeakTaken ≤ counters (BranchPredictor.indexOf m.pc) then m.pc + m.instruction.immediate
    else m.pc + 4
  else if m.instruction.op = .jal then m.pc + m.instruction.immediate
  else m.pc + 4

/-- The counters behind the first `n` steps. -/
def branchCounters (memory : Nat → Byte) : Nat → Nat → BitVec 8
  | 0 => fun _ => BranchPredictor.kWeakNotTaken
  | n + 1 =>
    match run memory n with
    | some m => m.train (branchCounters memory n)
    | none => branchCounters memory n

theorem train_le {counter : BitVec 8} (h : counter ≤ BranchPredictor.kStrongTaken) (taken : Bool) :
    BranchPredictor.train counter taken ≤ BranchPredictor.kStrongTaken := by
  unfold BranchPredictor.kStrongTaken at h ⊢
  unfold BranchPredictor.train BranchPredictor.kStrongTaken BranchPredictor.kStrongNotTaken
  cases taken with
  | true =>
    rw [if_pos rfl]
    by_cases hlt : counter < 3
    · rw [if_pos hlt]
      bv_omega
    · rw [if_neg hlt]
      exact h
  | false =>
    rw [if_neg (by decide)]
    by_cases hlt : 0 < counter
    · rw [if_pos hlt]
      bv_omega
    · rw [if_neg hlt]
      exact h

/-- A counter has two bits. -/
theorem branchCounters_le (memory : Nat → Byte) (n i : Nat) :
    branchCounters memory n i ≤ BranchPredictor.kStrongTaken := by
  induction n generalizing i with
  | zero => exact (by decide : BranchPredictor.kWeakNotTaken ≤ BranchPredictor.kStrongTaken)
  | succ n ih =>
    rw [branchCounters]
    cases run memory n with
    | none => exact ih i
    | some m =>
      show m.train (branchCounters memory n) i ≤ _
      unfold Machine.train
      split
      · rw [Function.update_apply]
        split
        · exact train_le (ih _) _
        · exact ih i
      · exact ih i

end Rv32i

namespace Core

variable {s : Core} {tr : Nat → Core} {n k f id : Nat} {m : Machine} {x : RobEntry}

/-! ## What the committed entry says -/

theorem finish_taken (hv : s.completion.valid = true) (ht : x.tag = s.completion.tag)
    (hc : s.completion.hasControlResult = true) : (s.finish x).branchTaken = s.completion.branchTaken := by
  rw [finish, ReorderBuffer.finish, ReorderBuffer.complete, if_pos (by simp [hv, ht])]
  unfold ReorderBuffer.storeComplete ReorderBuffer.completeEntry
  rw [if_pos hc]
  split <;> rfl

/-- The entry keeps what the bus told it about its branch. -/
theorem Broadcasts.taken_kept (h : IsRun tr) (hb : Broadcasts tr f id)
    (hc : (tr f).completion.hasControlResult = true) (hfn : f < n) (hid : id ∈ liveIds tr n) :
    ∃ x ∈ (tr n).rob.live, x.tag = tagOf tr id ∧ x.ready = true ∧ x.branchTaken = (tr f).completion.branchTaken := by
  induction hfn with
  | refl =>
    obtain ⟨x, hx, hxt, -⟩ := completion_waiting (h.inv f) hb.valid
    have ht : x.tag = tagOf tr id := hxt.trans hb.tag
    refine ⟨_, entry_next h hb.running hx ht hid, (finish_tag x).trans ht, ?_, finish_taken hb.valid hxt hc⟩
    rw [finish_ready (h.inv f) hx, finishes, hb.valid, hxt]
    simp
  | @step n hfn ih =>
    have hidn := ids_of_le hid (Nat.lt_of_lt_of_le (ids_lt hb.live) (Nat.le_of_lt hfn)) (Nat.le_succ n)
    obtain ⟨x, hx, ht, hr, htaken⟩ := ih hidn
    refine ⟨x, ?_, ht, hr, htaken⟩
    by_cases hrun : (tr n).status = .running
    · have hnext := entry_next h hrun hx ht hid
      rw [finish_of_ready (h.inv n) hx hr] at hnext
      exact hnext
    · rw [h.step, tick_of_stopped hrun]
      exact hx

/-- A committing branch has been taken if its step takes it. -/
theorem committed_taken (h : IsRun tr) (hs : ¬ ModifiesWithin ReorderBuffer.kCapacity (tr 0).memory.bytes)
    (hc : Commits tr n id) (hm : run (tr 0).memory.bytes (retired tr n) = some m)
    (hx : x ∈ (tr n).rob.live) (ht : x.tag = tagOf tr id) (hbranch : m.instruction.op.isBranch = true) :
    x.branchTaken = m.takes := by
  have hop := op_of_commits h hs hc hm
  have halu : (opOf tr id).isAlu = true := by
    rw [hop]
    cases hi : m.instruction.op <;> simp [hi, Op.isBranch] at hbranch <;> rfl
  obtain ⟨d, f, -, -, hfn, hd, hb⟩ := integer_way h hc halu
  obtain ⟨e, he, het, hcompletes⟩ := hd.completes h hb
  obtain ⟨-, hsim, i, y, hpy, hty⟩ := committed_onPath h hs hc hm (ids_lt hd.live) (live_le hc hd.live)
  have hpacket := departing_packet (h.inv d) hsim he hpy (hty.trans het.symm)
  have htaken : (computed e).branchTaken = (m.instruction.op.isJump || m.takes) := by
    rw [computed, hpacket]
    exact FunctionalUnit.executeInstruction_branchTaken rfl rfl
  have hcontrol : (tr f).completion.hasControlResult = true := by
    have hspec := (computed_spec (departing_alu (h.inv d) he)).2.2
    have hop' : (ReservationStation.makeExecute e).op = m.instruction.op := by rw [hpacket]; rfl
    rw [hcompletes, hspec, show e.op = m.instruction.op from hop', hbranch]
    rfl
  obtain ⟨z, hz, hzt, -, hztaken⟩ := hb.taken_kept h hcontrol hfn hc.mem
  have hjump : m.instruction.op.isJump = false := by
    cases hi : m.instruction.op <;> simp [hi, Op.isBranch] at hbranch <;> rfl
  rw [inj (h.inv n).nodup hx hz (ht.trans hzt.symm), hztaken, hcompletes, htaken, hjump, Bool.false_or]

/-! ## The counters -/

theorem commits_some (h : IsRun tr) (hx : (tr n).committed = some x) :
    ∃ id, Commits tr n id ∧ x ∈ (tr n).rob.live ∧ x.tag = tagOf tr id := by
  obtain ⟨hrun, hc, hhead, -⟩ := committed_some (h.inv n) hx
  obtain ⟨id, hid, ht⟩ := head_id h hhead
  exact ⟨id, ⟨hrun, hc, hid⟩, List.mem_of_mem_head? hhead, ht.symm⟩

/-- What a committing entry tells the predictor is its step. -/
theorem training_step (h : IsRun tr) (hs : ¬ ModifiesWithin ReorderBuffer.kCapacity (tr 0).memory.bytes)
    (hc : Commits tr n id) (hm : run (tr 0).memory.bytes (retired tr n) = some m)
    (hx : x ∈ (tr n).rob.live) (ht : x.tag = tagOf tr id) (p : PredictorState) :
    (BranchPredictor.step p x.training).counters = m.train p.counters := by
  have hbranch : x.isBranch = m.instruction.op.isBranch := by
    rw [((h.inv n).entry x hx).branch, op_of_id h hc.mem hx ht, op_of_commits h hs hc hm]
  cases hb : m.instruction.op.isBranch with
  | true =>
    have hpc : x.pc = m.pc := by
      rw [(entry_history h hc.mem hx ht).1, (issued_step h hs hc hm).1]
    rw [RobEntry.training, if_pos (hbranch.trans hb), Machine.train, if_pos hb, hpc,
      committed_taken h hs hc hm hx ht hb]
    rfl
  | false =>
    rw [RobEntry.training, if_neg (by simp [hbranch, hb]), Machine.train, if_neg (by simp [hb])]
    rfl

theorem counters_follow (h : IsRun tr) (hs : ¬ ModifiesWithin ReorderBuffer.kCapacity (tr 0).memory.bytes)
    (hstart : (tr 0).predictor = BranchPredictor.resetState) (n : Nat) :
    (tr n).predictor.counters = branchCounters (tr 0).memory.bytes (retired tr n) := by
  induction n with
  | zero => rw [hstart]; rfl
  | succ n ih =>
    by_cases hrun : (tr n).status = .running
    · rw [h.step, predictor_tick hrun]
      cases hx : (tr n).committed with
      | none =>
        have hidle := (committed_none.mp hx).resolve_left fun hstop => hstop hrun
        rw [retired, retires_idle hidle]
        exact ih
      | some x =>
        obtain ⟨id, hc, hxl, ht⟩ := commits_some h hx
        obtain ⟨y, m, hp, -⟩ := commits_onPath h hs hc
        have hm : run (tr 0).memory.bytes (retired tr n) = some m := hp.step
        have htrain := training_step h hs hc hm hxl ht (tr n).predictor
        rw [Option.map_some, Option.getD_some, htrain, ih]
        by_cases hop : opOf tr id = .halt
        · have hnone : m.instruction.op.isBranch = false := by rw [← op_of_commits h hs hc hm, hop]; rfl
          rw [retired, retires_of_halt h hc hop, Machine.train, if_neg (by simp [hnone])]
          rfl
        · rw [retired, retires_of_commits h hc hop, branchCounters, hm]
    · rw [h.step, tick_of_stopped hrun, retired, retires_stopped hrun, ih]
      rfl

/-! ## The prediction of an issue -/

/-- A live entry is predicted as its issue predicted it. -/
theorem predicted_history (h : IsRun tr) (hid : id ∈ liveIds tr n) (hx : x ∈ (tr n).rob.live)
    (ht : x.tag = tagOf tr id) :
    ∃ d, (tr id).issuing = some d ∧ x.predictedNextPc = d.predictedPc := by
  induction n generalizing x with
  | zero => cases hid
  | succ n ih =>
    by_cases hrun : (tr n).status = .running
    · rw [h.step] at hx
      rcases mem_tick_live hrun (h.inv n).rob hx with ⟨-, y, hy, rfl⟩ | ⟨d, hd, rfl⟩
      · rw [finish_tag] at ht
        rw [finish_predicted]
        exact ih (kept_id h hrun hid hy ht) hy ht
      · obtain rfl := tagOf_inj h hid (issued_id hrun (by rw [hd]; rfl)) (show tagOf tr id = tagOf tr n from ht.symm)
        exact ⟨d, hd, rfl⟩
    · rw [h.step, tick_of_stopped hrun] at hx
      rw [liveIds_stopped hrun] at hid
      exact ih hid hx ht

/-- The prediction for the instruction of a step. -/
theorem predictedNextPc_step (s : Core) (m : Machine) :
    (s.predictedNextPc m.instruction m.pc).1 = m.predicted s.predictor.counters := by
  have hbranch : m.instruction.isBranch = m.instruction.op.isBranch := (Machine.instruction_spec m).branch
  rw [predictedNextPc, hbranch, Machine.predicted]
  simp only [BranchPredictor.predictTaken, decide_eq_true_eq]
  split
  · rfl
  · split <;> rfl

/-- A committing entry was predicted from the counters at its issue. -/
theorem committed_predicted (h : IsRun tr) (hs : ¬ ModifiesWithin ReorderBuffer.kCapacity (tr 0).memory.bytes)
    (hstart : (tr 0).predictor = BranchPredictor.resetState)
    (hc : Commits tr n id) (hm : run (tr 0).memory.bytes (retired tr n) = some m)
    (hx : x ∈ (tr n).rob.live) (ht : x.tag = tagOf tr id) :
    x.predictedNextPc = m.predicted (branchCounters (tr 0).memory.bytes (retired tr id)) := by
  obtain ⟨d, hd, hpred⟩ := predicted_history h hc.mem hx ht
  obtain ⟨hpc, w, hw, hdec⟩ := issued_step h hs hc hm
  have hissue := issuing_some hd
  obtain ⟨w', hw', hdec'⟩ := hissue.word
  obtain rfl : w' = w := Option.some.inj (hw'.symm.trans hw)
  have hinstr : d.decoded = m.instruction := hdec'.trans hdec
  rw [hpred, hissue.predicted, hinstr, hpc, predictedNextPc_step, counters_follow h hs hstart id]

/-- The commit is at most 32 steps past where it was at the issue. -/
theorem retired_since_issue (h : IsRun tr) (hs : ¬ ModifiesWithin ReorderBuffer.kCapacity (tr 0).memory.bytes)
    (hc : Commits tr n id) : retired tr n ≤ retired tr id + 32 := by
  obtain ⟨x, m, hp, ht⟩ := commits_onPath h hs hc
  have hlt := ids_lt hc.mem
  obtain ⟨i, y, hpy, -, heq⟩ := onPath_before h hs hc.running hc.mem (show id < id + 1 by omega) hlt hp ht
  have hlen := (List.getElem?_eq_some_iff.mp hpy.entry).1
  have hroom : (tr (id + 1)).rob.live.length ≤ 32 := by
    rw [ReorderBuffer.length_live]
    exact (h.inv (id + 1)).rob.ring.count_le
  have hone := retires_le_one (tr id)
  rw [retired] at heq
  omega

/-- The cycle that commits a step flushes if the step does not go where it was predicted. -/
theorem flush_iff_predicted (h : IsRun tr) (hs : ¬ ModifiesWithin ReorderBuffer.kCapacity (tr 0).memory.bytes)
    (hstart : (tr 0).predictor = BranchPredictor.resetState)
    (hc : Commits tr n id) (hm : run (tr 0).memory.bytes (retired tr n) = some m) :
    (tr n).flush = true ↔ ∃ m', m.next = some m' ∧
      m.predicted (branchCounters (tr 0).memory.bytes (retired tr id)) ≠ m'.pc := by
  have hi := h.inv n
  obtain ⟨x, hx, hr⟩ := (committing_iff hi.rob).mp hc.committing
  have hxl := List.mem_of_mem_head? hx
  obtain ⟨id', hid', ht⟩ := head_id h hx
  obtain rfl : id = id' := Option.some.inj (hc.head.symm.trans hid')
  have hsim := (follows_far h hs n).1 (by simp [hc.running])
  obtain ⟨y, hp⟩ := hsim.head (by rw [← List.head?_eq_getElem?]; exact hx)
  obtain rfl : y = m := Option.some.inj (hp.step.symm.trans hm)
  have hpred := committed_predicted h hs hstart hc hm hxl ht.symm
  have hcontrol := Fetched.control hi hxl (hsim.fetched 0 x y hp)
  rw [flush_iff hi.rob, ← hpred]
  constructor
  · rintro ⟨z, hz, -, hzc, hne⟩
    obtain rfl := Option.some.inj (hx.symm.trans hz)
    have hop : x.op ≠ .halt := by
      intro hop
      have hok := hi.entry x hxl
      rw [hok.branch, hok.jump, hop] at hzc
      cases hzc
    obtain ⟨m', hm', hactual⟩ := (hsim.done 0 x y hp hr hop).next
    exact ⟨m', hm', hactual hzc ▸ hne⟩
  · rintro ⟨m', hm', hne⟩
    have hop : x.op ≠ .halt := by
      intro hop
      obtain ⟨-, hno, -⟩ := Machine.next_eq_some.mp hm'
      exact hno ((hsim.fetched 0 x y hp).op.symm.trans hop)
    obtain ⟨m'', hm'', hactual⟩ := (hsim.done 0 x y hp hr hop).next
    obtain rfl := Option.some.inj (hm'.symm.trans hm'')
    by_cases hxc : (x.isBranch || x.isJump) = true
    · exact ⟨x, hx, hr, hxc, by rw [hactual hxc]; exact hne⟩
    · -- what transfers no control is predicted to its fall-through and goes there
      rw [Bool.not_eq_true] at hxc
      rw [hxc, eq_comm, Bool.or_eq_false_iff] at hcontrol
      refine absurd ?_ hne
      rw [hsim.predicted x hxl hxc, hp.pc, Machine.next_pc hm', Machine.target_sequential hcontrol.1 hcontrol.2]

end Core

namespace Cpu

open TomasuloCpu.Core

/-- The counters are those that the committed steps of the sequential run train, and they
    stay in two bits. A step is predicted at its issue, at most 32 steps before it commits,
    and the cycle of its commit flushes if and only if the prediction from the counters of
    that moment is not where the step goes. -/
theorem flushes_predicted (cpu : Cpu) (input : Istream)
    (hs : ¬ ModifiesWithin ReorderBuffer.kCapacity (cpu.load input).2.memoryUnit.memory.bytes) :
    (∀ n, (cpu.history input n).predictor.counters =
        branchCounters (cpu.load input).2.memoryUnit.memory.bytes (retired (cpu.history input) n) ∧
      ∀ i, (cpu.history input n).predictor.counters i ≤ BranchPredictor.kStrongTaken) ∧
    ∀ n id, Commits (cpu.history input) n id →
      retired (cpu.history input) n ≤ retired (cpu.history input) id + 32 ∧
      ∃ m, Rv32i.run (cpu.load input).2.memoryUnit.memory.bytes (retired (cpu.history input) n) = some m ∧
        ((cpu.history input n).flush = true ↔ ∃ m', m.next = some m' ∧
          m.predicted (branchCounters (cpu.load input).2.memoryUnit.memory.bytes (retired (cpu.history input) id)) ≠
            m'.pc) := by
  have h := history_isRun cpu input
  have hstart : (cpu.history input 0).predictor = BranchPredictor.resetState := by rw [history_eq]; rfl
  refine ⟨fun n => ⟨counters_follow h hs hstart n, fun i => ?_⟩, fun n id hc => ⟨retired_since_issue h hs hc, ?_⟩⟩
  · rw [counters_follow h hs hstart n]
    exact branchCounters_le _ _ _
  · obtain ⟨x, m, hp, -⟩ := commits_onPath h hs hc
    exact ⟨m, hp.step, flush_iff_predicted h hs hstart hc hp.step⟩

theorem branch_code : ¬ SelfModifying (loaded branchImage).memory.bytes :=
  have hcode : everyStep (loaded branchImage).memory.bytes 2 (codeBelow 12) = true := by decide +kernel
  not_selfModifying hcode

/-- The `beq` flushes in cycle 3. -/
theorem flushes_predicted_sample :
    ∃ (id : Nat) (m m' : Machine), Commits ((new fun _ => baseOrders).history branchImage) 3 id ∧ m.next = some m' ∧
      m.predicted (branchCounters (loaded branchImage).memory.bytes
        (retired ((new fun _ => baseOrders).history branchImage) id)) ≠ m'.pc := by
  have h := history_isRun (new fun _ => baseOrders) branchImage
  obtain ⟨hcommit, hflush⟩ : ((loaded branchImage).after 3).committed.isSome = true ∧
      ((loaded branchImage).after 3).flush = true := by decide +kernel
  rw [← history_eq (new fun _ => baseOrders)] at hcommit hflush
  obtain ⟨x, hx⟩ := Option.isSome_iff_exists.mp hcommit
  obtain ⟨id, hc, -⟩ := commits_some h hx
  obtain ⟨-, m, -, hiff⟩ := (flushes_predicted (new fun _ => baseOrders) branchImage
    (not_modifiesWithin branch_code _)).2 3 id hc
  obtain ⟨m', hm', hne⟩ := hiff.mp hflush
  exact ⟨id, m, m', hc, hm', hne⟩

end Cpu

end TomasuloCpu
