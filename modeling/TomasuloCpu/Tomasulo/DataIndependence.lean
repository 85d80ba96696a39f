/-
  TomasuloCpu.Tomasulo.DataIndependence — timing depends on control flow, not on data.

  Two loads of the same program over different data, whose sequential runs take the same
  branches, run in lockstep: behind every cycle the two machines are in the same shape
  (`same_shape`), and in every cycle the same happens to the same instructions
  (`timing_follows_control`). This covers what is fetched on mispredicted paths too, since
  predictions do not leave the program's text. What can tell data apart is a data fault,
  which a load raises by its address even on a path that is left later.
-/
import TomasuloCpu.Tomasulo.Differential
import TomasuloCpu.Tomasulo.Prediction
import TomasuloCpu.Tomasulo.ShapeCycle

namespace TomasuloCpu

open Rv32i

/-! ## Control flow and program text -/

namespace Rv32i

variable {memory memory' : Nat → Byte} {m m' : Machine} {n : Nat} {text : Address → Prop}

/-- Where the step is, and whether it takes a branch. -/
def Machine.control (m : Machine) : Address × Bool := (m.pc, m.instruction.op.isBranch && m.takes)

/-- The two runs go the same way and stop behind the same number of steps. -/
def SameControl (memory memory' : Nat → Byte) : Prop :=
  ∀ n, (run memory n).map Machine.control = (run memory' n).map Machine.control

/-- Addresses of instructions: the run stays there, and so does every prediction. -/
structure IsText (memory : Nat → Byte) (text : Address → Prop) : Prop where
  reached : ∀ n m, run memory n = some m → text m.pc
  closed : ∀ m : Machine, m.memory = memory → text m.pc → m.instruction.op ≠ .invalid → m.instruction.op ≠ .halt →
    ∀ counters, text (m.predicted counters)

/-- A byte of an instruction. -/
def TextByte (text : Address → Prop) (a : Nat) : Prop := ∃ pc, text pc ∧ pc.toNat ≤ a ∧ a < pc.toNat + 4

/-- No step stores to an instruction. -/
def KeepsText (memory : Nat → Byte) (text : Address → Prop) : Prop :=
  ∀ n m a, run memory n = some m → m.Stores a → ¬ TextByte text a

/-- The same program over different data: one text that neither run stores to, and one control
    flow. -/
structure SameProgram (memory memory' : Nat → Byte) (text : Address → Prop) : Prop where
  isText : IsText memory text
  code : ∀ a, TextByte text a → memory' a = memory a
  keeps : KeepsText memory text
  keeps' : KeepsText memory' text
  control : SameControl memory memory'

theorem SameControl.some (h : SameControl memory memory') (hm : run memory n = some m) :
    ∃ m', run memory' n = some m' ∧ m'.control = m.control := by
  have heq := h n
  rw [hm, Option.map_some, eq_comm, Option.map_eq_some_iff] at heq
  exact heq

theorem KeepsText.bytes (h : KeepsText memory text) (hm : run memory n = some m) {a : Nat} (ha : TextByte text a) :
    m.memory a = memory a := by
  induction n generalizing m with
  | zero =>
    obtain rfl : start memory = m := Option.some.inj hm
    rfl
  | succ n ih =>
    obtain ⟨m', hm', hnext⟩ := run_pred hm
    rw [Machine.next_memory_outside hnext fun hs => h n m' a hm' hs ha, ih hm']

theorem KeepsText.notModifies (h : KeepsText memory text) (hr : ∀ n m, run memory n = some m → text m.pc)
    (distance : Nat) : ¬ ModifiesWithin distance memory := by
  rintro ⟨i, j, a, m, m', -, -, hm, hm', hs, -, hle, hlt⟩
  exact h i m a hm hs ⟨m'.pc, hr j m' hm', hle, hlt⟩

theorem SameProgram.reached' (h : SameProgram memory memory' text) {m : Machine} (hm : run memory' n = some m) :
    text m.pc := by
  have heq := h.control n
  rw [hm, Option.map_some, Option.map_eq_some_iff] at heq
  obtain ⟨y, hy, hpc⟩ := heq
  rw [← show y.pc = m.pc from congrArg Prod.fst hpc]
  exact h.isText.reached n y hy

/-! ## A check by computation -/

/-- What is at `pc` is predicted to go to addresses in `text` only. -/
def staysIn (memory : Nat → Byte) (text : List Address) (pc : Address) : Bool :=
  let d := ({ start memory with pc := pc } : Machine).instruction
  d.op == .invalid || d.op == .halt ||
    ((d.op == .jal || text.contains (pc + 4)) &&
      (!(d.op.isBranch || d.op == .jal) || text.contains (pc + d.immediate)))

/-- The step is in `text` and stores to none of its words. -/
def textStep (text : List Address) (m : Machine) : Bool :=
  text.contains m.pc && (!m.instruction.op.isStore || text.all fun pc =>
    decide (pc.toNat + 4 ≤ (m.address m.instruction).toNat ∨
      (m.address m.instruction).toNat + accessWidth m.instruction.op ≤ pc.toNat))

/-- Both runs stop within `n` steps, and until then are in `text` and go the same way. -/
def checkProgram (memory memory' : Nat → Byte) (text : List Address) (n : Nat) : Bool :=
  everyStep memory n (textStep text) && everyStep memory' n (textStep text) && text.all (staysIn memory text) &&
    (text.all fun pc => (List.range 4).all fun i => memory' (pc.toNat + i) == memory (pc.toNat + i)) &&
    (List.range n).all fun k => (run memory k).map Machine.control == (run memory' k).map Machine.control

theorem textStep_spec {text : List Address} (h : textStep text m = true) :
    m.pc ∈ text ∧ ∀ a, m.Stores a → ¬ TextByte (· ∈ text) a := by
  rw [textStep, Bool.and_eq_true, List.contains_iff_mem] at h
  refine ⟨h.1, ?_⟩
  rintro a ⟨hstore, hlow, hhigh⟩ ⟨pc, hpc, hle, hlt⟩
  have hapart := h.2
  rw [hstore, Bool.not_true, Bool.false_or, List.all_eq_true] at hapart
  have hword := hapart pc hpc
  rw [decide_eq_true_eq] at hword
  omega

theorem staysIn_spec {text : List Address} (h : staysIn memory text m.pc = true) (hm : m.memory = memory)
    (hv : m.instruction.op ≠ .invalid) (hh : m.instruction.op ≠ .halt) (counters : Nat → BitVec 8) :
    m.predicted counters ∈ text := by
  have hinstr : ({ start memory with pc := m.pc } : Machine).instruction = m.instruction := by
    subst hm
    rfl
  simp only [staysIn, hinstr, Bool.or_eq_true, Bool.and_eq_true, beq_iff_eq, Bool.not_eq_true', Bool.or_eq_false_iff,
    List.contains_iff_mem, hv, hh, false_or] at h
  obtain ⟨hnext, htarget⟩ := h
  unfold Machine.predicted
  cases hb : m.instruction.op.isBranch with
  | true =>
    have hne : m.instruction.op ≠ .jal := by
      intro hj
      rw [hj] at hb
      cases hb
    rw [if_pos rfl]
    split
    · exact htarget.resolve_left fun hc => by rw [hb] at hc; cases hc.1
    · exact hnext.resolve_left hne
  | false =>
    rw [if_neg (by decide)]
    split
    · rename_i hj
      exact htarget.resolve_left fun hc => by rw [hj] at hc; cases hc.2
    · rename_i hj
      exact hnext.resolve_left hj

/-- A checked run has stopped behind the steps it is checked for. -/
theorem everyStep_none {p : Machine → Bool} (h : everyStep memory n p = true) {k : Nat} (hk : n ≤ k) :
    run memory k = none := by
  rw [everyStep, Bool.and_eq_true, Option.isNone_iff_eq_none] at h
  by_contra hc
  obtain ⟨m, hm⟩ := Option.ne_none_iff_exists'.mp hc
  obtain ⟨y, hy⟩ := run_of_le hk hm
  rw [h.1] at hy
  cases hy

theorem sameProgram_of_check {text : List Address} (h : checkProgram memory memory' text n = true) :
    SameProgram memory memory' (· ∈ text) := by
  simp only [checkProgram, Bool.and_eq_true] at h
  obtain ⟨⟨⟨⟨hrun, hrun'⟩, hclosed⟩, hcode⟩, hcontrol⟩ := h
  rw [List.all_eq_true] at hclosed hcode hcontrol
  refine ⟨⟨fun k m hm => (textStep_spec (everyStep_spec hrun hm)).1, fun m hm hpc hv hh counters =>
      staysIn_spec (hclosed m.pc hpc) hm hv hh counters⟩, ?_,
    fun k m a hm hs => (textStep_spec (everyStep_spec hrun hm)).2 a hs,
    fun k m a hm hs => (textStep_spec (everyStep_spec hrun' hm)).2 a hs, fun k => ?_⟩
  · rintro a ⟨pc, hpc, hle, hlt⟩
    have hword := hcode pc hpc
    rw [List.all_eq_true] at hword
    have hbyte := hword (a - pc.toNat) (List.mem_range.mpr (by omega))
    rwa [Nat.add_sub_cancel' hle, beq_iff_eq] at hbyte
  · by_cases hk : k < n
    · exact beq_iff_eq.mp (hcontrol k (List.mem_range.mpr hk))
    · rw [everyStep_none hrun (Nat.le_of_not_lt hk), everyStep_none hrun' (Nat.le_of_not_lt hk)]

end Rv32i

namespace Core

variable {tr tr' : Nat → Core} {n id : Nat} {text : Address → Prop}

/-! ## The fetch stays in the text -/

theorem text_bytes (h : IsRun tr) (hs : ¬ ModifiesWithin ReorderBuffer.kCapacity (tr 0).memory.bytes)
    (hk : KeepsText (tr 0).memory.bytes text) {a : Nat} (ha : TextByte text a) :
    (tr n).memory.bytes a = (tr 0).memory.bytes a := by
  have hmem := (follows_far h hs n).2
  by_cases hl : Latched tr n
  · obtain ⟨m, hm, hbytes⟩ := hmem.latched hl
    rw [hbytes, hk.bytes hm ha]
  · obtain ⟨m, hm, hbytes⟩ := hmem.settled hl
    rw [hbytes, hk.bytes hm ha]

/-- What issues in the text is predicted to stay there. -/
theorem predicted_text (h : IsRun tr) (hs : ¬ ModifiesWithin ReorderBuffer.kCapacity (tr 0).memory.bytes)
    (hk : KeepsText (tr 0).memory.bytes text) (ht : IsText (tr 0).memory.bytes text) (hpc : text (tr n).pc)
    {d : DecodePacket} (hd : (tr n).issuing = some d) (hop : d.decoded.op ≠ .halt) : text d.predictedPc := by
  have hi := issuing_some hd
  obtain ⟨w, hw, hdec⟩ := hi.word
  let m : Machine := { start (tr 0).memory.bytes with pc := (tr n).pc }
  have hfetch : m.fetch = some w := by
    rw [← hw]
    exact (Machine.fetch_image fun a hle hlt => text_bytes h hs hk ⟨_, hpc, hle, hlt⟩).symm
  have hinstr : m.instruction = d.decoded := (Machine.instruction_of_fetch hfetch).trans hdec.symm
  have hpred : d.predictedPc = m.predicted (tr n).predictor.counters := by
    rw [hi.predicted, ← hinstr]
    exact predictedNextPc_step (tr n) m
  rw [hpred]
  exact ht.closed m rfl hpc (by rw [hinstr]; exact hi.op_ne) (by rw [hinstr]; exact hop) _

/-- Control goes from a head that transfers it to the next step. -/
theorem head_goes (h : IsRun tr) (hs : ¬ ModifiesWithin ReorderBuffer.kCapacity (tr 0).memory.bytes)
    (hrun : (tr n).status = .running) {x : RobEntry} (hx : (tr n).rob.live.head? = some x) (hr : x.ready = true)
    (hc : (x.isBranch || x.isJump) = true) :
    ∃ m, run (tr 0).memory.bytes (retired tr n + 1) = some m ∧ x.actualNextPc = m.pc := by
  have hsim := (follows_far h hs n).1 (by simp [hrun])
  obtain ⟨m, hp⟩ := hsim.head (by rw [← List.head?_eq_getElem?]; exact hx)
  have hop : x.op ≠ .halt := by
    intro hop
    have hok := (h.inv n).entry x (List.mem_of_mem_head? hx)
    rw [hok.branch, hok.jump, hop] at hc
    cases hc
  obtain ⟨m', hm', hactual⟩ := (hsim.done 0 x m hp hr hop).next
  exact ⟨m', (run_succ hp.step).trans hm', hactual hc⟩

/-- Unless it has stopped, the fetch is in the text. -/
theorem fetch_text (h : IsRun tr) (hs : ¬ ModifiesWithin ReorderBuffer.kCapacity (tr 0).memory.bytes)
    (hk : KeepsText (tr 0).memory.bytes text) (ht : IsText (tr 0).memory.bytes text)
    (hgo : (tr n).fetchStopped = false) : text (tr n).pc := by
  induction n with
  | zero =>
    obtain ⟨counters, input, h0⟩ := h.start
    rw [h0]
    exact ht.reached 0 _ rfl
  | succ n ih =>
    by_cases hrun : (tr n).status = .running
    · cases hfl : (tr n).flush with
      | true =>
        -- the fetch restarts where the next step is
        obtain ⟨x, hx, hr, hc, -⟩ := (flush_iff (h.inv n).rob).mp hfl
        obtain ⟨m, hm, hactual⟩ := head_goes h hs hrun hx hr hc
        rw [h.step, pc_tick_flush hrun (h.inv n).rob hfl hx, hactual]
        exact ht.reached _ m hm
      | false =>
        rw [h.step, fetchStopped_eq hrun, hfl] at hgo
        rw [h.step, pc_tick hrun hfl]
        cases hd : (tr n).issuing with
        | none =>
          rw [hd] at hgo
          exact ih (by simpa using hgo)
        | some d =>
          rw [hd] at hgo
          simp only [Option.any_some, Bool.not_false, Bool.true_and, Bool.or_eq_false_iff, beq_eq_false_iff_ne] at hgo
          exact predicted_text h hs hk ht (ih hgo.2) hd hgo.1
    · rw [h.step, tick_of_stopped hrun] at hgo ⊢
      exact ih hgo

/-! ## Two runs -/

/-- A cycle that ends without a data fault has seen no access fail. -/
theorem succeeds_of_status (h : IsRun tr) (hrun : (tr n).status = .running)
    (hok : (tr (n + 1)).status ≠ .memoryOutOfBound) : (tr n).memoryFails = false := by
  have hi := h.inv n
  by_contra hf
  rw [Bool.not_eq_false] at hf
  obtain ⟨-, e, rest, hq, -⟩ := memoryFails_head hi hf
  obtain ⟨x, hx, -, -, -, hmem⟩ := hi.queued_entry (show e ∈ (tr n).lsq.queue by rw [hq]; exact List.mem_cons_self)
  rw [h.step] at hok
  cases status_event hi hrun with
  | running _ _ hm _ =>
    rw [hm] at hf
    cases hf
  | halted _ hh =>
    -- a HALT that commits is alone
    obtain ⟨y, hy, -, hop⟩ := halts_head hi hh
    obtain ⟨hlast, -⟩ := (stream_running h hrun).1.halt 0 y (by rw [← List.head?_eq_getElem?]; exact hy) hop
    obtain ⟨z, hz⟩ := List.length_eq_one_iff.mp hlast.symm
    rw [hz] at hx hy
    obtain rfl : z = y := Option.some.inj hy
    obtain rfl := List.mem_singleton.mp hx
    rw [hop] at hmem
    cases hmem
  | memory hst _ _ => exact hok hst
  | fetch _ hl _ _ =>
    rw [hl] at hx
    cases hx
  | invalid _ hl _ _ _ =>
    rw [hl] at hx
    cases hx

/-- A branch that commits is taken if its step takes it. -/
theorem head_taken (h : IsRun tr) (hs : ¬ ModifiesWithin ReorderBuffer.kCapacity (tr 0).memory.bytes)
    (hrun : (tr n).status = .running) {x : RobEntry} (hx : (tr n).rob.live.head? = some x) (hr : x.ready = true) :
    ∃ m, run (tr 0).memory.bytes (retired tr n) = some m ∧ (x.isBranch && x.branchTaken) = m.control.2 := by
  have hc : (tr n).committing = true := (committing_iff (h.inv n).rob).mpr ⟨x, hx, hr⟩
  have hxl := List.mem_of_mem_head? hx
  obtain ⟨id, hid, ht⟩ := head_id h hx
  have hcommits : Commits tr n id := ⟨hrun, hc, hid⟩
  obtain ⟨y, m, hp, -⟩ := commits_onPath h hs hcommits
  have hm : run (tr 0).memory.bytes (retired tr n) = some m := hp.step
  have hbranch : x.isBranch = m.instruction.op.isBranch := by
    rw [((h.inv n).entry x hxl).branch, op_of_id h hcommits.mem hxl ht.symm, op_of_commits h hs hcommits hm]
  refine ⟨m, hm, ?_⟩
  rw [Machine.control, hbranch]
  cases hb : m.instruction.op.isBranch with
  | false => rfl
  | true => rw [committed_taken h hs hcommits hm hxl ht.symm hb]

/-- The heads of two runs that are in the same shape and have the same control flow. -/
theorem same_outcome (h : IsRun tr) (h' : IsRun tr')
    (hs : ¬ ModifiesWithin ReorderBuffer.kCapacity (tr 0).memory.bytes)
    (hs' : ¬ ModifiesWithin ReorderBuffer.kCapacity (tr' 0).memory.bytes)
    (hcontrol : SameControl (tr 0).memory.bytes (tr' 0).memory.bytes) (hshape : (tr n).shape = (tr' n).shape)
    (hretired : retired tr n = retired tr' n) (hrun : (tr n).status = .running) {x x' : RobEntry}
    (hx : ReorderBuffer.front (tr n).rob = some x) (hx' : ReorderBuffer.front (tr' n).rob = some x')
    (hr : x.ready = true) : x.outcome = x'.outcome := by
  have hrob : (tr n).rob.shape = (tr' n).rob.shape := (congrArg Core.rob hshape :)
  have hstatus : (tr n).status = (tr' n).status := (congrArg Core.status hshape :)
  have heads : x.shape = x'.shape := by
    have heq := congrArg ReorderBuffer.front hrob
    rw [ReorderBuffer.front_shape, ReorderBuffer.front_shape, hx, hx'] at heq
    exact Option.some.inj heq
  have hready : x.ready = x'.ready := (congrArg RobEntry.ready heads :)
  have hbranch : x.isBranch = x'.isBranch := (congrArg RobEntry.isBranch heads :)
  have hjump : x.isJump = x'.isJump := (congrArg RobEntry.isJump heads :)
  rw [ReorderBuffer.front_eq (h.inv n).rob] at hx
  rw [ReorderBuffer.front_eq (h'.inv n).rob] at hx'
  refine Prod.ext ?_ ?_
  · -- they go to the next step
    have hpc : x.pc = x'.pc := (congrArg RobEntry.pc heads :)
    show x.successor = x'.successor
    rw [RobEntry.successor, RobEntry.successor, ← hbranch, ← hjump]
    split
    · rename_i hc
      obtain ⟨m, hm, hgoes⟩ := head_goes h hs hrun hx hr hc
      obtain ⟨m', hm', hgoes'⟩ :=
        head_goes h' hs' (hstatus ▸ hrun) hx' (hready ▸ hr) (by rw [← hbranch, ← hjump, hc])
      obtain ⟨y, hy, heq⟩ := hcontrol.some hm
      rw [hretired, hm', Option.some.injEq] at hy
      subst hy
      rw [hgoes, hgoes']
      exact (congrArg Prod.fst heq).symm
    · rw [hpc]
  · obtain ⟨m, hm, htaken⟩ := head_taken h hs hrun hx hr
    obtain ⟨m', hm', htaken'⟩ := head_taken h' hs' (hstatus ▸ hrun) hx' (hready ▸ hr)
    obtain ⟨y, hy, heq⟩ := hcontrol.some hm
    rw [hretired, hm', Option.some.injEq] at hy
    subst hy
    show (x.isBranch && x.branchTaken) = (x'.isBranch && x'.branchTaken)
    rw [htaken, htaken', heq]

/-- One cycle of two runs of the same program. -/
theorem sameCycle (h : IsRun tr) (h' : IsRun tr')
    (hp : SameProgram (tr 0).memory.bytes (tr' 0).memory.bytes text) (hshape : (tr n).shape = (tr' n).shape)
    (hretired : retired tr n = retired tr' n) (hrun : (tr n).status = .running)
    (hok : (tr (n + 1)).status ≠ .memoryOutOfBound) (hok' : (tr' (n + 1)).status ≠ .memoryOutOfBound) :
    SameCycle (tr n) (tr' n) := by
  have hs := hp.keeps.notModifies hp.isText.reached ReorderBuffer.kCapacity
  have hs' := hp.keeps'.notModifies (fun _ _ hm => hp.reached' hm) ReorderBuffer.kCapacity
  have hstatus : (tr n).status = (tr' n).status := (congrArg Core.status hshape :)
  refine ⟨hshape, fun hgo => ?_, fun x x' hx hx' hr => ?_, succeeds_of_status h hrun hok,
    succeeds_of_status h' (hstatus ▸ hrun) hok'⟩
  · -- both fetch what the text says
    let m : Machine := { start (tr 0).memory.bytes with pc := (tr n).pc }
    have hpc : text m.pc := fetch_text h hs hp.keeps hp.isText hgo
    have hfetch : (tr n).memory.readWord m.pc = m.fetch :=
      Machine.fetch_image fun a hle hlt => text_bytes h hs hp.keeps ⟨_, hpc, hle, hlt⟩
    have hfetch' : (tr' n).memory.readWord m.pc = m.fetch :=
      Machine.fetch_image fun a hle hlt =>
        (text_bytes h' hs' hp.keeps' ⟨_, hpc, hle, hlt⟩).trans (hp.code a ⟨_, hpc, hle, hlt⟩)
    exact hfetch.trans hfetch'.symm
  · exact same_outcome h h' hs hs' hp.control hshape hretired hrun hx hx' hr

theorem no_fault_before (h : IsRun tr) (hok : (tr n).status ≠ .memoryOutOfBound) {k : Nat} (hk : k ≤ n) :
    (tr k).status ≠ .memoryOutOfBound := by
  intro hc
  rw [h.frozen (by rw [hc]; decide) hk] at hok
  exact hok hc

/-- As long as no data fault stops them, the two runs are in the same shape. -/
theorem same_shape (h : IsRun tr) (h' : IsRun tr')
    (hp : SameProgram (tr 0).memory.bytes (tr' 0).memory.bytes text) (hstart : (tr 0).shape = (tr' 0).shape)
    (hok : (tr n).status ≠ .memoryOutOfBound) (hok' : (tr' n).status ≠ .memoryOutOfBound) :
    (tr n).shape = (tr' n).shape ∧ retired tr n = retired tr' n ∧ liveIds tr n = liveIds tr' n := by
  induction n with
  | zero => exact ⟨hstart, rfl, rfl⟩
  | succ n ih =>
    obtain ⟨hshape, hretired, hlive⟩ :=
      ih (no_fault_before h hok (Nat.le_succ n)) (no_fault_before h' hok' (Nat.le_succ n))
    have hstatus : (tr n).status = (tr' n).status := (congrArg Core.status hshape :)
    by_cases hrun : (tr n).status = .running
    · have hcycle := sameCycle h h' hp hshape hretired hrun hok hok'
      refine ⟨?_, ?_, ?_⟩
      · rw [h.step, h'.step, tick_shape hcycle]
      · rw [retired, retired, hretired, hcycle.retires]
      · rw [liveIds_running hrun, liveIds_running (hstatus ▸ hrun), hlive, hcycle.keptIds, hcycle.issuing]
    · have hrun' : (tr' n).status ≠ .running := hstatus ▸ hrun
      rw [h.step, h'.step, tick_of_stopped hrun, tick_of_stopped hrun', retired, retired, retires_stopped hrun,
        retires_stopped hrun', liveIds_stopped hrun, liveIds_stopped hrun']
      exact ⟨hshape, congrArg (· + 0) hretired, hlive⟩

/-- The cycle does the same with the same instruction in both runs. -/
structure SameEvents (tr tr' : Nat → Core) (n id : Nat) : Prop where
  commits : Commits tr n id ↔ Commits tr' n id
  flushes : Flushes tr n id ↔ Flushes tr' n id
  dispatches : Dispatches tr n id ↔ Dispatches tr' n id
  broadcasts : Broadcasts tr n id ↔ Broadcasts tr' n id
  sends : (∃ r, Sends tr n id r) ↔ ∃ r, Sends tr' n id r

/-- What happens in one run happens in the other. -/
theorem SameCycle.events (h : SameCycle (tr n) (tr' n)) (hlive : liveIds tr n = liveIds tr' n)
    (htag : ∀ i < n, tagOf tr i = tagOf tr' i) (id : Nat) :
    (Commits tr n id → Commits tr' n id) ∧ (Flushes tr n id → Flushes tr' n id) ∧
      (Dispatches tr n id → Dispatches tr' n id) ∧ (Broadcasts tr n id → Broadcasts tr' n id) ∧
      ((∃ r, Sends tr n id r) → ∃ r, Sends tr' n id r) := by
  refine ⟨fun hc => ?_, fun hf => ?_, fun hd => ?_, fun hb => ?_, fun hs => ?_⟩
  · exact ⟨h.status ▸ hc.running, h.committing ▸ hc.committing, hlive ▸ hc.head⟩
  · exact ⟨h.status ▸ hf.running, h.flush ▸ hf.flush, hlive ▸ hf.behind⟩
  · obtain ⟨e, he, hdest⟩ := hd.departing
    have heq := h.departing
    rw [he, Option.map_some, eq_comm, Option.map_eq_some_iff] at heq
    obtain ⟨e', he', hshape⟩ := heq
    have hdest' : e'.destination = e.destination := (congrArg RsEntry.destination hshape :)
    exact ⟨h.status ▸ hd.running, hlive ▸ hd.live, e', he', by rw [hdest', hdest, htag id (ids_lt hd.live)]⟩
  · have hvalid : (tr n).completion.valid = (tr' n).completion.valid := (congrArg FuResult.valid h.completion :)
    have htags : (tr n).completion.tag = (tr' n).completion.tag := (congrArg FuResult.tag h.completion :)
    exact ⟨h.status ▸ hb.running, hlive ▸ hb.live, hvalid ▸ hb.valid,
      by rw [← htags, hb.tag, htag id (ids_lt hb.live)]⟩
  · obtain ⟨r, hr⟩ := hs
    have heq := h.taken
    rw [hr.taken, Option.map_some, eq_comm, Option.map_eq_some_iff] at heq
    obtain ⟨r', hr', hshape⟩ := heq
    have htags : r'.tag = r.tag := (congrArg DataMemoryRequest.tag hshape :)
    exact ⟨r', hr', hlive ▸ hr.live, by rw [htags, hr.tag, htag id (ids_lt hr.live)]⟩

/-- All that happens before cycle `n` happens to the same instructions in both runs. -/
theorem same_events (h : IsRun tr) (h' : IsRun tr')
    (hp : SameProgram (tr 0).memory.bytes (tr' 0).memory.bytes text) (hstart : (tr 0).shape = (tr' 0).shape)
    (hok : (tr n).status ≠ .memoryOutOfBound) (hok' : (tr' n).status ≠ .memoryOutOfBound) {k : Nat} (hk : k < n)
    (id : Nat) : SameEvents tr tr' k id := by
  have hall (i : Nat) (hi : i < n) := same_shape h h' hp hstart (no_fault_before h hok (Nat.le_of_lt hi))
    (no_fault_before h' hok' (Nat.le_of_lt hi))
  obtain ⟨hshape, hretired, hlive⟩ := hall k hk
  have htag : ∀ i < k, tagOf tr i = tagOf tr' i := fun i hi => by
    have hrob : (tr i).rob.shape = (tr' i).rob.shape := (congrArg Core.rob (hall i (Nat.lt_trans hi hk)).1 :)
    exact (congrArg ReorderBuffer.nextTag hrob :)
  by_cases hrun : (tr k).status = .running
  · have hcycle := sameCycle h h' hp hshape hretired hrun (no_fault_before h hok hk) (no_fault_before h' hok' hk)
    obtain ⟨hc, hf, hd, hb, hs⟩ := hcycle.events hlive htag id
    obtain ⟨hc', hf', hd', hb', hs'⟩ := hcycle.symm.events hlive.symm (fun i hi => (htag i hi).symm) id
    exact ⟨⟨hc, hc'⟩, ⟨hf, hf'⟩, ⟨hd, hd'⟩, ⟨hb, hb'⟩, ⟨hs, hs'⟩⟩
  · -- a machine that has stopped does nothing
    have hstatus : (tr k).status = (tr' k).status := (congrArg Core.status hshape :)
    have hrun' : (tr' k).status ≠ .running := hstatus ▸ hrun
    exact ⟨iff_of_false (fun hc => hrun hc.running) fun hc => hrun' hc.running,
      iff_of_false (fun hf => hrun hf.running) fun hf => hrun' hf.running,
      iff_of_false (fun hd => hrun hd.running) fun hd => hrun' hd.running,
      iff_of_false (fun hb => hrun hb.running) fun hb => hrun' hb.running,
      iff_of_false (fun ⟨_, hs⟩ => hrun (taken_some (h.inv k) hs.taken).1)
        fun ⟨_, hs⟩ => hrun' (taken_some (h'.inv k) hs.taken).1⟩

end Core

namespace Cpu

open TomasuloCpu.Core

/-- When something happens is decided by the program's text and its control flow. Two loads of
    the same program over different data, of which both sequential runs take the same
    branches, run in lockstep as long as neither raises a data fault: the status, the fetch
    pc and all counters are the same behind every cycle, and in every cycle the same
    instructions, those on mispredicted paths included, are issued, leave the station, ask the
    memory, have the bus, commit and are flushed. -/
theorem timing_follows_control (cpu cpu' : Cpu) (input input' : Istream) (text : Address → Prop)
    (hp : SameProgram (cpu.load input).2.memoryUnit.memory.bytes (cpu'.load input').2.memoryUnit.memory.bytes text)
    (hload : (cpu.load input).1.ok = (cpu'.load input').1.ok) (n : Nat)
    (hok : ((cpu.load input).2.cycles n).status ≠ .memoryOutOfBound)
    (hok' : ((cpu'.load input').2.cycles n).status ≠ .memoryOutOfBound) :
    ((cpu.load input).2.cycles n).status = ((cpu'.load input').2.cycles n).status ∧
      ((cpu.load input).2.cycles n).currentPc = ((cpu'.load input').2.cycles n).currentPc ∧
      ((cpu.load input).2.cycles n).cycleCount = ((cpu'.load input').2.cycles n).cycleCount ∧
      ((cpu.load input).2.cycles n).committedCount = ((cpu'.load input').2.cycles n).committedCount ∧
      ((cpu.load input).2.cycles n).branchCount = ((cpu'.load input').2.cycles n).branchCount ∧
      ((cpu.load input).2.cycles n).correctBranchCount = ((cpu'.load input').2.cycles n).correctBranchCount ∧
      liveIds (cpu.history input) n = liveIds (cpu'.history input') n ∧
      ∀ k < n, ∀ id, SameEvents (cpu.history input) (cpu'.history input') k id := by
  have h := history_isRun cpu input
  have h' := history_isRun cpu' input'
  have hstart : (cpu.history input 0).shape = (cpu'.history input' 0).shape := by
    have hreset (memory : MemoryImage) (status : Status) :
        (reset memory status).shape = (reset .clear status).shape := rfl
    have hstatus : (MemoryImage.load input).1.ok = (MemoryImage.load input').1.ok := hload
    rw [history_eq, history_eq]
    show (loaded input).shape = (loaded input').shape
    rw [loaded, loaded, hreset, hreset (MemoryImage.load input').2, hstatus]
  obtain ⟨hshape, -, hlive⟩ := same_shape h h' hp hstart hok hok'
  exact ⟨(congrArg Core.status hshape :), (congrArg Core.pc hshape :), (congrArg Core.cycleCount hshape :),
    (congrArg Core.committedCount hshape :), (congrArg (·.predictor.predictionCount) hshape :),
    (congrArg (·.predictor.correctCount) hshape :), hlive, fun k hk id => same_events h h' hp hstart hok hok' hk id⟩

/-- `lw x1, 64(x0)`, `beq x1, x0, +8`, `add x2, x1, x1`, HALT, over the word 5. -/
def fiveImage : Istream :=
  { text := "@0 83 20 00 04 63 84 00 00 33 81 10 00 13 05 f0 0f @40 05 00 00 00".toList }

/-- The same over the word 7. -/
def sevenImage : Istream :=
  { text := "@0 83 20 00 04 63 84 00 00 33 81 10 00 13 05 f0 0f @40 07 00 00 00".toList }

/-- Over both words HALT is committed in cycle 11. -/
theorem timing_follows_control_sample :
    ∃ id, Commits ((new fun _ => baseOrders).history fiveImage) 11 id ∧
      Commits ((new fun _ => baseOrders).history sevenImage) 11 id := by
  have hcheck : checkProgram (loaded fiveImage).memory.bytes (loaded sevenImage).memory.bytes
      [0, 4, 8, 12] 4 = true := by
    decide +kernel
  have hhalt : ((loaded fiveImage).after 12).status = .halted ∧ ((loaded sevenImage).after 12).status = .halted := by
    decide +kernel
  have hload : (MemoryImage.load fiveImage).1.ok = (MemoryImage.load sevenImage).1.ok := by decide +kernel
  have hcommit : ((loaded fiveImage).after 11).committed.isSome = true := by decide +kernel
  rw [← history_eq (new fun _ => baseOrders), ← history_eq (new fun _ => baseOrders)] at hhalt
  rw [← history_eq (new fun _ => baseOrders)] at hcommit
  obtain ⟨x, hx⟩ := Option.isSome_iff_exists.mp hcommit
  obtain ⟨id, hc, -⟩ := commits_some (history_isRun (new fun _ => baseOrders) fiveImage) hx
  obtain ⟨-, -, -, -, -, -, -, hevents⟩ := timing_follows_control (new fun _ => baseOrders) (new fun _ => baseOrders)
    fiveImage sevenImage (· ∈ [0, 4, 8, 12]) (sameProgram_of_check hcheck) hload 12
    (by rw [cycles_status, hhalt.1]; decide) (by rw [cycles_status, hhalt.2]; decide)
  exact ⟨id, hc, (hevents 11 (by decide) id).commits.mp hc⟩

end Cpu

end TomasuloCpu
