/-
  TomasuloCpu.Tomasulo.Simulation — values on the path, through one cycle.

  A result on the bus is what its instruction computes, so what it wakes gets the right
  operand and what it completes the right value. A response is what the step's access
  answers. A source register read at issue stands for the youngest older writer's result.
-/
import TomasuloCpu.Memory.MemoryProofs
import TomasuloCpu.Tomasulo.InOrder

namespace TomasuloCpu

open Keyed Rv32i

namespace Core

variable {memory : Nat → Byte} {c : Nat} {s : Core} {m : Machine}

/-- What the memory shows to the instructions on the path. -/
structure MemoryView (memory : Nat → Byte) (c : Nat) (s : Core) : Prop where
  fetch : ∀ m w, FetchOnPath memory c s m → s.memory.readWord s.pc = some w → m.fetch = some w
  load : ∀ e i x m, s.lsq.queue.head? = some e → e.type = .load → OnPath memory c s.rob.live i x m →
    x.tag = e.destination → s.memory.bytes = m.memory

/-! ## Results -/

/-- The bus completes the unit's result or the loaded one. -/
theorem completion_source (h : Inv s) (hv : s.completion.valid = true) :
    (s.completion = s.fu ∧ s.fu.valid = true) ∨
      (s.completion = s.lsq.loadResult ∧ s.lsq.loadResult.valid = true) := by
  by_cases hfl : s.flush = true
  · rw [(cdb_flush hfl).1] at hv
    cases hv
  · rcases cdb_cases (by simpa using hfl) with ⟨hc, -⟩ | ⟨hc, -, -, -, ho, -⟩ | ⟨hc, -, -, -, ho, -⟩
    · rw [hc] at hv
      cases hv
    · exact Or.inl ⟨hc, h.offered_fu.symm.trans ho⟩
    · exact Or.inr ⟨hc, h.offered_loadResult.symm.trans ho⟩

/-- What the bus completes was not ready. -/
theorem completion_waiting (h : Inv s) (hv : s.completion.valid = true) :
    ∃ y ∈ s.rob.live, y.tag = s.completion.tag ∧ y.ready = false := by
  have hwaits : ∀ {q : Op → Bool} {t : RobTag}, t ∈ pending (·.tag) (waits q) s.rob.live →
      ∃ y ∈ s.rob.live, y.tag = t ∧ y.ready = false := by
    intro q t ht
    obtain ⟨y, hy, hw, hyt⟩ := mem_pending.mp ht
    simp only [waits, Bool.and_eq_true, Bool.not_eq_true'] at hw
    exact ⟨y, hy, hyt, hw.1⟩
  rcases completion_source h hv with ⟨hc, hvalid⟩ | ⟨hc, hvalid⟩
  · rw [hc]
    exact hwaits (h.fu_pending hvalid)
  · rw [hc]
    exact hwaits (h.loadResult_pending hvalid)

/-- An instruction that is ready is not touched. -/
theorem finish_of_ready (h : Inv s) {x : RobEntry} (hx : x ∈ s.rob.live) (hr : x.ready = true) : s.finish x = x := by
  have hne : ∀ y ∈ s.rob.live, y.ready = false → x.tag ≠ y.tag := by
    intro y hy hyr hc
    rw [inj h.nodup hx hy hc, hyr] at hr
    cases hr
  have hc : (s.completion.valid && x.tag == s.completion.tag) = false := by
    by_contra hc
    simp only [Bool.not_eq_false, Bool.and_eq_true, beq_iff_eq] at hc
    obtain ⟨y, hy, hyt, hyr⟩ := completion_waiting h hc.1
    exact hne y hy hyr (hc.2.trans hyt.symm)
  have hs : (s.storeDone.valid && (x.tag == s.storeDone.tag && x.isStore)) = false := by
    by_contra hc
    simp only [Bool.not_eq_false, Bool.and_eq_true, beq_iff_eq] at hc
    obtain ⟨y, hy, hyt, hyr⟩ := storeDone_rob_head h hc.1
    exact hne y (List.mem_of_mem_head? hy) hyr (hc.2.1.trans hyt.symm)
  rw [finish, ReorderBuffer.finish, ReorderBuffer.complete, hc, if_neg (by simp), ReorderBuffer.storeComplete, hs,
    if_neg (by simp)]

/-- A completed entry carries the result. -/
theorem finish_completed {x : RobEntry} (hv : s.completion.valid = true) (ht : x.tag = s.completion.tag) :
    (s.finish x).value = s.completion.result ∧
      (s.completion.hasControlResult = true → (s.finish x).actualNextPc = s.completion.actualNextPc) := by
  rw [finish, ReorderBuffer.finish, ReorderBuffer.complete, if_pos (by simp [hv, ht])]
  unfold ReorderBuffer.storeComplete ReorderBuffer.completeEntry
  constructor
  · repeat' split
    all_goals rfl
  · intro hc
    rw [if_pos hc]
    split <;> rfl

/-- The integer unit finishes an instruction that is not a memory access. -/
theorem finished_by_unit (h : Inv s) {x : RobEntry} (hx : x ∈ s.rob.live) (ha : x.op.isAlu = true)
    (hr : x.ready = false) (hf : (s.finish x).ready = true) :
    s.fu.valid = true ∧ x.tag = s.fu.tag ∧ s.completion = s.fu := by
  have hp : x.tag ∈ pending (·.tag) aluWaiting s.rob.live :=
    mem_pending.mpr ⟨x, hx, by simp [aluWaiting, waits, hr, ha], rfl⟩
  rw [finish_ready h hx, hr, Bool.false_or, finishes_alu h hp, Bool.and_eq_true, beq_iff_eq] at hf
  refine ⟨integerGranted_valid h hf.1, hf.2, ?_⟩
  by_cases hfl : s.flush = true
  · rw [(cdb_flush hfl).2.2.1] at hf
    cases hf.1
  · rcases cdb_cases (by simpa using hfl) with ⟨-, -, hg, -⟩ | ⟨hc, -⟩ | ⟨-, -, hg, -⟩
    · rw [hg] at hf
      cases hf.1
    · exact hc
    · rw [hg] at hf
      cases hf.1

/-- The bus carries what the instruction on the path computes. -/
theorem completion_computes (hi : Inv s) (h : Sim memory c s) (hv : s.completion.valid = true) {i : Nat} {e : RobEntry}
    (hp : OnPath memory c s.rob.live i e m) (ht : e.tag = s.completion.tag) : Computes m s.completion := by
  rcases completion_source hi hv with ⟨hc, hvalid⟩ | ⟨hc, hvalid⟩
  · rw [hc] at ht ⊢
    exact h.fu hvalid i e m hp ht
  · rw [hc] at ht ⊢
    exact h.loaded hvalid i e m hp ht

/-! ## Accesses -/

theorem op_of_tag (hi : Inv s) (h : Sim memory c s) {x : LsqEntry} (hx : x ∈ s.lsq.queue) {i : Nat} {e : RobEntry}
    (hp : OnPath memory c s.rob.live i e m) (ht : e.tag = x.destination) : x.op = m.instruction.op := by
  obtain ⟨y, hy, hyt, hyop, -⟩ := hi.queued_entry hx
  rw [← hyop, inj hi.nodup hy hp.mem (hyt.trans ht.symm), (h.fetched i e m hp).op]

theorem denotes_ready {l : List RobEntry} {i : Nat} {x : Operand} {v : Word} (h : Denotes memory c l i x v)
    (hr : x.ready = true) : x.value = v := by
  rcases h with ⟨-, hv⟩ | ⟨hr', -⟩
  · exact hv
  · rw [hr] at hr'
    cases hr'

/-- A sent access on the path asks for what the step accesses. -/
theorem request_onPath (hi : Inv s) (h : Sim memory c s) {x : LsqEntry} (hx : x ∈ s.lsq.queue)
    (hs : x.requestSent = true) {i : Nat} {e : RobEntry} (hp : OnPath memory c s.rob.live i e m)
    (ht : e.tag = x.destination) :
    LoadStoreQueue.makeMemoryRequest x =
      { type := x.type, width := LoadStoreQueue.memoryWidth m.instruction.op, address := m.address m.instruction
        value := if x.type = .store then m.read m.instruction.rs2 else 0, tag := x.destination, valid := true } := by
  have hacc := hi.access x hx
  have hok := h.queued x hx i e m hp ht
  have haddr := hacc.sent hs
  have hbase := denotes_ready hok.base (by rw [← hacc.address, haddr])
  have haddress : x.address = m.address m.instruction := by
    rw [hacc.address_eq haddr, hbase, hok.immediate]
    rfl
  have hvalue : (if x.type = .store then x.storeData.value else 0) =
      if x.type = .store then m.read m.instruction.rs2 else 0 := by
    by_cases hst : x.type = .store
    · rw [if_pos hst, if_pos hst, denotes_ready (hok.data hst) (hacc.sent_store hs hst)]
    · rw [if_neg hst, if_neg hst]
  rw [LoadStoreQueue.makeMemoryRequest, op_of_tag hi h hx hp ht, haddress, hvalue]

theorem inBounds_eq (hm : m.instruction.op.isMemory = true) :
    MemoryImage.inBounds (m.address m.instruction)
        (MemoryUnit.widthInBytes (LoadStoreQueue.memoryWidth m.instruction.op)) =
      m.inBounds m.instruction := by
  rw [Bool.eq_iff_iff, MemoryImage.inBounds_width, width_eq hm, Machine.inBounds,
    decide_eq_true_eq]

/-- The head's response tells whether the step's access is in bounds, and brings a load
    its value. -/
theorem response_onPath (hi : Inv s) (h : Sim memory c s) (hv : MemoryView memory c s) {x : LsqEntry}
    {rest : List LsqEntry} (hq : s.lsq.queue = x :: rest)
    (hm : LoadStoreQueue.matchingResponse x s.port.response = true) {i : Nat} {e : RobEntry}
    (hp : OnPath memory c s.rob.live i e m) (ht : e.tag = x.destination) :
    m.instruction.op.isMemory = true ∧ s.port.response.success = m.inBounds m.instruction ∧
      (x.type = .load → s.port.response.success = true →
        LoadStoreQueue.extendLoadResult x.op s.port.response.value = m.result m.instruction) := by
  have hx : x ∈ s.lsq.queue := by rw [hq]; exact List.mem_cons_self
  obtain ⟨hrv, hrt, hsent⟩ := hi.matched hq hm
  have hresp := hi.port.answered hrv x (by rw [hq]; rfl) hrt
  rw [request_onPath hi h hx hsent hp ht] at hresp
  have hop := op_of_tag hi h hx hp ht
  have hmem : m.instruction.op.isMemory = true := by
    obtain ⟨y, hy, hyt, hyop, -, hym⟩ := hi.queued_entry hx
    rw [← hop, ← hyop]
    exact hym
  refine ⟨hmem, ?_⟩
  cases hty : x.type with
  | load =>
    have hload : m.instruction.op.isLoad = true := by
      have := (hi.access x hx).load_op hty
      rw [hop] at this
      simpa [Op.isMemory, this] using hmem
    rw [hty] at hresp
    simp only [MemoryUnit.completeCurrentTransaction, MemoryUnit.readData_spec, inBounds_eq hmem] at hresp
    rw [hv.load x i e m (by rw [hq]; rfl) hty hp ht] at hresp
    cases hb : m.inBounds m.instruction with
    | true =>
      rw [hb, if_pos rfl] at hresp
      rw [hresp]
      refine ⟨rfl, fun _ _ => ?_⟩
      show LoadStoreQueue.extendLoadResult x.op (LittleEndian.load _ _ _) = _
      rw [hop, LoadStoreQueue.extendLoadResult_spec hload, Machine.result, if_pos hload]
    | false =>
      rw [hb, if_neg (by simp)] at hresp
      rw [hresp]
      exact ⟨rfl, fun _ hc => by cases hc⟩
  | store =>
    rw [hty] at hresp
    simp only [MemoryUnit.completeCurrentTransaction, MemoryUnit.scheduleStore, inBounds_eq hmem] at hresp
    cases hb : m.inBounds m.instruction with
    | true =>
      rw [hb, if_pos rfl] at hresp
      rw [hresp]
      exact ⟨rfl, fun hc => by cases hc⟩
    | false =>
      rw [hb, if_neg (by simp)] at hresp
      rw [hresp]
      exact ⟨rfl, fun hc => by cases hc⟩

/-- A memory instruction on the path whose access is in bounds makes its step. -/
theorem next_of_inBounds (hm : m.instruction.op.isMemory = true) (hb : m.inBounds m.instruction = true) :
    ∃ m', m.next = some m' := by
  refine ⟨_, Machine.next_eq_some.mpr ⟨?_, ?_, fun _ => hb, rfl⟩⟩
  · intro hc
    rw [hc] at hm
    cases hm
  · intro hc
    rw [hc] at hm
    cases hm

/-! ## What becomes ready -/

theorem Fetched.control (hi : Inv s) {x : RobEntry} (hx : x ∈ s.rob.live) (hf : Fetched m x) :
    (x.isBranch || x.isJump) = (m.instruction.op.isBranch || m.instruction.op.isJump) := by
  rw [(hi.entry x hx).branch, (hi.entry x hx).jump, hf.op]

theorem stored_op (hi : Inv s) (hv : s.storeDone.valid = true) {x : RobEntry} (hx : x ∈ s.rob.live)
    (ht : x.tag = s.storeDone.tag) : x.op.isStore = true := by
  obtain ⟨-, y, rest, hq, hyt, hty, -⟩ := storeDone_head hi hv
  have hy : y ∈ s.lsq.queue := by rw [hq]; exact List.mem_cons_self
  obtain ⟨z, hz, hzt, hzop, -⟩ := hi.queued_entry hy
  rw [inj hi.nodup hx hz (ht.trans (hyt.trans hzt.symm)), hzop]
  exact (hi.access y hy).store_op hty

theorem done_finish (hi : Inv s) (h : Sim memory c s) (hv : MemoryView memory c s) {i : Nat} {x : RobEntry}
    (hp : OnPath memory c s.rob.live i x m) (hr : (s.finish x).ready = true) (hop : x.op ≠ .halt) :
    Done m (s.finish x) := by
  by_cases hxr : x.ready = true
  · rw [finish_of_ready hi hp.mem hxr]
    exact h.done i x m hp hxr hop
  · have hfin : s.finishes x.tag = true := by
      rw [finish_ready hi hp.mem] at hr
      simpa [hxr] using hr
    obtain ⟨-, -, -, hwr, -, hbr, -, hju⟩ := ReorderBuffer.finish_frame s.completion s.storeDone x
    have hcontrol : ((s.finish x).isBranch || (s.finish x).isJump) = (x.isBranch || x.isJump) := by
      rw [finish, hbr, hju]
    rw [finishes, Bool.or_eq_true, Bool.and_eq_true, Bool.and_eq_true, beq_iff_eq, beq_iff_eq] at hfin
    rcases hfin with ⟨hcv, ht⟩ | ⟨hsv, ht⟩
    · obtain ⟨hvalue, hnextPc⟩ := finish_completed hcv ht
      obtain ⟨⟨m', hm', hpc⟩, hctl, hres⟩ := completion_computes hi h hcv hp ht
      refine ⟨⟨m', hm', fun hc => ?_⟩, fun _ => by rw [hvalue, hres]⟩
      have hc' : s.completion.hasControlResult = true := by
        rw [hctl, ← Fetched.control hi hp.mem (h.fetched i x m hp), ← hcontrol, hc]
      rw [hnextPc hc', hpc hc']
    · obtain ⟨-, y, rest, hq, hyt, hty, hm, hs, -⟩ := storeDone_head hi hsv
      have hy : y ∈ s.lsq.queue := by rw [hq]; exact List.mem_cons_self
      obtain ⟨hmem, hb, -⟩ := response_onPath hi h hv hq hm hp (ht.trans hyt)
      obtain ⟨m', hm'⟩ := next_of_inBounds hmem (by rw [← hb, hs])
      have hstore := stored_op hi hsv hp.mem ht
      have hok := hi.entry x hp.mem
      refine ⟨⟨m', hm', fun hc => ?_⟩, fun hw => ?_⟩
      · rw [hcontrol, hok.branch, hok.jump, Op.sequential_of_isMemory (by simp [Op.isMemory, hstore])] at hc
        cases hc
      · rw [finish, hwr, hok.writes, Op.writes_of_isStore hstore] at hw
        cases hw

/-! ## Operands -/

/-- A ready head is the only entry that leaves. -/
theorem shift_le_of_waiting (hi : Inv s) {j : Nat} {e : RobEntry} (he : s.rob.live[j]? = some e) (hr : e.ready = false) :
    s.shift ≤ j := by
  unfold shift
  split
  · rename_i hc
    obtain ⟨x, hx, hxr⟩ := (committing_iff hi.rob).mp hc
    refine Nat.pos_of_ne_zero fun h0 => ?_
    rw [h0, ← List.head?_eq_getElem?, hx] at he
    rw [Option.some.inj he, hr] at hxr
    cases hxr
  · exact Nat.zero_le j

/-- A waiting producer on the path, in the next cycle. -/
theorem producer_tick (hi : Inv s) (hrun : s.status = .running) (hfl : s.flush = false) {j : Nat} {e : RobEntry}
    (hp : OnPath memory c s.rob.live j e m) (hw : e.writesRd = true) (hr : e.ready = false)
    (hb : s.broadcasts e.tag = false) {i : Nat} (hij : j < i + s.shift) {v : Word}
    (hv : m.result m.instruction = v) :
    Denotes memory (c + s.shift) s.tick.rob.live i { ready := false, tag := e.tag } v := by
  obtain ⟨k, rfl⟩ := Nat.exists_eq_add_of_le' (shift_le_of_waiting hi hp.entry hr)
  refine Or.inr ⟨rfl, k, s.finish e, m, by omega, onPath_tick hrun hi.rob hfl hp, finish_tag e, ?_, ?_, hv⟩
  · rw [finish, (ReorderBuffer.finish_frame _ _ e).2.2.2.1]
    exact hw
  · rw [finish_ready hi hp.mem, hr, finishes_writer hi hp.mem hw, hb]
    rfl

/-- The broadcast of an instruction on the path is its result. -/
theorem broadcast_result (hi : Inv s) (h : Sim memory c s) {j : Nat} {e : RobEntry}
    (hp : OnPath memory c s.rob.live j e m) (hb : s.broadcasts e.tag = true) :
    s.broadcast.value = m.result m.instruction := by
  obtain ⟨hbv, hbe⟩ := broadcast_eq hi
  simp only [broadcasts, Bool.and_eq_true, beq_iff_eq] at hb
  have hcv : s.completion.valid = true := by rw [← hbv, hb.1]
  obtain ⟨heq, -⟩ := hbe hcv
  rw [heq] at hb ⊢
  exact (completion_computes hi h hcv hp hb.2.symm).result

/-- An operand of an instruction that stays keeps its meaning. -/
theorem denotes_tick (hi : Inv s) (h : Sim memory c s) (hrun : s.status = .running) (hfl : s.flush = false) {i : Nat}
    {x : Operand} {v : Word} (hd : Denotes memory c s.rob.live (i + s.shift) x v) :
    Denotes memory (c + s.shift) s.tick.rob.live i (wakeOperand x s.broadcast) v := by
  rcases hd with ⟨hr, hv⟩ | ⟨hr, j, e, y, hij, hp, ht, hw, her, hv⟩
  · rw [wakeOperand_of_ready hr]
    exact Or.inl ⟨hr, hv⟩
  · have htv : x.tag.valid = true := by rw [← ht]; exact ReorderBuffer.live_tag_valid hi.rob hp.mem
    rw [wake_broadcast hi hr htv]
    by_cases hb : s.broadcasts x.tag = true
    · rw [if_pos hb]
      exact Or.inl ⟨rfl, by rw [← hv]; exact broadcast_result hi h hp (by rw [ht]; exact hb)⟩
    · rw [if_neg hb]
      rcases producer_tick hi hrun hfl hp hw her (by rw [ht]; simpa using hb) hij hv with ⟨hc, -⟩ | ⟨-, hrest⟩
      · cases hc
      · refine Or.inr ⟨hr, ?_⟩
        rw [ht] at hrest
        exact hrest

theorem writesTo_onPath (h : Sim memory c s) {r : RegisterIndex} {i : Nat} {e : RobEntry}
    (hp : OnPath memory c s.rob.live i e m) :
    writesTo r e = true ↔ m.instruction.writesRd = true ∧ m.instruction.rd = r := by
  have hf := h.fetched i e m hp
  rw [writesTo, Bool.and_eq_true, beq_iff_eq, hf.writes, hf.rd]

/-- Between two steps on the path a register that no entry there writes keeps its value. -/
theorem read_onPath (h : Sim memory c s) (hf : FetchOnPath memory c s m) {r : RegisterIndex} {j : Nat} {y : Machine}
    (hj : j ≤ s.rob.live.length) (hy : run memory (c + j) = some y)
    (hno : ∀ k x, j ≤ k → s.rob.live[k]? = some x → writesTo r x = false) : m.read r = y.read r := by
  refine read_frame (Nat.add_le_add_left hj c) hy hf.step fun i v hi hlt hv hw => ?_
  obtain ⟨k, rfl⟩ := Nat.exists_eq_add_of_le (show c ≤ i by omega)
  have hk : k < s.rob.live.length := by omega
  obtain ⟨z, hp⟩ := hf.entry (List.getElem?_eq_getElem hk)
  obtain rfl := Option.some.inj (hv.symm.trans hp.step)
  have := hno k _ (by omega) hp.entry
  rw [(writesTo_onPath h hp).mpr hw] at this
  cases this

/-- What an instruction issued on the path gets for a source register stands for that
    register's value in its step. -/
theorem operand_denotes (hi : Inv s) (h : Sim memory c s) (hrun : s.status = .running) (hfl : s.flush = false)
    (hf : FetchOnPath memory c s m) {i : Nat} (hlen : i + s.shift = s.rob.live.length) {r : RegisterIndex}
    (hlt : r.toNat < 32) :
    Denotes memory (c + s.shift) s.tick.rob.live i (s.operand r) (m.read r) := by
  rcases operand_spec hi hlt with ⟨hr, ho⟩ | ⟨-, hk, ho⟩ | ⟨e, he, hk, hw, hcase⟩
  · rw [ho, hr]
    exact Or.inl ⟨rfl, rfl⟩
  · obtain ⟨y, hy, hreg, -⟩ := h.committed
    rw [ho, read_onPath h hf (Nat.zero_le _) hy fun k x _ hx => latest_none hk x (List.mem_of_getElem? hx),
      read_eq hy, hreg]
    exact Or.inl ⟨rfl, rfl⟩
  · obtain ⟨j, x, hj, -, hxt, hlast⟩ := latest_index hk
    obtain rfl : x = e := inj hi.nodup (List.mem_of_getElem? hj) he hxt
    obtain ⟨hjl, -⟩ := List.getElem?_eq_some_iff.mp hj
    obtain ⟨y, hp⟩ := hf.entry hj
    -- the youngest writer's result is the value of the register from then on
    obtain ⟨z, hz⟩ := run_of_le (show c + j + 1 ≤ c + s.rob.live.length by omega) hf.step
    obtain ⟨y', hy', hnext⟩ := run_pred hz
    obtain rfl := Option.some.inj (hp.step.symm.trans hy')
    have hval : y.result y.instruction = m.read r := by
      rw [read_onPath h hf hjl hz fun k w hk' hw' => hlast k w hk' hw', Machine.next_read hnext,
        if_pos ((writesTo_onPath h hp).mp hw)]
    simp only [writesTo, Bool.and_eq_true] at hw
    rcases hcase with ⟨hb, ho⟩ | ⟨hr, ho⟩ | ⟨hr, hb, ho⟩
    · rw [ho, ← hval, broadcast_result hi h hp hb]
      exact Or.inl ⟨rfl, rfl⟩
    · have hop : x.op ≠ .halt := by
        intro hc
        have := (hi.entry x he).writes
        rw [hw.1, hc] at this
        cases this
      rw [ho, ← hval, ← (h.done j x y hp hr hop).value hw.1]
      exact Or.inl ⟨rfl, rfl⟩
    · rw [ho]
      exact producer_tick hi hrun hfl hp hw.1 hr hb (by omega) hval

end Core

end TomasuloCpu
