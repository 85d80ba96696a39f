/-
  TomasuloCpu.Tomasulo.Lockstep — a run keeps to the sequential run.

  `Sim.reset` starts the relation and `Sim.tick` carries it over one cycle, part by part:
  an entry on the path in the next cycle was on it before, or issues on it (`onPath_old`,
  `onPath_new`). The cycle commits one instruction or none, so the sequential run makes
  one step or none.
-/
import TomasuloCpu.Tomasulo.FetchStream
import TomasuloCpu.Tomasulo.Simulation

namespace TomasuloCpu

open Keyed Rv32i

namespace Core

variable {memory : Nat → Byte} {c i : Nat} {s : Core} {m : Machine} {e : RobEntry}

/-! ## Whose tag it is -/

/-- An entry on the path with a tag that was live was on the path in the cycle before. -/
theorem onPath_old (hi : Inv s) (h : Sim memory c s) (hrun : s.status = .running)
    (hp : OnPath memory (c + s.shift) s.tick.rob.live i e m) {x : RobEntry} (hx : x ∈ s.rob.live) (het : e.tag = x.tag) :
    OnPath memory c s.rob.live (i + s.shift) x m := by
  obtain ⟨hfl, ⟨y, hy, rfl⟩ | ⟨-, d, hd, rfl, -⟩⟩ := onPath_back h hrun hi.rob hp
  · rw [finish_tag] at het
    rw [← inj hi.nodup hy.mem hx het]
    exact hy
  · have hmem : s.newTag ∈ RobState.tags s.rob.live := List.mem_map.mpr ⟨x, hx, het.symm⟩
    exact absurd hmem (newTag_fresh hi.rob (by rw [hd]; rfl))

/-- The entry of the issued instruction on the path. -/
theorem onPath_new (hi : Inv s) (h : Sim memory c s) (hrun : s.status = .running)
    (hp : OnPath memory (c + s.shift) s.tick.rob.live i e m) {d : DecodePacket} (hd : s.issuing = some d)
    (het : e.tag = s.newTag) : i + s.shift = s.rob.live.length ∧ FetchOnPath memory c s m := by
  obtain ⟨-, ⟨x, hx, rfl⟩ | ⟨hlen, -, -, -, hf⟩⟩ := onPath_back h hrun hi.rob hp
  · rw [finish_tag] at het
    exact absurd (by rw [← het]; exact List.mem_map_of_mem hx.mem) (newTag_fresh hi.rob (by rw [hd]; rfl))
  · exact ⟨hlen, hf⟩

/-- What issues on the path is decoded from the word of its step. -/
theorem issued_instruction (hv : MemoryView memory c s) {d : DecodePacket} (hd : s.issuing = some d)
    (hf : FetchOnPath memory c s m) : d.decoded = m.instruction := by
  obtain ⟨w, hw, hdec⟩ := (issuing_some hd).word
  rw [hdec, Machine.instruction_of_fetch (hv.fetch m w hf hw)]

/-! ## The parts of the relation -/

theorem fetched_tick (hi : Inv s) (h : Sim memory c s) (hv : MemoryView memory c s) (hrun : s.status = .running)
    (hp : OnPath memory (c + s.shift) s.tick.rob.live i e m) : Fetched m e := by
  obtain ⟨-, ⟨x, hx, rfl⟩ | ⟨-, d, hd, rfl, hf⟩⟩ := onPath_back h hrun hi.rob hp
  · obtain ⟨hop, hrd, hw⟩ := h.fetched _ x m hx
    obtain ⟨h1, -, h3, h4, -⟩ := ReorderBuffer.finish_frame s.completion s.storeDone x
    exact ⟨h1.trans hop, by rw [finish, h3, hrd], h4.trans hw⟩
  · have hdec := issued_instruction hv hd hf
    have hw := Machine.instruction_spec m
    refine ⟨congrArg (·.op) hdec, congrArg (·.rd) hdec, ?_⟩
    show (d.decoded.writesRd && d.decoded.rd != 0) = _
    rw [hdec, hw.writes, Bool.and_assoc, Bool.and_self]

theorem done_tick (hi : Inv s) (h : Sim memory c s) (hv : MemoryView memory c s) (hrun : s.status = .running)
    (hp : OnPath memory (c + s.shift) s.tick.rob.live i e m) (hr : e.ready = true) (hop : e.op ≠ .halt) : Done m e := by
  obtain ⟨-, ⟨x, hx, rfl⟩ | ⟨-, d, hd, rfl, -⟩⟩ := onPath_back h hrun hi.rob hp
  · rw [finish_op] at hop
    exact done_finish hi h hv hx hr hop
  · -- only HALT is ready when it issues
    have hh : (d.decoded.op == .halt) = true := hr
    exact absurd (beq_iff_eq.mp hh) hop

/-- An ALU instruction on the path computes its step from operands that stand for its
    sources. -/
theorem computed_computes {x : RsEntry} (hop : x.op = m.instruction.op) (ha : m.instruction.op.isAlu = true)
    {l : List RobEntry} (hok : StationOk memory c l i m x) (hl : x.lhs.ready = true) (hr : x.rhs.ready = true) :
    Computes m (computed x) := by
  have hm : m.instruction.op.isMemory = false := by
    simp only [Op.isAlu, Bool.and_eq_true, Bool.not_eq_true'] at ha
    exact ha.1.1
  have hne : m.instruction.op ≠ .halt ∧ m.instruction.op ≠ .invalid := by
    simp only [Op.isAlu, Bool.and_eq_true, bne_iff_ne] at ha
    exact ⟨ha.1.2, ha.2⟩
  have hload : m.instruction.op.isLoad = false := by
    simp only [Op.isMemory, Bool.or_eq_false_iff] at hm
    exact hm.1
  obtain ⟨hres, hpc⟩ := FunctionalUnit.executeInstruction_spec (e := ReservationStation.makeExecute x)
    (a := m.read m.instruction.rs1) (b := m.read m.instruction.rs2)
    (by show x.op.isAlu = true; rw [hop, ha])
    (by show x.lhs.value = FunctionalUnit.selected x.op.lhsSource x.pc _ x.immediate
        rw [denotes_ready hok.lhs hl, hop, hok.pc, hok.immediate])
    (by show x.rhs.value = FunctionalUnit.selected x.op.rhsSource x.pc _ x.immediate
        rw [denotes_ready hok.rhs hr, hop, hok.pc, hok.immediate])
  have hmake : (ReservationStation.makeExecute x).op = m.instruction.op ∧
      (ReservationStation.makeExecute x).pc = m.pc ∧
      (ReservationStation.makeExecute x).immediate = m.instruction.immediate := ⟨hop, hok.pc, hok.immediate⟩
  rw [hmake.1, hmake.2.1, hmake.2.2] at hres hpc
  refine ⟨⟨m.execute m.instruction, ?_, fun _ => hpc⟩, ?_, ?_⟩
  · exact Machine.next_eq_some.mpr ⟨hne.2, hne.1, fun hc => absurd hc (by simp [hm]), rfl⟩
  · rw [(computed_spec (by rw [hop, ha])).2.2, hop]
  · rw [Machine.result, if_neg (by simp [hload])]
    exact hres

theorem fu_computes (hi : Inv s) (h : Sim memory c s) (hrun : s.status = .running) (hval : s.tick.fu.valid = true)
    (hp : OnPath memory (c + s.shift) s.tick.rob.live i e m) (het : e.tag = s.tick.fu.tag) :
    Computes m s.tick.fu := by
  obtain ⟨-, ⟨hfu, heq⟩ | ⟨x, hd, heq⟩⟩ := fu_tick_cases hi hrun hval
  · rw [heq] at het ⊢
    obtain ⟨x, hx, -, hxt⟩ := mem_pending.mp (hi.fu_pending hfu)
    exact h.fu hfu _ x m (onPath_old hi h hrun hp hx (het.trans hxt.symm)) hxt
  · obtain ⟨hx, hl, hr, -⟩ := departing_mem hd
    obtain ⟨-, hct, -⟩ := computed_spec (departing_alu hi hd)
    obtain ⟨z, hz, hzt, hzop, -, hza⟩ := hi.station_entry hx
    rw [heq] at het ⊢
    rw [hct] at het
    have hold := onPath_old hi h hrun hp hz (het.trans hzt.symm)
    have hop : x.op = m.instruction.op := by rw [← hzop, (h.fetched _ z m hold).op]
    refine computed_computes hop ?_ (h.station x hx _ z m hold hzt) hl hr
    rw [← hop, ← hzop]
    exact hza

theorem load_computes (hi : Inv s) (h : Sim memory c s) (hv : MemoryView memory c s) (hrun : s.status = .running)
    (hval : s.tick.lsq.loadResult.valid = true) (hp : OnPath memory (c + s.shift) s.tick.rob.live i e m)
    (het : e.tag = s.tick.lsq.loadResult.tag) : Computes m s.tick.lsq.loadResult := by
  by_cases hfl : s.flush = true
  · rw [(lsq_tick_flush hrun hfl).2] at hval
    cases hval
  · have hfl : s.flush = false := by simpa using hfl
    rw [loadResult_tick hi hrun hfl] at hval het ⊢
    -- the result that stays in the buffer
    have hkeep : ∀ b : Bool, (if b then ({} : FuResult) else s.lsq.loadResult).valid = true →
        e.tag = (if b then ({} : FuResult) else s.lsq.loadResult).tag →
        Computes m (if b then ({} : FuResult) else s.lsq.loadResult) := by
      intro b hk ht
      cases b with
      | true => cases hk
      | false =>
        obtain ⟨x, hx, -, hxt⟩ := mem_pending.mp (hi.loadResult_pending hk)
        exact h.loaded hk _ x m (onPath_old hi h hrun hp hx (ht.trans hxt.symm)) hxt
    have hev := lsq_event hi hfl
    generalize s.lsqDecision = d at hev hval het
    cases hev with
    | idle => exact hkeep _ hval het
    | failed => exact hkeep _ hval het
    | send => exact hkeep _ hval het
    | stored => exact hkeep _ hval het
    | @loaded x rest hq hm hs ht =>
      have hx : x ∈ s.lsq.queue := by rw [hq]; exact List.mem_cons_self
      obtain ⟨y, hy, hyt, -⟩ := hi.queued_entry hx
      have hold := onPath_old hi h hrun hp hy (het.trans hyt.symm)
      obtain ⟨hmem, hb, hres⟩ := response_onPath hi h hv hq hm hold hyt
      obtain ⟨m', hm'⟩ := next_of_inBounds hmem (by rw [← hb, hs])
      exact ⟨⟨m', hm', fun hc => by cases hc⟩, (Op.sequential_of_isMemory hmem).symm, hres ht hs⟩

/-- The source of an issued instruction's operand. -/
theorem selectOperand_denotes {l : List RobEntry} {x : Operand} {v : Word} (hx : Denotes memory c l i x v)
    (src : OperandSource) (immediate : Word) (pc : Address) :
    Denotes memory c l i (IssueUnit.selectOperand src x immediate pc)
      (FunctionalUnit.selected src pc v immediate) := by
  cases src with
  | immediate => exact Or.inl ⟨rfl, rfl⟩
  | register => exact hx
  | programCounter => exact Or.inl ⟨rfl, rfl⟩
  | zero => exact Or.inl ⟨rfl, rfl⟩

theorem station_tick (hi : Inv s) (h : Sim memory c s) (hv : MemoryView memory c s) (hrun : s.status = .running)
    {x : RsEntry} (hx : x ∈ s.tick.rs.waiting) (hp : OnPath memory (c + s.shift) s.tick.rob.live i e m)
    (het : e.tag = x.destination) : StationOk memory (c + s.shift) s.tick.rob.live i m x := by
  obtain ⟨hfl, ⟨y, hy, rfl⟩ | ⟨d, hd, -, rfl⟩⟩ := mem_tick_waiting hrun hx
  · obtain ⟨z, hz, hzt, -⟩ := hi.station_entry hy
    have het : e.tag = y.destination := het
    obtain ⟨himm, hpc, hl, hr⟩ := h.station y hy _ z m (onPath_old hi h hrun hp hz (het.trans hzt.symm)) hzt
    exact ⟨himm, hpc, denotes_tick hi h hrun hfl hl, denotes_tick hi h hrun hfl hr⟩
  · obtain ⟨hlen, hf⟩ := onPath_new hi h hrun hp hd het
    have hdec := issued_instruction hv hd hf
    have hw := Machine.instruction_spec m
    have hsrc : ∀ r : RegisterIndex, r.toNat < 32 →
        Denotes memory (c + s.shift) s.tick.rob.live i (s.operand r) (m.read r) :=
      fun r hlt => operand_denotes hi h hrun hfl hf hlen hlt
    have hpc : d.pc = m.pc := (issuing_some hd).pc.trans hf.pc
    refine ⟨congrArg (·.immediate) hdec, hpc, ?_, ?_⟩
    · rw [← hw.lhs, ← hpc, ← hdec]
      exact selectOperand_denotes (hsrc _ (by rw [hdec]; exact hw.rs1_lt)) _ _ _
    · rw [← hw.rhs, ← hpc, ← hdec]
      exact selectOperand_denotes (hsrc _ (by rw [hdec]; exact hw.rs2_lt)) _ _ _

theorem queued_tick (hi : Inv s) (h : Sim memory c s) (hv : MemoryView memory c s) (hrun : s.status = .running)
    {x : LsqEntry} (hx : x ∈ s.tick.lsq.queue) (hp : OnPath memory (c + s.shift) s.tick.rob.live i e m)
    (het : e.tag = x.destination) : QueuedOk memory (c + s.shift) s.tick.rob.live i m x := by
  have hcarried : s.flush = false → ∀ y ∈ s.lsq.queue, ∀ b, e.tag = (s.carried b y).destination →
      QueuedOk memory (c + s.shift) s.tick.rob.live i m (s.carried b y) := by
    intro hfl y hy b ht
    obtain ⟨hdest, -, hty, himm, -, hbase, hdata⟩ := carried_frame s b y
    rw [hdest] at ht
    obtain ⟨z, hz, hzt, -⟩ := hi.queued_entry hy
    obtain ⟨himm', hb, hd⟩ := h.queued y hy _ z m (onPath_old hi h hrun hp hz (ht.trans hzt.symm)) hzt
    refine ⟨himm.trans himm', ?_, fun hst => ?_⟩
    · rw [hbase]
      exact denotes_tick hi h hrun hfl hb
    · rw [hty] at hst
      rw [hdata, if_pos hst]
      exact denotes_tick hi h hrun hfl (hd hst)
  obtain ⟨hfl, ⟨y, rest, hq, -, rfl⟩ | ⟨y, hy, rfl⟩ | ⟨d, hd, hm, rfl⟩⟩ := mem_tick_queue hi hrun hx
  · exact hcarried hfl y (by rw [hq]; exact List.mem_cons_self) _ het
  · exact hcarried hfl y (List.mem_of_mem_tail hy) _ het
  · rw [LoadStoreQueue.updateAddress_destination] at het
    obtain ⟨hlen, hf⟩ := onPath_new hi h hrun hp hd het
    have hdec := issued_instruction hv hd hf
    have hw := Machine.instruction_spec m
    have hsrc : ∀ r : RegisterIndex, r.toNat < 32 →
        Denotes memory (c + s.shift) s.tick.rob.live i (s.operand r) (m.read r) :=
      fun r hlt => operand_denotes hi h hrun hfl hf hlen hlt
    obtain ⟨-, -, hty, himm, -, hbase, hdata⟩ := LoadStoreQueue.updateAddress_frame (s.issuedLsq d)
    refine ⟨himm.trans (congrArg (·.immediate) hdec), ?_, fun hst => ?_⟩
    · rw [hbase, ← hdec]
      exact hsrc _ (by rw [hdec]; exact hw.rs1_lt)
    · have hstore : d.decoded.isStore = true := by
        have hacc := (access_issued (issuing_some hd) hm).1.store_op hst
        rw [(LoadStoreQueue.updateAddress_frame _).2.1] at hacc
        rw [(issuing_some hd).decoded.store]
        exact hacc
      have hd2 : (s.issuedLsq d).storeData = s.operand d.decoded.rs2 := by
        show (if d.decoded.isStore = true then _ else _) = _
        rw [if_pos hstore]
      rw [hdata, hd2, ← hdec]
      exact hsrc _ (by rw [hdec]; exact hw.rs2_lt)

/-! ## Commit -/

/-- A finished entry's next pc is the sequential run's. -/
theorem successor_of_done (h : Sim memory c s) (hi : Inv s) {x : RobEntry} {m' : Machine}
    (hp : OnPath memory c s.rob.live i x m) (hdone : Done m x) (hm' : m.next = some m') : x.successor = m'.pc := by
  unfold RobEntry.successor
  by_cases hc : (x.isBranch || x.isJump) = true
  · obtain ⟨m'', hm'', hpc⟩ := hdone.next
    obtain rfl := Option.some.inj (hm'.symm.trans hm'')
    rw [if_pos hc, hpc hc]
  · have hop := Fetched.control hi hp.mem (h.fetched i x m hp)
    rw [Bool.not_eq_true] at hc
    rw [hc, eq_comm, Bool.or_eq_false_iff] at hop
    rw [if_neg (by simp [hc]), hp.pc, Machine.next_pc hm', Machine.target_sequential hop.1 hop.2]

/-- What the register file latches; x0 stays zero. -/
theorem registers_tick (hi : Inv s) (hrun : s.status = .running) (hz : s.registers 0 = 0) :
    s.tick.registers =
      if s.committing && s.commit.entry.writesRd then
        Function.update s.registers s.commit.entry.rd s.commit.entry.value
      else s.registers := by
  have hlatch : s.tick.registers =
      (RegisterFile.latch (RegisterFile.apply ⟨s.registers, {}⟩ (registerWrite s.outs))).registers := by
    rw [tick_eq hrun]
  rw [hlatch, registerWrite]
  refine RegisterFile.latch_apply hz (s.committing && s.commit.entry.writesRd) fun hc => ?_
  rw [Bool.and_eq_true] at hc
  obtain ⟨x, hx, hr⟩ := (committing_iff hi.rob).mp hc.1
  have hentry : s.commit.entry = x := (commit_entry hi.rob hx hr).1
  rw [hentry] at hc
  show validRegister s.commit.entry.rd = true
  rw [hentry]
  exact writer_valid (hi.entry x (List.mem_of_mem_head? hx)) hc.2

theorem committed_tick (hi : Inv s) (h : Sim memory c s) (hrun : s.status = .running) (hh : s.halts = false) :
    ∃ m, run memory (c + s.shift) = some m ∧ s.tick.registers = m.registers ∧ s.tick.pcAt 0 = m.pc := by
  obtain ⟨m, hm, hreg, hpc⟩ := h.committed
  have hregs := registers_tick hi hrun (by rw [hreg]; exact run_zero hm)
  have hhead := head_tick h.chain h.predicted hi hrun
  by_cases hc : s.committing = true
  · obtain ⟨x, hx, hr⟩ := (committing_iff hi.rob).mp hc
    have hx0 : s.rob.live[0]? = some x := by rw [← List.head?_eq_getElem?]; exact hx
    have hshift : s.shift = 1 := if_pos hc
    obtain ⟨hentry, -, hhalt⟩ := commit_entry hi.rob hx hr
    have hop : x.op ≠ .halt := by
      intro hop
      have hh' : (x.op == .halt) = false := hhalt.symm.trans hh
      rw [hop] at hh'
      cases hh'
    obtain ⟨y, hp⟩ := h.head hx0
    obtain rfl := Option.some.inj (hm.symm.trans hp.step)
    have hdone := h.done 0 x m hp hr hop
    obtain ⟨m', hm', -⟩ := hdone.next
    refine ⟨m', by rw [hshift, run_succ hm, hm'], ?_, ?_⟩
    · have hf := h.fetched 0 x m hp
      rw [hregs, hc, Bool.true_and, hentry, Machine.next_registers hm', hf.writes, hf.rd, hreg]
      by_cases hw : m.instruction.writesRd = true
      · rw [if_pos hw, if_pos hw, hdone.value (hf.writes.trans hw)]
      · rw [if_neg hw, if_neg hw]
    · rw [hhead, if_pos hc, hentry, successor_of_done h hi hp hdone hm']
  · have hshift : s.shift = 0 := if_neg hc
    refine ⟨m, by rw [hshift]; exact hm, ?_, ?_⟩
    · rw [hregs, if_neg (by simp [hc]), hreg]
    · rw [hhead, if_neg hc, hpc]

/-- One cycle, unless it ends with HALT. -/
theorem Sim.tick (h : Sim memory c s) (hi : Inv s) (hv : MemoryView memory c s) (hrun : s.status = .running)
    (hh : s.halts = false) : Sim memory (c + s.shift) s.tick where
  committed := committed_tick hi h hrun hh
  chain _ _ he := chain_tick h.chain hrun hi.rob he
  predicted _ he hc := predicted_tick h.predicted hrun hi.rob he hc
  fetched _ _ _ hp := fetched_tick hi h hv hrun hp
  done _ _ _ hp hr hop := done_tick hi h hv hrun hp hr hop
  fu hval _ _ _ hp ht := fu_computes hi h hrun hval hp ht
  loaded hval _ _ _ hp ht := load_computes hi h hv hrun hval hp ht
  station _ hx _ _ _ hp ht := station_tick hi h hv hrun hx hp ht
  queued _ hx _ _ _ hp ht := queued_tick hi h hv hrun hx hp ht

/-- Before the first cycle nothing has been made. -/
theorem Sim.reset (image : MemoryImage) (status : Status) (predictor : PredictorState) :
    Sim image.bytes 0 { Core.reset image status with predictor := predictor } := by
  obtain ⟨hlive, hrs, hq, hlr, hfu⟩ := reset_empty image status
  have hno : ∀ {i e m}, ¬ OnPath image.bytes 0 (Core.reset image status).rob.live i e m := by
    intro i e m hp
    have := hp.mem
    rw [hlive] at this
    cases this
  refine ⟨⟨start image.bytes, rfl, rfl, ?_⟩, ?_, ?_, ?_, ?_, ?_, ?_, ?_, ?_⟩
  · rw [pcAt_end (by rw [hlive]; exact Nat.le_refl 0)]
    rfl
  · intro i e he
    rw [hlive] at he
    cases he
  · intro e he
    rw [hlive] at he
    cases he
  · exact fun _ _ _ hp => absurd hp hno
  · exact fun _ _ _ hp => absurd hp hno
  · exact fun _ _ _ _ hp => absurd hp hno
  · exact fun _ _ _ _ hp => absurd hp hno
  · exact fun _ _ _ _ _ hp => absurd hp hno
  · exact fun _ _ _ _ _ hp => absurd hp hno

end Core

end TomasuloCpu
