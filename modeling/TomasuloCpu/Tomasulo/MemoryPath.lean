/-
  TomasuloCpu.Tomasulo.MemoryPath — one access through the queue and the data port,
  against the interpreter.

  The load/store queue and the memory unit are connected as the processor connects them.
  An access issued in cycle 0 with its operands ready is sent in cycle 1, in flight until
  its response shows in cycle `kDataLatency + 2`, and consumed there (`issued`, `sent`,
  `Holds.waits`, `consumed`). What the response brings is what the interpreter's step
  does (`paths_agree`).
-/
import TomasuloCpu.Memory.PortProtocol
import TomasuloCpu.Reference.InterpreterRuns
import TomasuloCpu.Tomasulo.LoadStoreQueueProofs
import TomasuloCpu.Tomasulo.ReservationStationProofs

namespace TomasuloCpu

/-- The queue and the memory unit. -/
structure MemoryPath where
  lsq : LoadStoreQueue
  unit : MemoryUnit

/-- What the rest of the processor gives the two in a cycle. -/
structure PathInputs where
  issueEntry : LsqEntry := {}
  issueValid : Bool := false
  cdb : CdbMsg := {}
  storeRequest : StoreCommitRequest := {}
  loadResultGranted : Bool := false

namespace MemoryPath

open LoadStoreQueue MemoryUnit

def observe (p : MemoryPath) (inputs : PathInputs) : LsqObserveInputs :=
  { storeRequest := inputs.storeRequest
    memoryResponse := dataResponse p.unit.port.cur
    memoryAvailable := dataPortAvailable p.unit.port.cur
    loadResultGranted := inputs.loadResultGranted }

def lsqPlan (p : MemoryPath) (inputs : PathInputs) : LsqDecision := LoadStoreQueue.plan p.lsq.cur (p.observe inputs)

def lsqInputs (inputs : PathInputs) : LsqInputs :=
  { issueEntry := inputs.issueEntry, issueValid := inputs.issueValid, cdb := inputs.cdb }

/-- One cycle without a flush: the queue's request goes to the port, both are latched. -/
def cycle (p : MemoryPath) (inputs : PathInputs) : MemoryPath :=
  { lsq := (LoadStoreQueue.apply p.lsq (lsqInputs inputs) (p.lsqPlan inputs)).2.latch
    unit := (MemoryUnit.cycle p.unit (p.lsqPlan inputs).outputs.memoryRequest).2 }

/-- The two in front of cycle `n`. -/
def after (start : MemoryPath) (inputs : Nat → PathInputs) : Nat → MemoryPath
  | 0 => start
  | n + 1 => (after start inputs n).cycle (inputs n)

def decision (start : MemoryPath) (inputs : Nat → PathInputs) (n : Nat) : LsqDecision :=
  (after start inputs n).lsqPlan (inputs n)

/-- Nothing in the queue, no load result waiting, no request in flight. -/
structure Idle (p : MemoryPath) : Prop where
  wf : p.lsq.cur.Wf
  queue : p.lsq.cur.queue = []
  result : p.lsq.cur.loadResult.valid = false
  port : p.unit.port.cur.transaction.valid = false

variable {start : MemoryPath} {inputs : Nat → PathInputs} {n : Nat} {e : LsqEntry}

/-- The requests the port is given. -/
def requests (start : MemoryPath) (inputs : Nat → PathInputs) (n : Nat) : DataMemoryRequest :=
  (decision start inputs n).outputs.memoryRequest

theorem unit_after (start : MemoryPath) (inputs : Nat → PathInputs) (n : Nat) :
    (after start inputs n).unit = MemoryUnit.after start.unit (requests start inputs) n := by
  induction n with
  | zero => rfl
  | succ n ih =>
    show (MemoryUnit.cycle (after start inputs n).unit (requests start inputs n)).2 = _
    rw [ih]
    rfl

theorem lsq_after_succ : (after start inputs (n + 1)).lsq.cur =
    (LoadStoreQueue.step (after start inputs n).lsq.cur (lsqInputs (inputs n)) (decision start inputs n)).2 := rfl

/-! ## An entry with its operands -/

/-- An access that waits for nothing any more. -/
structure Settled (e : LsqEntry) : Prop where
  valid : e.valid = true
  base : e.base.ready = true
  storeData : e.storeData.ready = true
  address : e.addressReady = true

theorem Settled.carried (h : Settled e) (cdb : CdbMsg) : updateAddress (LoadStoreQueue.wake cdb e) = e := by
  have hwake : LoadStoreQueue.wake cdb e = e := by
    rw [LoadStoreQueue.wake, wakeOperand_of_ready h.base, wakeOperand_of_ready h.storeData, ite_self]
  rw [hwake, updateAddress, if_pos (by simp [h.address])]

theorem Settled.sent (h : Settled e) : Settled (LoadStoreQueue.sent e) := ⟨h.valid, h.base, h.storeData, h.address⟩

/-- In front of cycle `n` the queue holds `e` alone. -/
structure Holds (start : MemoryPath) (inputs : Nat → PathInputs) (n : Nat) (e : LsqEntry) : Prop where
  wf : (after start inputs n).lsq.cur.Wf
  queue : (after start inputs n).lsq.cur.queue = [e]
  result : (after start inputs n).lsq.cur.loadResult.valid = false

theorem Holds.decision (h : Holds start inputs n e) :
    decision start inputs n =
      planSend (after start inputs n).lsq.cur e ((after start inputs n).observe (inputs n))
        (planResponse e (dataResponse (after start inputs n).unit.port.cur) {}) := by
  have hflush : ((after start inputs n).observe (inputs n)).flush = false := rfl
  have hplan := plan_cons h.wf h.queue hflush
  have hclear : planClear (after start inputs n).lsq.cur ((after start inputs n).observe (inputs n)) = {} := by
    simp [planClear, h.result]
  rw [hclear] at hplan
  exact hplan

/-- The queue's part of a cycle that issues nothing. -/
theorem Holds.step (h : Holds start inputs n e) (hissue : (inputs n).issueValid = false)
    (hd : Serves (after start inputs n).lsq.cur (MemoryPath.decision start inputs n)) :
    (after start inputs (n + 1)).lsq.cur.Wf ∧
      (after start inputs (n + 1)).lsq.cur.queue =
        (serve (MemoryPath.decision start inputs n) [LoadStoreQueue.wake (inputs n).cdb e]).map updateAddress ∧
      (after start inputs (n + 1)).lsq.cur.loadResult =
        if (MemoryPath.decision start inputs n).installLoadResult then
          (MemoryPath.decision start inputs n).completedLoadResult
        else if (MemoryPath.decision start inputs n).clearLoadResult then {}
        else (after start inputs n).lsq.cur.loadResult := by
  obtain ⟨hw, hq, hr⟩ := step_spec h.wf (lsqInputs (inputs n)) rfl hd
  have hno : accepts (after start inputs n).lsq.cur (lsqInputs (inputs n)) = false := by
    simp [accepts, lsqInputs, hissue]
  rw [hno, h.queue] at hq
  simp only [Bool.false_eq_true, if_false, List.append_nil, List.map_cons, List.map_nil] at hq
  exact ⟨hw, hq, hr⟩

/-- A sent access waits while nothing answers. -/
theorem Holds.waits (h : Holds start inputs n e) (hs : Settled e) (hsent : e.requestSent = true)
    (hissue : (inputs n).issueValid = false)
    (hquiet : (dataResponse (after start inputs n).unit.port.cur).valid = false) :
    MemoryPath.decision start inputs n = {} ∧ Holds start inputs (n + 1) e := by
  have hd : MemoryPath.decision start inputs n = {} := by
    rw [h.decision, planResponse, matchingResponse, if_neg (by simp [hquiet]), planSend,
      if_neg (by simp [maySend, hsent])]
  obtain ⟨hw, hq, hr⟩ := h.step hissue (by rw [hd]; exact ⟨by simp, by simp, by simp⟩)
  rw [hd] at hq hr
  refine ⟨hd, hw, ?_, by rw [hr]; exact h.result⟩
  simpa [serve, hs.carried] using hq

/-! ## Issue, request, response -/

/-- The issued access is the queue's head, its address computed. -/
theorem issued (hidle : Idle start) (he : e.valid = true)
    (hin : (inputs 0).issueEntry = e ∧ (inputs 0).issueValid = true) :
    MemoryPath.decision start inputs 0 = {} ∧
      Holds start inputs 1 (updateAddress (queued e)) := by
  have hplan : MemoryPath.decision start inputs 0 = {} := by
    have hflush : (start.observe (inputs 0)).flush = false := rfl
    refine (plan_nil hidle.queue hflush).trans ?_
    simp [planClear, hidle.result]
  have hempty : start.lsq.cur.count = 0 := by
    rw [← length_queue, hidle.queue]
    rfl
  have hroom : accepts start.lsq.cur (lsqInputs (inputs 0)) = true := by
    simp [accepts, lsqInputs, hin.1, hin.2, he, full, hempty, kCapacity]
  obtain ⟨hw, hq, hr⟩ := step_spec hidle.wf (lsqInputs (inputs 0)) rfl (d := {}) ⟨by simp, by simp, by simp⟩
  rw [hroom, hidle.queue] at hq
  rw [show (lsqInputs (inputs 0)).issueEntry = e from hin.1] at hq
  have hstep : (after start inputs 1).lsq.cur = (LoadStoreQueue.step start.lsq.cur (lsqInputs (inputs 0)) {}).2 := by
    rw [lsq_after_succ, hplan]
    rfl
  refine ⟨hplan, by rw [hstep]; exact hw, ?_, by rw [hstep, hr]; exact hidle.result⟩
  rw [hstep, hq]
  simp [serve]

/-- A settled access goes to a free port, a store once it is authorized. -/
theorem sent (h : Holds start inputs n e) (hs : Settled e) (hnew : e.requestSent = false)
    (hissue : (inputs n).issueValid = false)
    (hport : (after start inputs n).unit.port.cur.transaction.valid = false)
    (hquiet : (dataResponse (after start inputs n).unit.port.cur).valid = false)
    (hstore : e.type = .store → (inputs n).storeRequest = { tag := e.destination, valid := true }) :
    MemoryPath.decision start inputs n =
        { outputs := { memoryRequest := makeMemoryRequest e }, markRequestSent := true } ∧
      Holds start inputs (n + 1) (LoadStoreQueue.sent e) := by
  have hmay : maySend (after start inputs n).lsq.cur e ((after start inputs n).observe (inputs n)) = true := by
    cases ht : e.type with
    | load => simp [maySend, hs.valid, hnew, hs.address, observe, dataPortAvailable, hport, ht, h.result]
    | store => simp [maySend, hs.valid, hnew, hs.address, observe, dataPortAvailable, hport, ht, hs.storeData, hstore ht]
  have hd : MemoryPath.decision start inputs n =
      { outputs := { memoryRequest := makeMemoryRequest e }, markRequestSent := true } := by
    rw [h.decision, planResponse, matchingResponse, if_neg (by simp [hquiet]), planSend, if_pos hmay]
  have hpos : 0 < (after start inputs n).lsq.cur.count := by
    rw [← length_queue, h.queue]
    exact Nat.one_pos
  obtain ⟨hw, hq, hr⟩ := h.step hissue (by rw [hd]; exact ⟨by simp, fun _ => hpos, by simp⟩)
  rw [hd] at hq hr
  refine ⟨hd, hw, ?_, by rw [hr]; exact h.result⟩
  rw [hq]
  have hcarried : updateAddress (LoadStoreQueue.sent (LoadStoreQueue.wake (inputs n).cdb e)) = LoadStoreQueue.sent e :=
    hs.sent.carried (inputs n).cdb
  simp [serve, hcarried]

/-- The response to a sent access is consumed in the cycle it shows. -/
theorem consumed (h : Holds start inputs n e) (hs : Settled e) (hsent : e.requestSent = true)
    (htag : e.destination.valid = true) (hissue : (inputs n).issueValid = false) {bytes : Nat → Byte}
    (hresponse : dataResponse (after start inputs n).unit.port.cur = answer bytes (makeMemoryRequest e)) :
    ((MemoryPath.decision start inputs n).outputs.memoryError = true ↔ ¬ Fits (makeMemoryRequest e)) ∧
      (Fits (makeMemoryRequest e) →
        (e.type = .load →
          (after start inputs (n + 1)).lsq.cur.loadResult =
            { tag := e.destination
              result :=
                extendLoadResult e.op
                  (LittleEndian.load bytes e.address.toNat (widthInBytes (memoryWidth e.op)))
              valid := true }) ∧
        (e.type = .store →
          (MemoryPath.decision start inputs n).outputs.storeCompletion = { tag := e.destination, valid := true })) ∧
      (MemoryPath.decision start inputs n).outputs.memoryRequest = {} := by
  have hmatch : matchingResponse e (answer bytes (makeMemoryRequest e)) = true := by
    cases ht : e.type <;> simp [matchingResponse, answer, makeMemoryRequest, hs.valid, htag, ht]
  have hd : MemoryPath.decision start inputs n = planResponse e (answer bytes (makeMemoryRequest e)) {} := by
    rw [h.decision, hresponse, planSend, if_neg (by simp [maySend, hsent])]
  rw [planResponse, if_pos hmatch] at hd
  by_cases hf : Fits (makeMemoryRequest e)
  · have hsuccess : (answer bytes (makeMemoryRequest e)).success = true := decide_eq_true hf
    rw [if_neg (by simp [hsuccess])] at hd
    have hpos : 0 < (after start inputs n).lsq.cur.count := by
      rw [← length_queue, h.queue]
      exact Nat.one_pos
    cases ht : e.type with
    | load =>
      rw [if_pos ht] at hd
      obtain ⟨-, -, hr⟩ := h.step hissue (by rw [hd]; exact ⟨fun _ => hpos, by simp, by simp⟩)
      rw [hd] at hr ⊢
      refine ⟨by simp [hf], fun _ => ⟨fun _ => ?_, by simp⟩, rfl⟩
      have hvalue : (answer bytes (makeMemoryRequest e)).value =
          LittleEndian.load bytes e.address.toNat (widthInBytes (memoryWidth e.op)) := if_pos ⟨ht, hf⟩
      rw [hvalue] at hr
      exact hr
    | store =>
      rw [if_neg (by simp [ht])] at hd
      rw [hd]
      exact ⟨by simp [hf], fun _ => ⟨by simp, fun _ => rfl⟩, rfl⟩
  · have hsuccess : (answer bytes (makeMemoryRequest e)).success = false := decide_eq_false hf
    rw [if_pos (by simp [hsuccess])] at hd
    rw [hd]
    exact ⟨by simp [hf], fun hc => absurd hc hf, rfl⟩

/-! ## The whole access -/

/-- The head while an access with base value `a` and store data `b` is on its way. -/
def accessEntry (d : DecodedInstruction) (tag : RobTag) (a b : Word) : LsqEntry :=
  { type := if d.isLoad then .load else .store
    op := d.op
    destination := tag
    base := IssueUnit.readyOperand a
    storeData := if d.isStore then IssueUnit.readyOperand b else IssueUnit.readyOperand 0
    immediate := d.immediate
    address := a + d.immediate
    addressReady := true
    valid := true }

theorem accessEntry_settled (d : DecodedInstruction) (tag : RobTag) (a b : Word) : Settled (accessEntry d tag a b) where
  valid := rfl
  base := rfl
  storeData := by
    unfold accessEntry
    simp only []
    split <;> rfl
  address := rfl

section
variable {d : DecodedInstruction} {tag : RobTag} {a b : Word} (hidle : Idle start)
  (hvalid : (inputs 0).issueEntry.valid = true)
  (hentry : updateAddress (queued (inputs 0).issueEntry) = accessEntry d tag a b)
  (hissue : ∀ n, (inputs n).issueValid = (n == 0)) (htag : tag.valid = true)
  (hstore : d.isLoad = false → ∀ n, (inputs n).storeRequest = { tag := tag, valid := true })
include hidle hvalid hentry hissue htag hstore

/-- Issued in cycle 0, which leaves the port alone, it is sent in cycle 1. -/
theorem access_sent :
    decision start inputs 0 = {} ∧
      decision start inputs 1 =
        { outputs := { memoryRequest := makeMemoryRequest (accessEntry d tag a b) }, markRequestSent := true } ∧
      Holds start inputs 2 (LoadStoreQueue.sent (accessEntry d tag a b)) ∧
      MemoryUnit.accepted start.unit (requests start inputs) 1 = true ∧
      (after start inputs 1).unit.memory = start.unit.memory := by
  obtain ⟨hd0, h1⟩ := issued hidle hvalid ⟨rfl, hissue 0⟩
  rw [hentry] at h1
  have hr0 : requests start inputs 0 = {} := by rw [requests, hd0]
  obtain ⟨-, hmem, hport⟩ := cycle_free hidle.port (requests start inputs 0)
  rw [hr0] at hmem hport
  have hunit : (after start inputs 1).unit = (MemoryUnit.cycle start.unit {}).2 := by
    rw [unit_after, MemoryUnit.after, MemoryUnit.after, hr0]
  have hfree : (after start inputs 1).unit.port.cur.transaction.valid = false := by
    rw [hunit, hport]
    exact hidle.port
  have hquiet : (dataResponse (after start inputs 1).unit.port.cur).valid = false := by
    rw [hunit, hport]
    rfl
  have hauthorized : (accessEntry d tag a b).type = .store →
      (inputs 1).storeRequest = { tag := (accessEntry d tag a b).destination, valid := true } := by
    intro ht
    refine hstore ?_ 1
    cases hl : d.isLoad with
    | false => rfl
    | true => simp [accessEntry, hl] at ht
  obtain ⟨hd1, h2⟩ := sent h1 (accessEntry_settled _ _ _ _) rfl (hissue 1) hfree hquiet hauthorized
  have hr1 : requests start inputs 1 = makeMemoryRequest (accessEntry d tag a b) := by rw [requests, hd1]
  refine ⟨hd0, hd1, h2, ?_, by rw [hunit]; exact hmem⟩
  rw [unit_after] at hfree
  rw [MemoryUnit.accepted, (cycle_free hfree _).1, hr1]
  exact htag

/-- In cycles 2 to 4 it is in flight, and the queue waits. -/
theorem access_waits :
    Holds start inputs 5 (LoadStoreQueue.sent (accessEntry d tag a b)) ∧
      ∀ j < 3, decision start inputs (2 + j) = {} ∧
        (after start inputs (2 + j)).unit.memory = start.unit.memory := by
  obtain ⟨-, -, h2, haccept, hmem⟩ := access_sent hidle hvalid hentry hissue htag hstore
  have hflight : ∀ j < 3, (dataResponse (after start inputs (2 + j)).unit.port.cur).valid = false ∧
      (after start inputs (2 + j)).unit.memory = start.unit.memory := by
    intro j hj
    obtain ⟨hport, hkept⟩ := in_flight haccept (j := j) hj
    rw [unit_after, hkept, ← unit_after start inputs 1, hmem]
    refine ⟨?_, rfl⟩
    rw [hport]
    rfl
  have hwait : ∀ j ≤ 3, Holds start inputs (2 + j) (LoadStoreQueue.sent (accessEntry d tag a b)) ∧
      ∀ k < j, decision start inputs (2 + k) = {} := by
    intro j hj
    induction j with
    | zero => exact ⟨h2, fun k hk => absurd hk (Nat.not_lt_zero k)⟩
    | succ j ih =>
      obtain ⟨hholds, hbefore⟩ := ih (by omega)
      have hlater : (inputs (2 + j)).issueValid = false := by
        rw [hissue]
        simp
      obtain ⟨hd, hnext⟩ := hholds.waits (accessEntry_settled _ _ _ _).sent rfl hlater (hflight j (by omega)).1
      refine ⟨hnext, fun k hk => ?_⟩
      rcases Nat.lt_succ_iff_lt_or_eq.mp hk with hk | rfl
      · exact hbefore k hk
      · exact hd
  obtain ⟨h5, hquiet⟩ := hwait 3 (Nat.le_refl 3)
  exact ⟨h5, fun j hj => ⟨hquiet j hj, (hflight j hj).2⟩⟩

/-- An access issued in cycle 0 goes out in cycle 1 and is consumed in cycle 5. -/
theorem access_run :
    let e := accessEntry d tag a b
    (∀ n < 5, (decision start inputs n).outputs.memoryError = false ∧
      (decision start inputs n).installLoadResult = false ∧
      (decision start inputs n).outputs.storeCompletion = {} ∧ (after start inputs n).unit.memory = start.unit.memory) ∧
    ((decision start inputs 5).outputs.memoryError = true ↔ ¬ Fits (makeMemoryRequest e)) ∧
    (after start inputs 6).unit.memory =
      { start.unit.memory with bytes := storeInto start.unit.memory.bytes (makeMemoryRequest e) } ∧
    (Fits (makeMemoryRequest e) →
      (e.type = .load →
        (after start inputs 6).lsq.cur.loadResult =
          { tag := e.destination
            result :=
              extendLoadResult e.op
                (LittleEndian.load start.unit.memory.bytes e.address.toNat (widthInBytes (memoryWidth e.op)))
            valid := true }) ∧
      (e.type = .store →
        (decision start inputs 5).outputs.storeCompletion = { tag := e.destination, valid := true })) := by
  intro e
  obtain ⟨hd0, hd1, -, haccept, hmem1⟩ := access_sent hidle hvalid hentry hissue htag hstore
  obtain ⟨h5, hwait⟩ := access_waits hidle hvalid hentry hissue htag hstore
  have hr1 : requests start inputs 1 = makeMemoryRequest e := by rw [requests, hd1]
  obtain ⟨hport5, -, hmem5⟩ := answered haccept
  rw [← unit_after start inputs 1, hmem1, hr1] at hport5 hmem5
  have hresponse : dataResponse (after start inputs 5).unit.port.cur =
      answer start.unit.memory.bytes (makeMemoryRequest (LoadStoreQueue.sent e)) := by
    rw [unit_after]
    exact congrArg (·.response) hport5
  obtain ⟨herror, hdone, -⟩ :=
    consumed h5 (accessEntry_settled _ _ _ _).sent rfl htag (hissue 5) hresponse
  have hmem6 : (after start inputs 6).unit.memory = (MemoryUnit.after start.unit (requests start inputs) 5).memory := by
    rw [unit_after]
    refine (cycle_free ?_ (requests start inputs 5)).2.1
    exact congrArg (·.transaction.valid) hport5
  refine ⟨fun n hn => ?_, herror, hmem6.trans hmem5, hdone⟩
  have hcases : n = 0 ∨ n = 1 ∨ ∃ j < 3, n = 2 + j := by
    rcases Nat.lt_or_ge n 2 with h | h
    · omega
    · exact Or.inr (Or.inr ⟨n - 2, by omega, by omega⟩)
  rcases hcases with rfl | rfl | ⟨j, hj, rfl⟩
  · rw [hd0]
    exact ⟨rfl, rfl, rfl, rfl⟩
  · rw [hd1, hmem1]
    exact ⟨rfl, rfl, rfl, rfl⟩
  · rw [(hwait j hj).1, (hwait j hj).2]
    exact ⟨rfl, rfl, rfl, rfl⟩

end

/-! ## The interpreter -/

/-- The issue of the word `w`, its operands read from settled registers. -/
theorem lsqEntry_settled {registers : RegisterIndex → Word} {w : InstructionBits} {tag : RobTag}
    (hx0 : registers 0 = 0) (hop : (Decoder.decode w).op.isMemory = true) (htag : tag.valid = true)
    (pc predictedPc : Address) (cdb : CdbMsg) :
    (IssueUnit.plan (Cpu.issueInputsFor registers pc w tag predictedPc cdb)).lsqEntry =
      IssueUnit.makeLsqEntry (Cpu.issueInputsFor registers pc w tag predictedPc cdb)
        (IssueUnit.readyOperand (registers (Decoder.decode w).rs1))
        (IssueUnit.readyOperand (registers (Decoder.decode w).rs2)) := by
  have hd := Decoder.decode_spec w
  have hsource : ∀ r : RegisterIndex, r.toNat < 32 →
      IssueUnit.resolveRegister r { architecturalValue := RegisterFile.read registers r } cdb =
        IssueUnit.readyOperand (registers r) := by
    intro r hr
    rw [Cpu.read_inside hx0 hr]
    exact IssueUnit.resolveRegister_settled (fun h => by rw [h, hx0]) cdb
  have hm : IssueUnit.isMemoryInstruction (Decoder.decode w) = true := by
    rw [IssueUnit.isMemoryInstruction, hd.load, hd.store]
    exact hop
  have hinv : (Decoder.decode w).op ≠ .invalid := by
    intro hc
    rw [hc] at hop
    cases hop
  unfold IssueUnit.plan
  simp only [Cpu.issueInputsFor, Bool.true_eq_false, if_false, if_neg hinv, htag, hm, Bool.not_true, Bool.and_false,
    Bool.or_false, Bool.false_eq_true, if_true, hsource _ hd.rs1_lt, hsource _ hd.rs2_lt]

/-- The inputs of an access: the issue in cycle 0, and for a store the authorization. -/
def accessInputs (i : Interpreter) (w : InstructionBits) (tag : RobTag) (predictedPc : Address) (cdb : Nat → CdbMsg)
    (granted : Nat → Bool) (n : Nat) : PathInputs :=
  { issueEntry := (IssueUnit.plan (Cpu.issueInputsFor i.registers i.pc w tag predictedPc (cdb 0))).lsqEntry
    issueValid := n == 0
    cdb := cdb n
    storeRequest := { tag := tag, valid := (Decoder.decode w).isStore }
    loadResultGranted := granted n }

/-- The interpreter's bounds check is the port's. -/
theorem inside_iff {i : Interpreter} {d : DecodedInstruction} {tag : RobTag} (hop : d.op.isMemory = true) (b : Word) :
    i.inside d = true ↔ Fits (makeMemoryRequest (accessEntry d tag (i.registers d.rs1) b)) := by
  rw [← fits_iff, Interpreter.inside, ← width_eq hop]
  exact Iff.rfl

/-- A store's request writes the register's low bytes where the interpreter does. -/
theorem storeInto_store {d : DecodedInstruction} (hd : WellDecoded d) (hop : d.op.isStore = true) (bytes : Nat → Byte)
    (tag : RobTag) {a b : Word} (hfits : Fits (makeMemoryRequest (accessEntry d tag a b))) :
    storeInto bytes (makeMemoryRequest (accessEntry d tag a b)) =
      LittleEndian.store bytes (a + d.immediate).toNat (Rv32i.accessWidth d.op) b := by
  have hs : d.isStore = true := hd.store.trans hop
  have hl : d.isLoad = false := hd.load.trans (Op.isLoad_of_isStore hop)
  have htype : (accessEntry d tag a b).type = .store := by simp [accessEntry, hl]
  have hvalue : (makeMemoryRequest (accessEntry d tag a b)).value = b := by
    simp [makeMemoryRequest, accessEntry, hl, hs, IssueUnit.readyOperand]
  have hmemory : d.op.isMemory = true := by simp [Op.isMemory, hop]
  rw [storeInto, if_pos ⟨htype, hfits⟩, hvalue, ← width_eq hmemory]
  rfl

/-- Nothing else writes. -/
theorem storeInto_keeps {d : DecodedInstruction} (bytes : Nat → Byte) (tag : RobTag) {a b : Word}
    (h : d.isLoad = true ∨ ¬ Fits (makeMemoryRequest (accessEntry d tag a b))) :
    storeInto bytes (makeMemoryRequest (accessEntry d tag a b)) = bytes := by
  refine if_neg ?_
  rintro ⟨htype, hfits⟩
  rcases h with hl | hno
  · have hload : (accessEntry d tag a b).type = .load := by simp [accessEntry, hl]
    have hstore : (accessEntry d tag a b).type = .store := htype
    rw [hload] at hstore
    cases hstore
  · exact hno hfits

/-- The access through the queue and the data port does what the interpreter's step does. -/
theorem paths_agree {i : Interpreter} {w : InstructionBits} {tag : RobTag} {start : MemoryPath}
    (hready : i.status = .ready ∨ i.status = .running) (hfetch : i.memory.readWord i.pc = some w)
    (hx0 : i.registers 0 = 0) (hop : (Decoder.decode w).op.isMemory = true) (htag : tag.valid = true)
    (hidle : Idle start) (hmemory : start.unit.memory = i.memory) (predictedPc : Address) (cdb : Nat → CdbMsg)
    (granted : Nat → Bool) :
    let d := Decoder.decode w
    let inputs := accessInputs i w tag predictedPc cdb granted
    (∀ n < 5, (decision start inputs n).outputs.memoryError = false ∧
      (decision start inputs n).installLoadResult = false ∧
      (decision start inputs n).outputs.storeCompletion = {} ∧ (after start inputs n).unit.memory = i.memory) ∧
    ((decision start inputs 5).outputs.memoryError = true ↔ i.step.1.status = .memoryOutOfBounds) ∧
    (i.step.1.status = .memoryOutOfBounds → (after start inputs 6).unit.memory = i.memory ∧ i.step.2.memory = i.memory) ∧
    (i.step.1.status ≠ .memoryOutOfBounds →
      (after start inputs 6).unit.memory = i.step.2.memory ∧
      (d.op.isLoad = true → ∃ e, i.execute d = .ok e ∧ e.hasWriteback = true ∧
        (d.rd ≠ 0 → i.step.2.registers d.rd = e.writebackValue) ∧
        (after start inputs 6).lsq.cur.loadResult = { tag := tag, result := e.writebackValue, valid := true }) ∧
      (d.op.isStore = true → (decision start inputs 5).outputs.storeCompletion = { tag := tag, valid := true })) := by
  intro d inputs
  have hd : WellDecoded d := Decoder.decode_spec w
  have hkind : d.isLoad = false → d.isStore = true := by
    intro hl
    have hm : (d.op.isLoad || d.op.isStore) = true := hop
    rw [← hd.load, hl, Bool.false_or] at hm
    rw [hd.store, hm]
  have hentry : (inputs 0).issueEntry = _ := lsqEntry_settled hx0 hop htag i.pc predictedPc (cdb 0)
  have haccess : updateAddress (queued (inputs 0).issueEntry) =
      accessEntry d tag (i.registers d.rs1) (i.registers d.rs2) := by
    rw [hentry]
    rfl
  have hauthorized : d.isLoad = false → ∀ n, (inputs n).storeRequest = { tag := tag, valid := true } := by
    intro hl n
    show StoreCommitRequest.mk tag d.isStore = _
    rw [hkind hl]
  obtain ⟨hearly, herror, hmem, hdone⟩ := access_run hidle (by rw [hentry]; rfl) haccess (fun _ => rfl) htag hauthorized
  rw [hmemory] at hmem hdone hearly
  have hin : i.inside d = true ↔ Fits (makeMemoryRequest (accessEntry d tag (i.registers d.rs1) (i.registers d.rs2))) :=
    inside_iff hop (i.registers d.rs2)
  rw [← hin] at herror
  refine ⟨hearly, ?_⟩
  cases hinside : i.inside d with
  | false =>
    have hno : ¬ Fits (makeMemoryRequest (accessEntry d tag (i.registers d.rs1) (i.registers d.rs2))) := by
      rw [← hin, hinside]
      exact Bool.false_ne_true
    rw [storeInto_keeps _ tag (.inr hno)] at hmem
    rw [Interpreter.step_outside hready hfetch hop hinside]
    refine ⟨?_, fun _ => ⟨hmem, rfl⟩, fun hc => absurd rfl hc⟩
    rw [herror, hinside]
    exact ⟨fun _ => rfl, fun _ => Bool.false_ne_true⟩
  | true =>
    have hfits := hin.mp hinside
    obtain ⟨hload, hstore⟩ := hdone hfits
    cases hl : d.isLoad with
    | true =>
      have hopl : d.op.isLoad = true := by rw [← hd.load, hl]
      have htype : (accessEntry d tag (i.registers d.rs1) (i.registers d.rs2)).type = .load := by simp [accessEntry, hl]
      obtain ⟨hstatus, hkept, e, hexecute, hback, hvalue, hreg⟩ := Interpreter.step_load hready hfetch hopl hinside
      have hnostore : d.op.isStore = true → False := by
        intro hs
        rw [Op.isLoad_of_isStore hs] at hopl
        cases hopl
      rw [storeInto_keeps _ tag (.inl hl)] at hmem
      have hresult : (after start inputs 6).lsq.cur.loadResult =
          { tag := tag
            result :=
              extendLoadResult d.op
                (LittleEndian.load i.memory.bytes (i.address d).toNat (widthInBytes (memoryWidth d.op)))
            valid := true } := hload htype
      rw [extendLoadResult_spec hopl, ← hvalue] at hresult
      rw [hstatus, herror, hinside]
      refine ⟨by simp, fun hc => (by cases hc), fun _ => ⟨hmem.trans hkept.symm, fun _ => ?_, ?_⟩⟩
      · exact ⟨e, hexecute, hback, hreg, hresult⟩
      · exact fun hs => (hnostore hs).elim
    | false =>
      have hops : d.op.isStore = true := by rw [← hd.store, hkind hl]
      have htype : (accessEntry d tag (i.registers d.rs1) (i.registers d.rs2)).type = .store := by simp [accessEntry, hl]
      obtain ⟨hstatus, hwritten⟩ := Interpreter.step_store hready hfetch hops hinside
      have hnoload : d.op.isLoad = true → False := by
        intro hc
        rw [Op.isLoad_of_isStore hops] at hc
        cases hc
      rw [hstatus, herror, hinside]
      refine ⟨by simp, fun hc => (by cases hc), fun _ => ⟨?_, fun hc => (hnoload hc).elim, fun _ => hstore htype⟩⟩
      rw [hmem, hwritten, storeInto_store hd hops _ tag hfits]
      rfl

/-- `lw x5, 0(x0)`, which loads itself. -/
def selfLoad : Interpreter := (Interpreter.new.load { text := "@0 83 22 00 00".toList }).2

theorem paths_agree_selfLoad :
    let start : MemoryPath := ⟨.reset resetState, idle selfLoad.memory⟩
    let inputs := accessInputs selfLoad 0x00002283 ⟨0, 1, true⟩ 4 (fun _ => {}) fun _ => false
    ∃ e, selfLoad.execute (Decoder.decode 0x00002283) = .ok e ∧
      (after start inputs 6).lsq.cur.loadResult = { tag := ⟨0, 1, true⟩, result := e.writebackValue, valid := true } := by
  intro start inputs
  have hidle : Idle start := ⟨resetState_wf, resetState_queue, rfl, rfl⟩
  have hfacts : selfLoad.status = .ready ∧ selfLoad.memory.readWord selfLoad.pc = some 0x00002283 ∧
      selfLoad.registers 0 = 0 ∧ selfLoad.step.1.status ≠ .memoryOutOfBounds := by
    decide +kernel
  obtain ⟨hstatus, hfetch, hx0, hstep⟩ := hfacts
  have htag : (RobTag.mk 0 1 true).valid = true := rfl
  obtain ⟨-, -, -, hdone⟩ := paths_agree (Or.inl hstatus) hfetch hx0 (by decide) htag hidle rfl 4 (fun _ => {})
    fun _ => false
  obtain ⟨-, hload, -⟩ := hdone hstep
  obtain ⟨e, he, -, -, hresult⟩ := hload (by decide)
  exact ⟨e, he, hresult⟩

end MemoryPath

end TomasuloCpu
