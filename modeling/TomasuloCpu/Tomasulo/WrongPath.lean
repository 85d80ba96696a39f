/-
  TomasuloCpu.Tomasulo.WrongPath — memory errors and the path they are on.

  A fetch or decode error counts only with an empty reorder buffer, when nothing older can
  redirect the fetch. A failed response counts in the cycle it is seen, though its load can
  be behind a branch or jump that was predicted wrong. `wrong_path_load_faults` stops so, and
  its sequential run halts. `memory_fault_on_path`: without an older wrong prediction the
  sequential run faults too.
-/
import TomasuloCpu.Tomasulo.CommitLog
import TomasuloCpu.Tomasulo.Refinement

namespace TomasuloCpu

open Keyed Rv32i

namespace Core

variable {s : Core} {tr : Nat → Core} {memory : Nat → Byte} {c i j : Nat} {l : List RobEntry} {x y : RobEntry}
  {m m' : Machine}

/-! ## Ahead of the access -/

/-- The branches and jumps older than position `i` are predicted as the sequential run goes. -/
def PredictedRight (memory : Nat → Byte) (c : Nat) (l : List RobEntry) (i : Nat) : Prop :=
  ∀ j < i, ∀ e m, l[j]? = some e → (e.isBranch || e.isJump) = true → run memory (c + j + 1) = some m →
    e.predictedNextPc = m.pc

/-- An instruction that computes, or an access that is answered, has a next state. -/
theorem next_onPath (hp : OnPath memory c s.rob.live j y m) (h : Inv s) (hsim : Sim memory c s)
    (hop : y.op ≠ .halt)
    (hmade : y.op.isMemory = true → y.ready = true ∨ (s.lsq.loadResult.valid = true ∧ s.lsq.loadResult.tag = y.tag)) :
    ∃ m', m.next = some m' := by
  have hf := hsim.fetched j y m hp
  by_cases hmem : y.op.isMemory = true
  · rcases hmade hmem with hr | ⟨hv, ht⟩
    · obtain ⟨m', hm', -⟩ := (hsim.done j y m hp hr hop).next
      exact ⟨m', hm'⟩
    · obtain ⟨m', hm', -⟩ := (hsim.loaded hv j y m hp ht.symm).next
      exact ⟨m', hm'⟩
  · refine ⟨m.execute m.instruction, Machine.next_eq_some.mpr ⟨?_, ?_, fun hc => ?_, rfl⟩⟩
    · rw [← hf.op]
      exact (h.entry y hp.mem).op_ne
    · rw [← hf.op]
      exact hop
    · rw [← hf.op] at hc
      exact absurd hc hmem

/-- Behind an entry predicted right the next one is on the path. -/
theorem onPath_succ (hp : OnPath memory c s.rob.live j y m) (h : Inv s) (hsim : Sim memory c s)
    (hm' : m.next = some m') (hpred : (y.isBranch || y.isJump) = true → y.predictedNextPc = m'.pc)
    (hx : s.rob.live[j + 1]? = some x) : OnPath memory c s.rob.live (j + 1) x m' := by
  have hstep : run memory (c + (j + 1)) = some m' := by rw [← Nat.add_assoc, run_succ hp.step, hm']
  have hpc : x.pc = m'.pc := by
    rw [← pcAt_entry hx, hsim.chain j y hp.entry]
    by_cases hc : (y.isBranch || y.isJump) = true
    · exact hpred hc
    · rw [Bool.not_eq_true] at hc
      have hop := Fetched.control h hp.mem (hsim.fetched j y m hp)
      rw [hc, eq_comm, Bool.or_eq_false_iff] at hop
      rw [hsim.predicted y hp.mem hc, hp.pc, Machine.next_pc hm', Machine.target_sequential hop.1 hop.2]
  refine ⟨hx, hstep, fun k hk a b ha hb => ?_⟩
  rcases Nat.lt_or_ge k (j + 1) with hlt | hge
  · exact hp.pcs k (Nat.le_of_lt_succ hlt) a b ha hb
  · obtain rfl : k = j + 1 := Nat.le_antisymm hk hge
    rw [hx, Option.some.injEq] at ha
    rw [hstep, Option.some.injEq] at hb
    rw [← ha, ← hb, hpc]

/-- Up to the queue's head everything is on the path, when no prediction is wrong. -/
theorem access_onPath (h : Inv s) (hsim : Sim memory c s) (hstream : FetchStream s) {e : LsqEntry}
    (he : s.lsq.queue.head? = some e) (hx : s.rob.live[i]? = some x) (hxt : x.tag = e.destination)
    (hpred : PredictedRight memory c s.rob.live i) {k : Nat} (hk : k ≤ i) {y : RobEntry}
    (hy : s.rob.live[k]? = some y) : ∃ m, OnPath memory c s.rob.live k y m := by
  have hlen := (List.getElem?_eq_some_iff.mp hx).1
  induction k generalizing y with
  | zero => exact hsim.head hy
  | succ k ih =>
    obtain ⟨z, hz⟩ : ∃ z, s.rob.live[k]? = some z := ⟨_, List.getElem?_eq_getElem (by omega)⟩
    obtain ⟨m, hp⟩ := ih (by omega) hz
    have hop : z.op ≠ .halt := by
      intro hop
      have := (hstream.halt k z hz hop).1
      omega
    obtain ⟨m', hm'⟩ := next_onPath hp h hsim hop fun hmem => older_access h he hx hxt (by omega) hz hmem
    have hstep : run memory (c + k + 1) = some m' := by rw [run_succ hp.step, hm']
    exact ⟨m', onPath_succ hp h hsim hm' (fun hc => hpred k (by omega) z m' hz hc hstep) hy⟩

/-- A failed response answers an access that the sequential run cannot make either. -/
theorem fault_onPath (h : Inv s) (hsim : Sim memory c s) (hv : MemoryView memory c s) {e : LsqEntry}
    {rest : List LsqEntry} (hq : s.lsq.queue = e :: rest)
    (hm : LoadStoreQueue.matchingResponse e s.port.response = true) (hf : s.port.response.success = false)
    (hp : OnPath memory c s.rob.live i x m) (hxt : x.tag = e.destination) : m.step = .memoryOutOfBounds := by
  obtain ⟨hmem, hsuccess, -⟩ := response_onPath h hsim hv hq hm hp hxt
  exact Machine.step_outOfBounds.mpr ⟨hmem, hsuccess.symm.trans hf⟩

/-- The same, by computation, of every entry. -/
def goesAsPredicted (memory : Nat → Byte) (c : Nat) (l : List RobEntry) : Bool :=
  l.zipIdx.all fun p => !(p.1.isBranch || p.1.isJump) || (run memory (c + p.2 + 1)).all (·.pc == p.1.predictedNextPc)

theorem predictedRight_of_goes (h : goesAsPredicted memory c l = true) (i : Nat) : PredictedRight memory c l i := by
  intro j _ e m he hcontrol hm
  have hgoes := List.all_eq_true.mp h (e, j) (List.mem_zipIdx_iff_getElem?.mpr he)
  rw [hcontrol, hm] at hgoes
  exact (beq_iff_eq.mp hgoes).symm

/-! ## Whose fault it is -/

/-- The queue sees that its head's access failed, and an older branch or jump is predicted
    wrong. -/
def FaultsOnWrongPath (memory : Nat → Byte) (c : Nat) (s : Core) : Prop :=
  s.flush = false ∧ ∃ e rest i x, s.lsq.queue = e :: rest ∧
    LoadStoreQueue.matchingResponse e s.port.response = true ∧ s.port.response.success = false ∧
    s.rob.live[i]? = some x ∧ x.tag = e.destination ∧ ¬ PredictedRight memory c s.rob.live i

theorem memory_tick (h : Inv s) (hrun : s.status = .running) (hs : s.tick.status = .memoryOutOfBound) :
    s.halts = false ∧ s.memoryFails = true := by
  cases status_event h hrun with
  | running hs' => rw [hs'] at hs; cases hs
  | halted hs' => rw [hs'] at hs; cases hs
  | memory _ hh hm => exact ⟨hh, hm⟩
  | fetch hs' => rw [hs'] at hs; cases hs
  | invalid hs' => rw [hs'] at hs; cases hs

/-- What a run that stops with a memory error knows in its last cycle: the failing access,
    and the sequential machine there if no older prediction is wrong. -/
theorem fault_cycle (h : IsRun tr) (hs : ¬ SelfModifying (tr 0).memory.bytes) {n : Nat}
    (hrun : (tr n).status = .running) (hstop : (tr (n + 1)).status = .memoryOutOfBound) :
    (tr n).flush = false ∧ ∃ e rest i x, (tr n).lsq.queue = e :: rest ∧
      LoadStoreQueue.matchingResponse e (tr n).port.response = true ∧ (tr n).port.response.success = false ∧
      (tr n).rob.live[i]? = some x ∧ x.tag = e.destination ∧
      (PredictedRight (tr 0).memory.bytes (retired tr n) (tr n).rob.live i →
        ∃ m, run (tr 0).memory.bytes (retired tr n + i) = some m ∧ m.step = .memoryOutOfBounds) := by
  have hi := h.inv n
  rw [h.step] at hstop
  obtain ⟨-, hfails⟩ := memory_tick hi hrun hstop
  obtain ⟨hfl, e, rest, hq, hm, hf⟩ := memoryFails_head hi hfails
  have he : (tr n).lsq.queue.head? = some e := by rw [hq]; rfl
  obtain ⟨x, hx, hxt, -⟩ := hi.queued_entry (head_mem he)
  obtain ⟨i, hix⟩ := List.getElem?_of_mem hx
  refine ⟨hfl, e, rest, i, x, hq, hm, hf, hix, hxt, fun hpred => ?_⟩
  obtain ⟨hsim, hmem⟩ := follows h hs n
  have hsim := hsim (by simp [hrun])
  obtain ⟨m, hp⟩ := access_onPath hi hsim (stream_running h hrun).1 he hix hxt hpred (Nat.le_refl i) hix
  exact ⟨m, hp.step, fault_onPath hi hsim (memoryView h hs hrun hsim hmem) hq hm hf hp hxt⟩

end Core

namespace Cpu

open TomasuloCpu.Core

/-! ## The path of a fault -/

/-- Four dependent `addi` compute the target 24 of a `jalr`, which is predicted to fall
    through into `lw x2, -1(x0)`; at 24 is HALT. -/
def wrongPathImage : Istream :=
  { text := "@0 93 00 80 01 93 80 00 00 93 80 00 00 93 80 00 00 67 80 00 00 03 21 f0 ff 13 05 f0 0f".toList }

/-- The sequential run halts, and the machine stops with the error of the load it never
    gets to. -/
theorem wrong_path_load_faults :
    ((new fun _ => baseOrders).load wrongPathImage).1.ok = true ∧
      ¬ SelfModifying ((new fun _ => baseOrders).load wrongPathImage).2.memoryUnit.memory.bytes ∧
      (((new fun _ => baseOrders).load wrongPathImage).2.cycles 11).status = .memoryOutOfBound ∧
      ¬ ∃ k m, Rv32i.run ((new fun _ => baseOrders).load wrongPathImage).2.memoryUnit.memory.bytes k = some m ∧
        m.step = .memoryOutOfBounds := by
  obtain ⟨hok, hstop, hcode, haccess⟩ : (MemoryImage.load wrongPathImage).1.ok = true ∧
      ((loaded wrongPathImage).after 11).status = .memoryOutOfBound ∧
      everyStep (loaded wrongPathImage).memory.bytes 6 (codeBelow 28) = true ∧
      everyStep (loaded wrongPathImage).memory.bytes 6
        (fun m => !(m.instruction.op.isMemory && !m.inBounds m.instruction)) = true := by decide +kernel
  rw [load_result, load_memory, cycles_status, history_eq]
  refine ⟨hok, not_selfModifying hcode, hstop, ?_⟩
  · rintro ⟨k, m, hm, hfault⟩
    obtain ⟨hmem, hbounds⟩ := Machine.step_outOfBounds.mp hfault
    have := everyStep_spec haccess hm
    rw [hmem, hbounds] at this
    cases this

/-- If no cycle sees a failed response behind a wrong prediction, the sequential run of a
    machine that stops with a memory error faults too. -/
theorem memory_fault_on_path (cpu : Cpu) (input : Istream)
    (hs : ¬ SelfModifying (cpu.load input).2.memoryUnit.memory.bytes) (n : Nat)
    (hpred : ∀ k < n, (cpu.history input k).status = .running →
      ¬ FaultsOnWrongPath (cpu.load input).2.memoryUnit.memory.bytes (retired (cpu.history input) k)
        (cpu.history input k))
    (hstop : ((cpu.load input).2.cycles n).status = .memoryOutOfBound) :
    ∃ k m, Rv32i.run (cpu.load input).2.memoryUnit.memory.bytes k = some m ∧ m.step = .memoryOutOfBounds := by
  have h := history_isRun cpu input
  have hstop : (cpu.history input n).status = .memoryOutOfBound := hstop
  obtain ⟨k, hk, hrun, htr⟩ := h.stop (n := n) (by simp [hstop]) (by simp [hstop])
  rw [htr] at hstop
  obtain ⟨hfl, e, rest, i, x, hq, hm, hf, hx, hxt, hpath⟩ := fault_cycle h hs hrun hstop
  obtain ⟨m, hrun', hfault⟩ := hpath (by
    by_contra hno
    exact hpred k hk hrun ⟨hfl, e, rest, i, x, hq, hm, hf, hx, hxt, hno⟩)
  exact ⟨_, m, hrun', hfault⟩

/-- The image of `wrongPathImage`, but the target of the `jalr` is the `lw` behind it. -/
def rightPathImage : Istream :=
  { text := "@0 93 00 40 01 93 80 00 00 93 80 00 00 93 80 00 00 67 80 00 00 03 21 f0 ff".toList }

/-- The response to the `lw` is seen with the `jalr` in front of it still unresolved. -/
theorem memory_fault_on_path_sample :
    ∃ k m, Rv32i.run ((new fun _ => baseOrders).load rightPathImage).2.memoryUnit.memory.bytes k = some m ∧
      m.step = .memoryOutOfBounds := by
  have heq : (new fun _ => baseOrders).history rightPathImage = (loaded rightPathImage).after :=
    funext fun n => history_eq _ _ n
  obtain ⟨hcode, hstop, hpred⟩ : everyStep (loaded rightPathImage).memory.bytes 6 (codeBelow 24) = true ∧
      ((loaded rightPathImage).after 11).status = .memoryOutOfBound ∧
      ∀ k < 11, goesAsPredicted (loaded rightPathImage).memory.bytes (retired (loaded rightPathImage).after k)
        ((loaded rightPathImage).after k).rob.live = true := by
    decide +kernel
  refine memory_fault_on_path (new fun _ => baseOrders) rightPathImage (not_selfModifying hcode) 11
    (fun k hk _ => ?_) ?_
  · rintro ⟨-, e, rest, i, x, -, -, -, -, -, hno⟩
    rw [heq] at hno
    exact hno (predictedRight_of_goes (hpred k hk) i)
  · rw [cycles_status, heq]
    exact hstop

end Cpu

end TomasuloCpu
