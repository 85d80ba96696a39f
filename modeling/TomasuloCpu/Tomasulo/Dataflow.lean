/-
  TomasuloCpu.Tomasulo.Dataflow — what an instruction computes with, cycles before it commits.

  An instruction executes while older ones wait and the registers are those of an earlier
  step. If it commits as step `r` of the sequential run, it was on the path of that run ever
  since its issue (`onPath_before`), so whatever it handed on in between is step `r`'s: the
  word it was decoded from, the packet it gave the integer unit, its memory request and what
  it put on the bus (`commits_sequential_step`).
-/
import TomasuloCpu.Tomasulo.ExactlyOnce
import TomasuloCpu.Tomasulo.Refinement

namespace TomasuloCpu

open Keyed Rv32i

/-! ## What a step hands on -/

namespace Rv32i.Machine

/-- The packet of the step, with both operands read. -/
def packet (m : Machine) (tag : RobTag) : Execute :=
  { op := m.instruction.op
    operand1 := FunctionalUnit.selected m.instruction.op.lhsSource m.pc (m.read m.instruction.rs1) m.instruction.immediate
    operand2 := FunctionalUnit.selected m.instruction.op.rhsSource m.pc (m.read m.instruction.rs2) m.instruction.immediate
    immediate := m.instruction.immediate, pc := m.pc, tag := tag, valid := true }

/-- The memory request of the step. -/
def request (m : Machine) (tag : RobTag) : DataMemoryRequest :=
  { type := if m.instruction.op.isStore then .store else .load
    width := LoadStoreQueue.memoryWidth m.instruction.op
    address := m.address m.instruction
    value := if m.instruction.op.isStore then m.read m.instruction.rs2 else 0
    tag := tag, valid := true }

end Rv32i.Machine

namespace Core

variable {s : Core} {tr : Nat → Core} {memory : Nat → Byte} {c i j n k id : Nat} {m : Machine} {x : RobEntry}

/-! ## On the path ever since the issue -/

/-- An instruction on the path was on it in every earlier cycle, as the same step. -/
theorem onPath_before (h : IsRun tr) (hs : ¬ ModifiesWithin ReorderBuffer.kCapacity (tr 0).memory.bytes)
    (hrun : (tr n).status = .running) (hid : id ∈ liveIds tr n) (hj : id < j) (hle : j ≤ n)
    (hp : OnPath (tr 0).memory.bytes (retired tr n) (tr n).rob.live i x m) (ht : x.tag = tagOf tr id) :
    ∃ i' x', OnPath (tr 0).memory.bytes (retired tr j) (tr j).rob.live i' x' m ∧ x'.tag = tagOf tr id ∧
      retired tr j + i' = retired tr n + i := by
  induction hle generalizing i x with
  | refl => exact ⟨i, x, hp, ht, rfl⟩
  | @step n hle ih =>
    have hrunn := h.running_of_succ hrun
    have hh : (tr n).halts = false := by
      by_contra hc
      rw [h.step, halted_tick (h.inv n) hrunn (by simpa using hc)] at hrun
      cases hrun
    have hidn : id ∈ liveIds tr n := ids_of_le hid (Nat.lt_of_lt_of_le hj hle) (Nat.le_succ n)
    obtain ⟨y, hy, hyt⟩ := entry_of_id h hidn
    rw [h.step, retired, retires_running hrunn hh] at hp
    have hold := onPath_old (h.inv n) ((follows_far h hs n).1 (by simp [hrunn])) hrunn hp hy (ht.trans hyt.symm)
    obtain ⟨i', x', hp', ht', heq⟩ := ih hrunn hidn hold hyt
    refine ⟨i', x', hp', ht', ?_⟩
    rw [heq, retired, retires_running hrunn hh]
    omega

theorem live_le (hc : Commits tr n id) (hid : id ∈ liveIds tr k) : k ≤ n := by
  by_contra hlt
  exact not_mem_after hc.gone (Nat.lt_succ_of_lt (ids_lt hc.mem)) (Nat.lt_of_not_le hlt) hid

/-- The instruction that commits is the one of the next step. -/
theorem commits_onPath (h : IsRun tr) (hs : ¬ ModifiesWithin ReorderBuffer.kCapacity (tr 0).memory.bytes)
    (hc : Commits tr n id) : ∃ x m, OnPath (tr 0).memory.bytes (retired tr n) (tr n).rob.live 0 x m ∧
      x.tag = tagOf tr id := by
  obtain ⟨x, hx, -⟩ := (committing_iff (h.inv n).rob).mp hc.committing
  obtain ⟨id', hid', ht⟩ := head_id h hx
  obtain rfl : id = id' := Option.some.inj (hc.head.symm.trans hid')
  obtain ⟨m, hp⟩ := ((follows_far h hs n).1 (by simp [hc.running])).head (by rw [← List.head?_eq_getElem?]; exact hx)
  exact ⟨x, m, hp, ht.symm⟩

/-! ## What is handed on -/

/-- An instruction that leaves the station on the path takes its step's operands with it. -/
theorem departing_packet (hi : Inv s) (h : Sim memory c s) {e : RsEntry} (he : s.departing = some e)
    (hp : OnPath memory c s.rob.live i x m) (ht : x.tag = e.destination) :
    ReservationStation.makeExecute e = m.packet e.destination := by
  obtain ⟨hmem, hl, hr, -⟩ := departing_mem he
  obtain ⟨y, hy, hyt, hyop, -⟩ := hi.station_entry hmem
  have hok := h.station e hmem i x m hp ht
  have hop : e.op = m.instruction.op := by
    rw [← hyop, inj hi.nodup hy hp.mem (hyt.trans ht.symm), (h.fetched i x m hp).op]
  rw [ReservationStation.makeExecute, Machine.packet, denotes_ready hok.lhs hl, denotes_ready hok.rhs hr, hop,
    hok.immediate, hok.pc]

/-- The request of an access on the path is its step's. -/
theorem sent_request (hi : Inv s) (h : Sim memory c s) {r : DataMemoryRequest} (htk : s.taken = some r)
    (hp : OnPath memory c s.rob.live i x m) (ht : x.tag = r.tag) : r = m.request r.tag := by
  obtain ⟨-, -, -, -, -, e, rest, hq, hsend, rfl⟩ := taken_some hi htk
  have he : e ∈ s.lsq.queue := by rw [hq]; exact List.mem_cons_self
  have hdest : x.tag = e.destination := ht
  obtain ⟨-, haddr, -, -, hdata⟩ := maySend_ready hsend
  have hacc := hi.access e he
  have hok := h.queued e he i x m hp hdest
  have hop := op_of_tag hi h he hp hdest
  have hbase := denotes_ready hok.base (by rw [← hacc.address, haddr])
  have haddress : e.address = m.address m.instruction := by
    rw [hacc.address_eq haddr, hbase, hok.immediate]
    rfl
  have htype : e.type = if m.instruction.op.isStore then .store else .load := by rw [← hop, hacc.type]
  have hvalue : (if e.type = .store then e.storeData.value else 0) =
      if m.instruction.op.isStore then m.read m.instruction.rs2 else 0 := by
    by_cases hst : m.instruction.op.isStore = true
    · have hty : e.type = .store := by rw [htype, if_pos hst]
      rw [if_pos hty, if_pos hst, denotes_ready (hok.data hty) (hdata hty).1]
    · have hty : e.type = .load := by rw [htype, if_neg hst]
      rw [if_neg (by simp [hty]), if_neg hst]
  rw [LoadStoreQueue.makeMemoryRequest, Machine.request, hvalue, haddress, htype, hop]

/-- A committed instruction, in a cycle it was live in. -/
theorem committed_onPath (h : IsRun tr) (hs : ¬ ModifiesWithin ReorderBuffer.kCapacity (tr 0).memory.bytes)
    (hc : Commits tr n id) (hm : run (tr 0).memory.bytes (retired tr n) = some m) (hlt : id < k) (hle : k ≤ n) :
    (tr k).status = .running ∧ Sim (tr 0).memory.bytes (retired tr k) (tr k) ∧
      ∃ i x, OnPath (tr 0).memory.bytes (retired tr k) (tr k).rob.live i x m ∧ x.tag = tagOf tr id := by
  obtain ⟨x, y, hp, ht⟩ := commits_onPath h hs hc
  obtain rfl : y = m := Option.some.inj (hp.step.symm.trans hm)
  obtain ⟨i, x', hp', ht', -⟩ := onPath_before h hs hc.running hc.mem hlt hle hp ht
  have hrun : (tr k).status = .running := by
    by_contra hstop
    exact hstop (h.frozen hstop hle ▸ hc.running)
  exact ⟨hrun, (follows_far h hs k).1 (by simp [hrun]), i, x', hp', ht'⟩

/-- It was issued as the instruction of its step. -/
theorem issued_step (h : IsRun tr) (hs : ¬ ModifiesWithin ReorderBuffer.kCapacity (tr 0).memory.bytes)
    (hc : Commits tr n id) (hm : run (tr 0).memory.bytes (retired tr n) = some m) :
    (tr id).pc = m.pc ∧ ∃ w, (tr id).memory.readWord (tr id).pc = some w ∧ Decoder.decode w = m.instruction := by
  have hlt := ids_lt hc.mem
  have hid : id ∈ liveIds tr (id + 1) := live_between hc (Nat.lt_succ_self id) hlt
  obtain ⟨hrun, hissue, -⟩ := fresh_entry h hid
  obtain ⟨hrun', -, i, x, hp, ht⟩ := committed_onPath h hs hc hm (Nat.lt_succ_self id) hlt
  have hh : (tr id).halts = false := by
    by_contra hc
    rw [h.step, halted_tick (h.inv id) hrun (by simpa using hc)] at hrun'
    cases hrun'
  obtain ⟨hsim, hmem⟩ := follows_far h hs id
  have hsim := hsim (by simp [hrun])
  obtain ⟨d, hd⟩ := Option.isSome_iff_exists.mp hissue
  rw [h.step, retired, retires_running hrun hh] at hp
  obtain ⟨-, hf⟩ := onPath_new (h.inv id) hsim hrun hp hd ht
  obtain ⟨w, hw, hdec⟩ := (issuing_some hd).word
  refine ⟨hf.pc, w, hw, ?_⟩
  rw [← hdec]
  exact issued_instruction (memoryView_far h hs hrun hsim hmem) hd hf

end Core

namespace Cpu

open TomasuloCpu.Core

/-- An instruction that commits as step `r` of the sequential run is that step from its issue
    on: the word it was fetched from decodes to the step's instruction, it leaves the station
    with the values the step reads, its request is the step's access, and what it puts on the
    bus is the step's result and, for a branch or jump, the next pc. It does so while older
    steps are still under way, and for programs that store into later code too. -/
theorem commits_sequential_step (cpu : Cpu) (input : Istream)
    (hs : ¬ ModifiesWithin ReorderBuffer.kCapacity (cpu.load input).2.memoryUnit.memory.bytes) {n id : Nat}
    (hc : Commits (cpu.history input) n id) :
    ∃ m, Rv32i.run (cpu.load input).2.memoryUnit.memory.bytes (retired (cpu.history input) n) = some m ∧
      (cpu.history input id).pc = m.pc ∧
      (∃ w, (cpu.history input id).memory.readWord m.pc = some w ∧ Decoder.decode w = m.instruction) ∧
      (∀ k, Dispatches (cpu.history input) k id →
        (cpu.history input k).departing.map ReservationStation.makeExecute =
          some (m.packet (tagOf (cpu.history input) id))) ∧
      (∀ k r, Sends (cpu.history input) k id r → r = m.request (tagOf (cpu.history input) id)) ∧
      ∀ k, Broadcasts (cpu.history input) k id →
        (cpu.history input k).completion.result = m.result m.instruction ∧
        (cpu.history input k).completion.hasControlResult = (m.instruction.op.isBranch || m.instruction.op.isJump) ∧
        ∃ m', m.next = some m' ∧
          ((cpu.history input k).completion.hasControlResult = true →
            (cpu.history input k).completion.actualNextPc = m'.pc) := by
  have h := history_isRun cpu input
  obtain ⟨x, m, hp, -⟩ := commits_onPath h hs hc
  have hm : Rv32i.run (cpu.load input).2.memoryUnit.memory.bytes (retired (cpu.history input) n) = some m := hp.step
  obtain ⟨hpc, hword⟩ := issued_step h hs hc hm
  refine ⟨m, hm, hpc, hpc ▸ hword, fun k hd => ?_, fun k r hr => ?_, fun k hb => ?_⟩
  · obtain ⟨-, hsim, i, y, hpy, hty⟩ := committed_onPath h hs hc hm (ids_lt hd.live) (live_le hc hd.live)
    obtain ⟨e, he, hte⟩ := hd.departing
    rw [he, Option.map_some, departing_packet (h.inv k) hsim he hpy (hty.trans hte.symm), hte]
  · obtain ⟨-, hsim, i, y, hpy, hty⟩ := committed_onPath h hs hc hm (ids_lt hr.live) (live_le hc hr.live)
    rw [← hr.tag]
    exact sent_request (h.inv k) hsim hr.taken hpy (hty.trans hr.tag.symm)
  · obtain ⟨-, hsim, i, y, hpy, hty⟩ := committed_onPath h hs hc hm (ids_lt hb.live) (live_le hc hb.live)
    obtain ⟨hnext, hcontrol, hresult⟩ := completion_computes (h.inv k) hsim hb.valid hpy (hty.trans hb.tag.symm)
    exact ⟨hresult, hcontrol, hnext⟩

theorem commits_sequential_step_sample :
    ∃ id k m, Rv32i.run ((new fun _ => baseOrders).load sampleImage).2.memoryUnit.memory.bytes 0 = some m ∧
      ((new fun _ => baseOrders).history sampleImage k).departing.map ReservationStation.makeExecute =
        some (m.packet (tagOf ((new fun _ => baseOrders).history sampleImage) id)) := by
  obtain ⟨id, hcommits, hop⟩ := addi_commits
  obtain ⟨m, hm, -, -, hpacket, -⟩ := commits_sequential_step (new fun _ => baseOrders) sampleImage
    (not_modifiesWithin sample_code _) hcommits
  obtain ⟨k, -, -, -, -, hd, -⟩ :=
    integer_way (history_isRun (new fun _ => baseOrders) sampleImage) hcommits (by rw [hop]; rfl)
  have hfirst : retired ((new fun _ => baseOrders).history sampleImage) 3 = 0 := by
    rw [← committedCount_toNat (history_isRun _ _) (by decide), history_eq]
    decide +kernel
  rw [hfirst] at hm
  exact ⟨id, k, m, hm, hpacket k hd⟩

end Cpu

end TomasuloCpu
