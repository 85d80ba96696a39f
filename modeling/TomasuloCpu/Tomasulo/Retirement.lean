/-
  TomasuloCpu.Tomasulo.Retirement — runs against the sequential run.

  `retired` counts the committed instructions, HALT apart; it is `committed_count` before
  the wrap. A store writes two cycles before it commits, so in between the memory is one
  step ahead of the registers (`Latched`). `follows` carries both through a run: `Sim` with
  the sequential run after `retired` steps, and the memory after as many or one more.
-/
import TomasuloCpu.Tomasulo.Lockstep
import TomasuloCpu.Tomasulo.MemoryOrder
import TomasuloCpu.Tomasulo.StoreCommit

namespace TomasuloCpu

open Keyed Rv32i

namespace Core

variable {s : Core} {tr : Nat → Core} {memory : Nat → Byte} {m : Machine}

/-! ## Counting commits -/

/-- The instructions the cycle commits, HALT apart. -/
def retires (s : Core) : Nat := if s.status = .running ∧ s.halts = false then s.shift else 0

/-- The instructions committed before cycle `n`, HALT apart. -/
def retired (tr : Nat → Core) : Nat → Nat
  | 0 => 0
  | n + 1 => retired tr n + (tr n).retires

theorem retires_le_one (s : Core) : s.retires ≤ 1 := by
  unfold retires shift
  split
  · split <;> omega
  · omega

theorem retires_stopped (h : s.status ≠ .running) : s.retires = 0 := if_neg fun hc => h hc.1

theorem retires_running (hrun : s.status = .running) (hh : s.halts = false) : s.retires = s.shift := if_pos ⟨hrun, hh⟩

theorem retires_halts (hh : s.halts = true) : s.retires = 0 := if_neg fun hc => by rw [hh] at hc; cases hc.2

theorem retires_idle (hc : s.committing = false) : s.retires = 0 := by
  unfold retires shift
  rw [hc]
  exact ite_self 0

theorem retired_le (tr : Nat → Core) (n : Nat) : retired tr n ≤ n := by
  induction n with
  | zero => exact Nat.le_refl 0
  | succ n ih =>
    have := retires_le_one (tr n)
    rw [retired]
    omega

theorem retired_frozen (h : IsRun tr) {m n : Nat} (hs : (tr m).status ≠ .running) (hle : m ≤ n) :
    retired tr n = retired tr m := by
  induction hle with
  | refl => rfl
  | step hle ih => rw [retired, ih, retires_stopped (by rw [h.frozen hs hle]; exact hs), Nat.add_zero]

theorem committedCount_tick (h : Inv s) : s.tick.committedCount = s.committedCount + BitVec.ofNat 64 s.retires := by
  by_cases hrun : s.status = .running
  · have htick : s.tick.committedCount = s.nextCommittedCount s.outs := by rw [tick_eq hrun]
    rw [htick, nextCommittedCount]
    show (if s.committing && s.commit.entry.op != .halt then _ else _) = _
    by_cases hc : s.committing = true
    · obtain ⟨x, hx, hr⟩ := (committing_iff h.rob).mp hc
      obtain ⟨hentry, -, -⟩ := commit_entry h.rob hx hr
      by_cases hop : x.op = .halt
      · have hh : s.halts = true := by rw [halts_eq h hx hr, hop]; rfl
        rw [hentry, retires_halts hh, if_neg (by simp [hop])]
        exact (BitVec.add_zero _).symm
      · have hh : s.halts = false := by rw [halts_eq h hx hr]; simpa using hop
        rw [hentry, retires_running hrun hh, shift, if_pos hc, if_pos (by simp [hc, hop])]
        rfl
    · have hc : s.committing = false := by simpa using hc
      rw [retires_idle hc, if_neg (by simp [hc])]
      exact (BitVec.add_zero _).symm
  · rw [tick_of_stopped hrun, retires_stopped hrun]
    exact (BitVec.add_zero _).symm

theorem committedCount_eq (h : IsRun tr) (n : Nat) : (tr n).committedCount = BitVec.ofNat 64 (retired tr n) := by
  induction n with
  | zero =>
    obtain ⟨counters, input, h0⟩ := h.start
    rw [h0]
    rfl
  | succ n ih => rw [h.step, committedCount_tick (h.inv n), ih, retired, BitVec.ofNat_add]

theorem committedCount_toNat (h : IsRun tr) {n : Nat} (hn : n < 2 ^ 64) :
    (tr n).committedCount.toNat = retired tr n := by
  have := retired_le tr n
  rw [committedCount_eq h, BitVec.toNat_ofNat]
  omega

/-! ## A store that has written -/

/-- The oldest instruction in flight is a store that has written and not committed. -/
def Latched (tr : Nat → Core) (n : Nat) : Prop := ∃ id k, (liveIds tr n).head? = some id ∧ k < n ∧ Writes tr k id

/-- The store that has written is the head, in the two cycles before it commits. -/
theorem Latched.head (h : IsRun tr) {n : Nat} (hl : Latched tr n) :
    ∃ x, (tr n).rob.live.head? = some x ∧ x.op.isStore = true := by
  obtain ⟨id, k, hid, hk, hw⟩ := hl
  obtain ⟨-, hc', hcommits⟩ := hw.commits h
  obtain ⟨x, -, -, hx, hr, hst, -⟩ := memory_written (h.inv k) hw.written
  obtain ⟨hrun, -⟩ := storeWrite_spec hw.written
  obtain ⟨hrun', hhead, hfin, -⟩ := store_answered (h.inv k) hw.written hx
  rw [← h.step] at hrun' hhead
  have hle : n ≤ k + 2 := by
    by_contra hc
    exact not_mem_after hcommits.gone (Nat.lt_succ_of_lt (ids_lt hcommits.mem)) (by omega) (List.mem_of_mem_head? hid)
  have hn : n = k + 1 ∨ n = k + 2 := by omega
  rcases hn with rfl | rfl
  · exact ⟨_, hhead, by rw [finish_op, hst]⟩
  · obtain ⟨-, hhead'⟩ := head_kept (h.inv (k + 1)) hrun' hhead hfin
    rw [← h.step] at hhead'
    exact ⟨_, hhead', by rw [finish_op, finish_op, hst]⟩

theorem latched_of_writes (h : IsRun tr) {n id : Nat} (hw : Writes tr n id) :
    ¬ Latched tr n ∧ Latched tr (n + 1) := by
  obtain ⟨id', hw', hid⟩ := writes_head h hw.written
  obtain rfl := hw.unique_id h hw'
  obtain ⟨x, -, -, hx, hr, -⟩ := memory_written (h.inv n) hw.written
  obtain ⟨hrun, -⟩ := storeWrite_spec hw.written
  refine ⟨?_, id, n, by rw [head_id_kept h hrun hx hr, hid], Nat.lt_succ_self n, hw⟩
  rintro ⟨id', k, hid', hk, hwk⟩
  obtain rfl := Option.some.inj (hid.symm.trans hid')
  exact absurd (hwk.unique h hw) (Nat.ne_of_lt hk)

/-- A commit ends it. -/
theorem not_latched_of_commit (h : IsRun tr) {n : Nat} (hc : (tr n).committing = true) : ¬ Latched tr (n + 1) := by
  rintro ⟨id, k, hid, hk, hw⟩
  obtain ⟨hck, hck', hcommits⟩ := hw.commits h
  have hne : n ≠ k ∧ n ≠ k + 1 := by
    constructor
    · rintro rfl
      rw [hck] at hc
      cases hc
    · rintro rfl
      rw [hck'] at hc
      cases hc
  exact not_mem_after hcommits.gone (Nat.lt_succ_of_lt (ids_lt hcommits.mem)) (show k + 2 + 1 ≤ n + 1 by omega)
    (List.mem_of_mem_head? hid)

theorem latched_stopped {n : Nat} (hstop : (tr n).status ≠ .running) : Latched tr (n + 1) ↔ Latched tr n := by
  unfold Latched
  rw [liveIds_stopped hstop]
  constructor
  · rintro ⟨id, k, hid, hk, hw⟩
    refine ⟨id, k, hid, ?_, hw⟩
    have hne : k ≠ n := by
      rintro rfl
      exact hstop (storeWrite_spec hw.written).1
    omega
  · rintro ⟨id, k, hid, hk, hw⟩
    exact ⟨id, k, hid, by omega, hw⟩

/-- In other cycles it neither starts nor ends. -/
theorem latched_kept (h : IsRun tr) {n : Nat} (hrun : (tr n).status = .running) (hc : (tr n).committing = false)
    (hw : (tr n).written = false) : Latched tr (n + 1) ↔ Latched tr n := by
  have hlast : ∀ {id k}, k < n + 1 → Writes tr k id → k < n := by
    intro id k hk hwk
    have hne : k ≠ n := by
      rintro rfl
      have := hwk.written
      rw [hw] at this
      cases this
    omega
  cases hx : (tr n).rob.live.head? with
  | none =>
    have hl : (tr n).rob.live = [] := List.head?_eq_none_iff.mp hx
    have hids : liveIds tr n = [] := List.map_eq_nil_iff.mp (by rw [ids_tags h, hl]; rfl)
    constructor
    · rintro ⟨id, k, hid, hk, hwk⟩
      -- an instruction just issued has not written
      obtain ⟨id', hwk', hid'⟩ := writes_head h hwk.written
      obtain rfl := hwk.unique_id h hwk'
      have hlt := ids_lt (List.mem_of_mem_head? hid')
      rcases mem_ids_succ (List.mem_of_mem_head? hid) with hm | rfl
      · rw [hids] at hm
        cases hm
      · omega
    · rintro ⟨id, k, hid, -, -⟩
      rw [hids] at hid
      cases hid
  | some x =>
    have hr : x.ready = false := by
      by_contra hr
      have := (committing_iff (h.inv n).rob).mpr ⟨x, hx, by simpa using hr⟩
      rw [hc] at this
      cases this
    unfold Latched
    rw [head_id_kept h hrun hx hr]
    constructor
    · rintro ⟨id, k, hid, hk, hwk⟩
      exact ⟨id, k, hid, hlast hk hwk, hwk⟩
    · rintro ⟨id, k, hid, hk, hwk⟩
      exact ⟨id, k, hid, by omega, hwk⟩

theorem latched_of_commit (h : IsRun tr) {n : Nat} (hrun : (tr n).status = .running) {x : RobEntry}
    (hx : (tr n).rob.live.head? = some x) (hr : x.ready = true) (hst : x.op.isStore = true) : Latched tr n := by
  obtain ⟨id, hid, -⟩ := head_id h hx
  obtain ⟨m, rfl, hw⟩ := commits_written h ⟨hrun, (committing_iff (h.inv n).rob).mpr ⟨x, hx, hr⟩, hid⟩ hx hst
  exact ⟨id, m, hid, by omega, hw⟩

/-! ## The memory -/

/-- The memory is the one after the committed steps, and after one more when the head has
    written. -/
structure MemoryFollows (memory : Nat → Byte) (tr : Nat → Core) (n : Nat) : Prop where
  settled : ¬ Latched tr n → ∃ m, run memory (retired tr n) = some m ∧ (tr n).memory.bytes = m.memory
  latched : Latched tr n → ∃ m, run memory (retired tr n + 1) = some m ∧ (tr n).memory.bytes = m.memory

/-- A head that writes makes the store of its step. -/
theorem written_step (h : Inv s) {c : Nat} (hsim : Sim memory c s) (hw : s.written = true)
    (hm : run memory c = some m) (hbytes : s.memory.bytes = m.memory) :
    ∃ m', run memory (c + 1) = some m' ∧ s.tick.memory.bytes = m'.memory := by
  obtain ⟨x, e, rest, hx, hr, hst, hop, hq, hd, hb, hsd, hin, hmem⟩ := memory_written h hw
  have he : e ∈ s.lsq.queue := by rw [hq]; exact List.mem_cons_self
  obtain ⟨y, hp⟩ := hsim.head (by rw [← List.head?_eq_getElem?]; exact hx)
  obtain rfl := Option.some.inj (hm.symm.trans hp.step)
  have hmop : e.op = m.instruction.op := by rw [← hop, (hsim.fetched 0 x m hp).op]
  have hok := hsim.queued e he 0 x m hp hd.symm
  have hty : e.type = .store := by
    rw [(h.access e he).type, ← hop, if_pos hst]
  have haddr : e.base.value + e.immediate = m.address m.instruction := by
    rw [denotes_ready hok.base hb, hok.immediate]
    rfl
  have hstore : m.instruction.op.isStore = true := by rw [← hmop, ← hop, hst]
  have hmemop : m.instruction.op.isMemory = true := by simp [Op.isMemory, hstore]
  rw [hmop, haddr, width_eq hmemop] at hin hmem
  rw [denotes_ready (hok.data hty) hsd] at hmem
  obtain ⟨m', hm'⟩ := next_of_inBounds hmemop (by rw [Machine.inBounds, decide_eq_true_eq]; exact hin)
  refine ⟨m', by rw [run_succ hm, hm'], ?_⟩
  rw [hmem, Machine.next_memory hm', if_pos hstore, hbytes]

/-- Ahead of the queue's head every access is ready, or its result is in the buffer. -/
theorem older_access (h : Inv s) {e : LsqEntry} (he : s.lsq.queue.head? = some e) {i j : Nat} {x y : RobEntry}
    (hx : s.rob.live[i]? = some x) (hxt : x.tag = e.destination) (hji : j < i) (hy : s.rob.live[j]? = some y)
    (hop : y.op.isMemory = true) :
    y.ready = true ∨ (s.lsq.loadResult.valid = true ∧ s.lsq.loadResult.tag = y.tag) := by
  have hfirst : (pending (·.tag) (fun e => e.op.isMemory && !e.ready &&
      !(s.lsq.loadResult.valid && s.lsq.loadResult.tag == e.tag)) s.rob.live).head? = some e.destination := by
    show (s.waitingAccesses.map (·.tag)).head? = _
    rw [← queue_eq_waitingAccesses h, List.head?_map, he]
    rfl
  have hyw := not_pending_before h.nodup hfirst hx hxt hji hy
  cases hr : y.ready with
  | true => exact Or.inl rfl
  | false => exact Or.inr (by simpa [hop, hr] using hyw)

/-- Older than the load at the head of the queue only the head can be a store, and it is
    ready. -/
theorem older_store_ready (h : Inv s) {e : LsqEntry} (he : s.lsq.queue.head? = some e) {i j : Nat} {x y : RobEntry}
    (hx : s.rob.live[i]? = some x) (hxt : x.tag = e.destination) (hji : j < i) (hy : s.rob.live[j]? = some y)
    (hst : y.op.isStore = true) : y.ready = true := by
  rcases older_access h he hx hxt hji hy (by simp [Op.isMemory, hst]) with hr | ⟨hv, ht⟩
  · exact hr
  · obtain ⟨z, hz, hzt, hzl⟩ := h.loaded hv
    rw [inj h.nodup hz (List.mem_of_getElem? hy) (hzt.trans ht), Op.isLoad_of_isStore hst] at hzl
    cases hzl

/-- A store on the path in front of the queue's head is the ROB head and has written. -/
theorem older_store_latched (h : IsRun tr) {n : Nat} (hrun : (tr n).status = .running)
    (hsim : Sim memory (retired tr n) (tr n)) {e : LsqEntry} (he : (tr n).lsq.queue.head? = some e) {i j : Nat}
    {x y : RobEntry} {m z : Machine} (hp : OnPath memory (retired tr n) (tr n).rob.live i x m)
    (ht : x.tag = e.destination) (hj : j < i) (hpy : OnPath memory (retired tr n) (tr n).rob.live j y z)
    (hst : z.instruction.op.isStore = true) : j = 0 ∧ Latched tr n := by
  have hi := h.inv n
  have hst : y.op.isStore = true := by rw [(hsim.fetched j y z hpy).op, hst]
  have hr := older_store_ready hi he hp.entry ht hj hpy.entry hst
  have hj0 : j = 0 := by
    by_contra hne
    obtain ⟨k, rfl⟩ := Nat.exists_eq_succ_of_ne_zero hne
    have htail : y ∈ (tr n).rob.live.tail := by
      refine List.mem_of_getElem? (i := k) ?_
      rw [List.getElem?_tail]
      exact hpy.entry
    rw [hi.storeHead y htail hst] at hr
    cases hr
  refine ⟨hj0, latched_of_commit h hrun (x := y) ?_ hr hst⟩
  rw [List.head?_eq_getElem?, ← hj0]
  exact hpy.entry

/-- Behind a store that has written, the load at the queue's head is not the ROB head. -/
theorem load_behind_latched (h : IsRun tr) {n : Nat} (hl : Latched tr n) {e : LsqEntry}
    (he : (tr n).lsq.queue.head? = some e) (hty : e.type = .load) {i : Nat} {x : RobEntry} {m : Machine}
    (hp : OnPath memory (retired tr n) (tr n).rob.live i x m) (ht : x.tag = e.destination) : i ≠ 0 := by
  have hi := h.inv n
  rintro rfl
  obtain ⟨z, hz, hst⟩ := hl.head h
  obtain ⟨w, hw, hwt, hwop, -⟩ := hi.queued_entry (head_mem he)
  rw [List.head?_eq_getElem?, hp.entry, Option.some.injEq] at hz
  rw [← hz, inj hi.nodup hp.mem hw (ht.trans hwt.symm), hwop, (hi.access e (head_mem he)).load_op hty] at hst
  cases hst

/-- What the memory shows: the word fetched on the path is the step's, since no step in
    the reorder buffer stores into it, and a load at the head of the queue sees every older
    store. -/
theorem memoryView_far (h : IsRun tr) (hs : ¬ ModifiesWithin ReorderBuffer.kCapacity memory) {n : Nat}
    (hrun : (tr n).status = .running) (hsim : Sim memory (retired tr n) (tr n)) (hm : MemoryFollows memory tr n) :
    MemoryView memory (retired tr n) (tr n) := by
  constructor
  · intro m w hf hw
    have hroom : (tr n).rob.live.length ≤ ReorderBuffer.kCapacity := by
      rw [ReorderBuffer.length_live]
      exact (h.inv n).rob.ring.count_le
    rw [MemoryImage.readWord_spec] at hw
    split at hw
    · rename_i hb
      rw [MemoryImage.inBounds_iff (by decide), hf.pc] at hb
      rw [← Option.some.inj hw, hf.pc]
      by_cases hl : Latched tr n
      · obtain ⟨y, hy, hbytes⟩ := hm.latched hl
        obtain ⟨x, hx, -⟩ := hl.head h
        have hlen : 1 ≤ (tr n).rob.live.length := List.length_pos_iff.mpr (live_ne_nil hx)
        rw [hbytes]
        exact fetch_earlier hs (by omega) (by omega) hy hf.step hb
      · obtain ⟨y, hy, hbytes⟩ := hm.settled hl
        rw [hbytes]
        exact fetch_earlier hs (Nat.le_add_right _ _) (Nat.add_le_add_left hroom _) hy hf.step hb
    · cases hw
  · intro e i x m he hty hp ht
    have hframe : ∀ k y, k ≤ i → (Latched tr n → 1 ≤ k) → run memory (retired tr n + k) = some y →
        m.memory = y.memory := by
      intro k y hk hpos hy
      refine memory_frame (Nat.add_le_add_left hk _) hy hp.step fun j v hj hlt hv => ?_
      obtain ⟨j, rfl⟩ := Nat.exists_eq_add_of_le (show retired tr n ≤ j by omega)
      obtain ⟨a, b, hpj⟩ := hp.older (show j ≤ i by omega)
      obtain rfl := Option.some.inj (hv.symm.trans hpj.step)
      by_contra hst
      obtain ⟨rfl, hl⟩ := older_store_latched h hrun hsim he hp ht (by omega) hpj (by simpa using hst)
      have := hpos hl
      omega
    by_cases hl : Latched tr n
    · obtain ⟨y, hy, hbytes⟩ := hm.latched hl
      have hi0 := load_behind_latched h hl he hty hp ht
      rw [hbytes]
      exact (hframe 1 y (by omega) (fun _ => Nat.le_refl 1) hy).symm
    · obtain ⟨y, hy, hbytes⟩ := hm.settled hl
      rw [hbytes]
      exact (hframe 0 y (Nat.zero_le i) (fun hc => absurd hc hl) hy).symm

theorem memoryView (h : IsRun tr) (hs : ¬ SelfModifying memory) {n : Nat} (hrun : (tr n).status = .running)
    (hsim : Sim memory (retired tr n) (tr n)) (hm : MemoryFollows memory tr n) :
    MemoryView memory (retired tr n) (tr n) :=
  memoryView_far h (not_modifiesWithin hs _) hrun hsim hm

/-- A head that writes is not ready, so it does not commit. -/
theorem written_waiting (h : Inv s) (hw : s.written = true) : s.committing = false := by
  obtain ⟨x, -, -, hx, hr, -⟩ := memory_written h hw
  exact (waiting_head h hx hr).1

theorem memory_step (h : IsRun tr) {n : Nat} (hrun : (tr n).status = .running)
    (hsim : Sim memory (retired tr n) (tr n)) (hm : MemoryFollows memory tr n) : MemoryFollows memory tr (n + 1) := by
  have hi := h.inv n
  by_cases hw : (tr n).written = true
  · obtain ⟨id, hwr, -⟩ := writes_head h hw
    obtain ⟨hno, hl⟩ := latched_of_writes h hwr
    obtain ⟨m, hm', hbytes⟩ := hm.settled hno
    have hz := retires_idle (written_waiting hi hw)
    refine ⟨fun hc => absurd hl hc, fun _ => ?_⟩
    rw [retired, hz, h.step]
    exact written_step hi hsim hw hm' hbytes
  · have hmem : (tr (n + 1)).memory = (tr n).memory := by rw [h.step, tick_memory, if_neg hw]
    by_cases hc : (tr n).committing = true
    · refine ⟨fun _ => ?_, fun hl => absurd hl (not_latched_of_commit h hc)⟩
      rw [hmem]
      obtain ⟨x, hx, hr⟩ := (committing_iff hi.rob).mp hc
      have hx0 : (tr n).rob.live[0]? = some x := by rw [← List.head?_eq_getElem?]; exact hx
      by_cases hh : (tr n).halts = true
      · have hno : ¬ Latched tr n := by
          intro hl
          obtain ⟨y, hy, hst⟩ := hl.head h
          obtain ⟨z, hz, -, hop⟩ := halts_head hi hh
          obtain rfl := Option.some.inj (hy.symm.trans hz)
          exact Op.ne_halt_of_isStore hst hop
        rw [retired, retires_halts hh]
        exact hm.settled hno
      · have hh : (tr n).halts = false := by simpa using hh
        rw [retired, retires_running hrun hh, shift, if_pos hc]
        by_cases hl : Latched tr n
        · exact hm.latched hl
        · obtain ⟨m, hm', hbytes⟩ := hm.settled hl
          obtain ⟨y, hp⟩ := hsim.head hx0
          obtain rfl := Option.some.inj (hm'.symm.trans hp.step)
          have hop : x.op ≠ .halt := by
            intro hop
            rw [halts_eq hi hx hr, hop] at hh
            cases hh
          obtain ⟨m', hm'', -⟩ := (hsim.done 0 x m hp hr hop).next
          have hst : m.instruction.op.isStore = false := by
            by_contra hst
            refine hl (latched_of_commit h hrun hx hr ?_)
            rw [(hsim.fetched 0 x m hp).op]
            simpa using hst
          refine ⟨m', by rw [run_succ hm', hm''], ?_⟩
          rw [hbytes, Machine.next_memory hm'', if_neg (by simp [hst])]
    · have hc : (tr n).committing = false := by simpa using hc
      have hz := retires_idle hc
      have hkept := latched_kept h hrun hc (by simpa using hw)
      refine ⟨fun hno => ?_, fun hl => ?_⟩
      · rw [retired, hz, hmem]
        exact hm.settled fun hl => hno (hkept.mpr hl)
      · rw [retired, hz, hmem]
        exact hm.latched (hkept.mp hl)

theorem memory_stopped (h : IsRun tr) {n : Nat} (hstop : (tr n).status ≠ .running)
    (hm : MemoryFollows memory tr n) : MemoryFollows memory tr (n + 1) := by
  have hl := latched_stopped hstop
  have hmem : (tr (n + 1)).memory = (tr n).memory := by rw [h.step, tick_of_stopped hstop]
  refine ⟨fun hno => ?_, fun hl' => ?_⟩
  · rw [retired, retires_stopped hstop, hmem]
    exact hm.settled fun hc => hno (hl.mpr hc)
  · rw [retired, retires_stopped hstop, hmem]
    exact hm.latched (hl.mp hl')

/-- The state after each cycle follows the sequential run from the loaded memory; a
    halted one as far as the run shows. -/
theorem follows_far (h : IsRun tr) (hs : ¬ ModifiesWithin ReorderBuffer.kCapacity (tr 0).memory.bytes) (n : Nat) :
    ((tr n).status ≠ .halted → Sim (tr 0).memory.bytes (retired tr n) (tr n)) ∧
      MemoryFollows (tr 0).memory.bytes tr n := by
  induction n with
  | zero =>
    obtain ⟨counters, input, h0⟩ := h.start
    have hno : ¬ Latched tr 0 := by
      rintro ⟨id, k, -, hk, -⟩
      omega
    refine ⟨fun _ => ?_, fun _ => ?_, fun hl => absurd hl hno⟩
    · rw [h0]
      exact Sim.reset _ _ _
    · exact ⟨start _, rfl, rfl⟩
  | succ n ih =>
    by_cases hrun : (tr n).status = .running
    · have hsim := ih.1 (by simp [hrun])
      refine ⟨fun hne => ?_, memory_step h hrun hsim ih.2⟩
      have hh : (tr n).halts = false := by
        by_contra hh
        exact hne (by rw [h.step]; exact halted_tick (h.inv n) hrun (by simpa using hh))
      rw [h.step, retired, retires_running hrun hh]
      exact hsim.tick (h.inv n) (memoryView_far h hs hrun hsim ih.2) hrun hh
    · refine ⟨?_, memory_stopped h hrun ih.2⟩
      rw [h.step, tick_of_stopped hrun, retired, retires_stopped hrun]
      exact ih.1

theorem follows (h : IsRun tr) (hs : ¬ SelfModifying (tr 0).memory.bytes) (n : Nat) :
    ((tr n).status ≠ .halted → Sim (tr 0).memory.bytes (retired tr n) (tr n)) ∧
      MemoryFollows (tr 0).memory.bytes tr n :=
  follows_far h (not_modifiesWithin hs _) n

end Core

end TomasuloCpu
