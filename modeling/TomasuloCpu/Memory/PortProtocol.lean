/-
  TomasuloCpu.Memory.PortProtocol — the data port over any requests.

  A request accepted in cycle `i` is in flight in front of the next `kDataLatency` cycles
  (`in_flight`) and answered behind the last of them (`answered`); a port that is busy is
  busy with such a request (`busy_from`), so nothing else is ever answered. The memory
  changes in that last cycle only, and in front of the cycle that accepts a request it
  holds every earlier store (`bytes_accepted`).
-/
import TomasuloCpu.Memory.MemoryProofs

namespace TomasuloCpu

namespace MemoryUnit

/-- One cycle: `apply`, `latch`. -/
def cycle (m : MemoryUnit) (request : DataMemoryRequest) : Bool × MemoryUnit :=
  let (accepted, applied) := apply m request
  (accepted, applied.latch)

/-- The unit in front of cycle `n`. -/
def after (start : MemoryUnit) (requests : Nat → DataMemoryRequest) : Nat → MemoryUnit
  | 0 => start
  | n + 1 => (cycle (after start requests n) (requests n)).2

/-- A unit with nothing in flight. -/
def idle (memory : MemoryImage) : MemoryUnit := ⟨memory, .reset {}, {}⟩

/-- The access stays inside the memory. -/
def Fits (request : DataMemoryRequest) : Prop :=
  request.address.toNat + widthInBytes request.width ≤ kMemorySize

instance (request : DataMemoryRequest) : Decidable (Fits request) := inferInstanceAs (Decidable (_ ≤ _))

/-- The bytes once the request is through. -/
def storeInto (bytes : Nat → Byte) (request : DataMemoryRequest) : Nat → Byte :=
  if request.type = .store ∧ Fits request then
    LittleEndian.store bytes request.address.toNat (widthInBytes request.width) request.value
  else bytes

section Run

variable (start : MemoryUnit) (requests : Nat → DataMemoryRequest)

/-- The request of cycle `n` is accepted. -/
def accepted (n : Nat) : Bool := (cycle (after start requests n) (requests n)).1

/-- The bytes with every accepted store before cycle `n` done, in order. -/
def written : Nat → (Nat → Byte)
  | 0 => start.memory.bytes
  | n + 1 => if accepted start requests n then storeInto (written n) (requests n) else written n

end Run

variable {start : MemoryUnit} {requests : Nat → DataMemoryRequest} {n i : Nat}

theorem fits_iff (request : DataMemoryRequest) :
    MemoryImage.inBounds request.address (widthInBytes request.width) = true ↔ Fits request :=
  MemoryImage.inBounds_width

/-- The response to a request that finds these bytes. -/
def answer (bytes : Nat → Byte) (request : DataMemoryRequest) : DataMemoryResponse :=
  { tag := request.tag
    value :=
      if request.type = .load ∧ Fits request then
        LittleEndian.load bytes request.address.toNat (widthInBytes request.width)
      else 0
    isStore := decide (request.type = .store)
    success := decide (Fits request)
    valid := true }

theorem completeCurrentTransaction_response (m : MemoryImage) (request : DataMemoryRequest) :
    (completeCurrentTransaction m request).1 = answer m.bytes request := by
  obtain ⟨type, width, address, value, tag, valid⟩ := request
  have hfits := fits_iff ⟨type, width, address, value, tag, valid⟩
  simp only at hfits
  by_cases hin : MemoryImage.inBounds address (widthInBytes width) = true
  · have hf := hfits.mp hin
    cases type with
    | load => simp [completeCurrentTransaction, answer, readData_spec, hin, hf]
    | store => simp [completeCurrentTransaction, answer, scheduleStore, hin, hf]
  · have hf : ¬ Fits ⟨type, width, address, value, tag, valid⟩ := fun hc => hin (hfits.mpr hc)
    cases type with
    | load => simp [completeCurrentTransaction, answer, readData_spec, hin, hf]
    | store => simp [completeCurrentTransaction, answer, scheduleStore, hin, hf]

/-- The latch behind a completed request stores its bytes. -/
theorem completeCurrentTransaction_write (m : MemoryImage) (request : DataMemoryRequest) :
    (if (completeCurrentTransaction m request).2.valid then
        (applyStoreWrite m (completeCurrentTransaction m request).2).2 else m) =
      { m with bytes := storeInto m.bytes request } := by
  obtain ⟨type, width, address, value, tag, valid⟩ := request
  have hfits := fits_iff ⟨type, width, address, value, tag, valid⟩
  simp only at hfits
  cases type with
  | load => simp [completeCurrentTransaction, storeInto]
  | store =>
    by_cases hin : MemoryImage.inBounds address (widthInBytes width) = true
    · have hf := hfits.mp hin
      have hspec := applyStoreWrite_spec m address value width hin
      simp only [completeCurrentTransaction, scheduleStore, hin, if_true, storeInto, hf, and_self]
      exact hspec
    · have hf : ¬ Fits ⟨.store, width, address, value, tag, valid⟩ := fun hc => hin (hfits.mpr hc)
      simp [completeCurrentTransaction, scheduleStore, hin, storeInto, hf]

/-! ## One cycle -/

/-- A request in flight comes one cycle closer to its answer. -/
theorem cycle_waiting {m : MemoryUnit} (hv : m.port.cur.transaction.valid = true)
    (hr : 1 < m.port.cur.transaction.remainingCycles) (request : DataMemoryRequest) :
    (cycle m request).1 = false ∧ (cycle m request).2.memory = m.memory ∧
      (cycle m request).2.port.cur =
        { transaction :=
            { m.port.cur.transaction with remainingCycles := m.port.cur.transaction.remainingCycles - 1 } } := by
  have hstep : step m.memory m.port.cur request =
      ⟨false,
        { transaction :=
            { m.port.cur.transaction with remainingCycles := m.port.cur.transaction.remainingCycles - 1 } },
        {}⟩ := by
    rw [step, if_pos hv, if_pos hr]
  unfold cycle apply
  rw [hstep]
  exact ⟨rfl, rfl, rfl⟩

/-- In its last cycle it is answered, and a store done. -/
theorem cycle_completes {m : MemoryUnit} (hv : m.port.cur.transaction.valid = true)
    (hr : m.port.cur.transaction.remainingCycles ≤ 1) (request : DataMemoryRequest) :
    (cycle m request).1 = false ∧
      (cycle m request).2.memory =
        { m.memory with bytes := storeInto m.memory.bytes m.port.cur.transaction.request } ∧
      (cycle m request).2.port.cur = { response := answer m.memory.bytes m.port.cur.transaction.request } := by
  have hstep : step m.memory m.port.cur request =
      ⟨false, { response := answer m.memory.bytes m.port.cur.transaction.request },
        (completeCurrentTransaction m.memory m.port.cur.transaction.request).2⟩ := by
    rw [step, if_pos hv, if_neg (by omega), ← completeCurrentTransaction_response]
  have hwrite := completeCurrentTransaction_write m.memory m.port.cur.transaction.request
  unfold cycle apply
  rw [hstep]
  exact ⟨rfl, hwrite, rfl⟩

/-- A free port takes a valid request. -/
theorem cycle_free {m : MemoryUnit} (hv : m.port.cur.transaction.valid = false) (request : DataMemoryRequest) :
    (cycle m request).1 = (request.valid && request.tag.valid) ∧ (cycle m request).2.memory = m.memory ∧
      (cycle m request).2.port.cur =
        { transaction :=
            if request.valid && request.tag.valid then ⟨request, kDataLatency, true⟩ else m.port.cur.transaction } := by
  have hstep : step m.memory m.port.cur request =
      ⟨request.valid && request.tag.valid,
        { transaction :=
            if request.valid && request.tag.valid then ⟨request, kDataLatency, true⟩ else m.port.cur.transaction },
        {}⟩ := by
    rw [step, if_neg (by simp [hv])]
    cases request.valid && request.tag.valid <;> rfl
  unfold cycle apply
  rw [hstep]
  exact ⟨rfl, rfl, rfl⟩

/-! ## Runs -/

theorem accepted_free (h : accepted start requests n = true) :
    (after start requests n).port.cur.transaction.valid = false ∧
      ((requests n).valid && (requests n).tag.valid) = true := by
  cases hv : (after start requests n).port.cur.transaction.valid with
  | false =>
    rw [accepted, (cycle_free hv (requests n)).1] at h
    exact ⟨rfl, h⟩
  | true =>
    by_cases hr : 1 < (after start requests n).port.cur.transaction.remainingCycles
    · rw [accepted, (cycle_waiting hv hr (requests n)).1] at h
      cases h
    · rw [accepted, (cycle_completes hv (by omega) (requests n)).1] at h
      cases h

/-- An accepted request is in flight in front of the next three cycles. -/
theorem in_flight (h : accepted start requests i = true) {j : Nat} (hj : j < kDataLatency) :
    (after start requests (i + 1 + j)).port.cur = { transaction := ⟨requests i, kDataLatency - j, true⟩ } ∧
      (after start requests (i + 1 + j)).memory = (after start requests i).memory := by
  induction j with
  | zero =>
    obtain ⟨hfree, hvalid⟩ := accepted_free h
    obtain ⟨-, hmem, hport⟩ := cycle_free hfree (requests i)
    rw [hvalid, if_pos rfl] at hport
    exact ⟨hport, hmem⟩
  | succ j ih =>
    obtain ⟨hport, hmem⟩ := ih (by omega)
    have hr : 1 < (after start requests (i + 1 + j)).port.cur.transaction.remainingCycles := by
      rw [hport]
      show 1 < kDataLatency - j
      omega
    obtain ⟨-, hmem', hport'⟩ := cycle_waiting (by rw [hport]) hr (requests (i + 1 + j))
    refine ⟨?_, hmem'.trans hmem⟩
    refine hport'.trans ?_
    rw [hport]
    rfl

theorem busy_after (h : accepted start requests i = true) {j : Nat} (hj : j < kDataLatency) :
    (after start requests (i + 1 + j)).port.cur.transaction.valid = true := by
  rw [(in_flight h hj).1]

/-- Only the last of these cycles answers. -/
theorem waits (h : accepted start requests i = true) {j : Nat} (hj : j + 1 < kDataLatency) :
    1 < (after start requests (i + 1 + j)).port.cur.transaction.remainingCycles := by
  rw [(in_flight h (Nat.lt_of_succ_lt hj)).1]
  show 1 < kDataLatency - j
  omega

theorem accepts_nothing (h : accepted start requests i = true) {j : Nat} (hj : j < kDataLatency) :
    accepted start requests (i + 1 + j) = false := by
  cases ha : accepted start requests (i + 1 + j) with
  | false => rfl
  | true =>
    have hfree := (accepted_free ha).1
    rw [busy_after h hj] at hfree
    cases hfree

/-- No other request comes before its store is done. -/
theorem written_after (h : accepted start requests i = true) {j : Nat} (hj : j ≤ kDataLatency) :
    written start requests (i + 1 + j) = storeInto (written start requests i) (requests i) := by
  induction j with
  | zero =>
    show written start requests (i + 1) = _
    rw [written, h]
    rfl
  | succ j ih =>
    rw [← ih (by omega)]
    show written start requests (i + 1 + j + 1) = _
    rw [written, accepts_nothing h (by omega)]
    rfl

/-- Behind them it is answered, with the memory it found. -/
theorem answered (h : accepted start requests i = true) :
    (after start requests (i + kDataLatency + 1)).port.cur =
        { response := answer (after start requests i).memory.bytes (requests i) } ∧
      (after start requests (i + kDataLatency)).memory = (after start requests i).memory ∧
      (after start requests (i + kDataLatency + 1)).memory =
        { (after start requests i).memory with
          bytes := storeInto (after start requests i).memory.bytes (requests i) } := by
  obtain ⟨hport, hmem⟩ := in_flight h (j := 2) (by decide)
  have hlast : i + 1 + 2 = i + kDataLatency := by
    show i + 1 + 2 = i + 3
    omega
  rw [hlast] at hport hmem
  obtain ⟨-, hmem', hport'⟩ := cycle_completes (m := after start requests (i + kDataLatency)) (by rw [hport])
    (by rw [hport]; exact Nat.le_refl 1) (requests (i + kDataLatency))
  rw [hport, hmem] at hmem' hport'
  exact ⟨hport', hmem, hmem'⟩

/-- A busy port is busy with an accepted request. -/
theorem busy_from (hidle : start.port.cur.transaction.valid = false)
    (h : (after start requests n).port.cur.transaction.valid = true) :
    ∃ i j, j < kDataLatency ∧ n = i + 1 + j ∧ accepted start requests i = true := by
  induction n with
  | zero =>
    rw [after, hidle] at h
    cases h
  | succ n ih =>
    cases hv : (after start requests n).port.cur.transaction.valid with
    | true =>
      obtain ⟨i, j, hj, rfl, ha⟩ := ih hv
      by_cases hr : 1 < (after start requests (i + 1 + j)).port.cur.transaction.remainingCycles
      · refine ⟨i, j + 1, ?_, rfl, ha⟩
        rw [(in_flight ha hj).1] at hr
        have : 1 < kDataLatency - j := hr
        omega
      · have hport := (cycle_completes hv (by omega) (requests (i + 1 + j))).2.2
        have hnext : (after start requests (i + 1 + j + 1)).port.cur.transaction.valid = false := by
          show (cycle _ _).2.port.cur.transaction.valid = false
          rw [hport]
        rw [hnext] at h
        cases h
    | false =>
      obtain ⟨haccept, -, hport⟩ := cycle_free hv (requests n)
      cases hr : (requests n).valid && (requests n).tag.valid with
      | true => exact ⟨n, 0, by decide, rfl, haccept.trans hr⟩
      | false =>
        have hnext : (after start requests (n + 1)).port.cur.transaction.valid = false := by
          show (cycle _ _).2.port.cur.transaction.valid = false
          rw [hport, hr]
          exact hv
        rw [hnext] at h
        cases h

/-- In front of a request's first cycle all earlier stores are done: the port was free. -/
theorem bytes_written (hidle : start.port.cur.transaction.valid = false) (n : Nat) :
    (after start requests n).port.cur.transaction.valid = false →
      (after start requests n).memory.bytes = written start requests n := by
  induction n using Nat.strongRecOn with
  | _ n ih =>
    intro hfree
    cases n with
    | zero => rfl
    | succ n =>
      cases hv : (after start requests n).port.cur.transaction.valid with
      | false =>
        have hno : accepted start requests n = false := by
          cases ha : accepted start requests n with
          | false => rfl
          | true =>
            have hbusy := busy_after ha (j := 0) (by decide)
            rw [Nat.add_zero, hfree] at hbusy
            cases hbusy
        rw [written, hno, ← ih n (Nat.lt_succ_self n) hv]
        exact congrArg MemoryImage.bytes (cycle_free hv (requests n)).2.1
      | true =>
        -- the last cycle of the request accepted three cycles earlier
        obtain ⟨i, j, hj, rfl, ha⟩ := busy_from hidle hv
        have hlast : j + 1 = kDataLatency := by
          by_contra hne
          have hbusy := busy_after ha (j := j + 1) (by omega)
          rw [← Nat.add_assoc, hfree] at hbusy
          cases hbusy
        have hbefore := ih i (by omega) (accepted_free ha).1
        rw [Nat.add_assoc, hlast, written_after ha (Nat.le_refl _), ← hbefore, Nat.add_right_comm, (answered ha).2.2]

/-- What a request finds and what it leaves. -/
theorem bytes_accepted (hidle : start.port.cur.transaction.valid = false) (h : accepted start requests i = true) :
    (after start requests (i + kDataLatency)).memory.bytes = written start requests i ∧
      (after start requests (i + kDataLatency + 1)).memory.bytes =
        storeInto (written start requests i) (requests i) := by
  obtain ⟨-, hmem, hmem'⟩ := answered h
  have hbytes := bytes_written hidle i (accepted_free h).1
  rw [hmem, hmem', hbytes]
  exact ⟨rfl, rfl⟩

/-- The only response is that of the request accepted `kDataLatency` cycles earlier. -/
theorem response_from (hidle : start.port.cur = {})
    (h : (dataResponse (after start requests n).port.cur).valid = true) :
    ∃ i, accepted start requests i = true ∧ n = i + kDataLatency + 1 := by
  cases n with
  | zero =>
    rw [after, hidle] at h
    cases h
  | succ n =>
    cases hv : (after start requests n).port.cur.transaction.valid with
    | false =>
      have hport := (cycle_free hv (requests n)).2.2
      have hnext : (dataResponse (after start requests (n + 1)).port.cur).valid = false := by
        show (cycle _ _).2.port.cur.response.valid = false
        rw [hport]
      rw [hnext] at h
      cases h
    | true =>
      obtain ⟨i, j, hj, rfl, ha⟩ := busy_from (by rw [hidle]) hv
      refine ⟨i, ha, ?_⟩
      by_contra hne
      have hport := (cycle_waiting hv (waits ha (by omega)) (requests (i + 1 + j))).2.2
      have hnext : (dataResponse (after start requests (i + 1 + j + 1)).port.cur).valid = false := by
        show (cycle _ _).2.port.cur.response.valid = false
        rw [hport]
      rw [hnext] at h
      cases h

/-- Any other cycle leaves the memory alone. -/
theorem memory_quiet (hidle : start.port.cur.transaction.valid = false)
    (h : ¬ ∃ i, accepted start requests i = true ∧ n = i + kDataLatency) :
    (after start requests (n + 1)).memory = (after start requests n).memory := by
  cases hv : (after start requests n).port.cur.transaction.valid with
  | false => exact (cycle_free hv (requests n)).2.1
  | true =>
    obtain ⟨i, j, hj, rfl, ha⟩ := busy_from hidle hv
    have hearly : j + 1 < kDataLatency := by
      by_contra hle
      exact h ⟨i, ha, by omega⟩
    exact (cycle_waiting hv (waits ha hearly) (requests (i + 1 + j))).2.1

/-- The data port is a memory with one request outstanding and a fixed latency. -/
theorem port_exact (memory : MemoryImage) (requests : Nat → DataMemoryRequest)
    (hreq : ∀ n, (requests n).valid = true → (requests n).tag.valid = true) :
    (∀ n, accepted (idle memory) requests n = true ↔
      (requests n).valid = true ∧ dataPortAvailable (after (idle memory) requests n).port.cur = true) ∧
    (∀ n, (dataResponse (after (idle memory) requests n).port.cur).valid = true ↔
      ∃ i, accepted (idle memory) requests i = true ∧ n = i + kDataLatency + 1) ∧
    (∀ i, accepted (idle memory) requests i = true →
      let response := dataResponse (after (idle memory) requests (i + kDataLatency + 1)).port.cur
      response.tag = (requests i).tag ∧ (response.isStore = true ↔ (requests i).type = .store) ∧
        (response.success = true ↔
          (requests i).address.toNat + widthInBytes (requests i).width ≤ kMemorySize) ∧
        ((requests i).type = .load → response.success = true →
          response.value =
            LittleEndian.load (written (idle memory) requests i) (requests i).address.toNat
              (widthInBytes (requests i).width))) ∧
    (∀ i, accepted (idle memory) requests i = true →
      (after (idle memory) requests (i + kDataLatency)).memory.bytes = written (idle memory) requests i ∧
        (after (idle memory) requests (i + kDataLatency + 1)).memory.bytes =
          storeInto (written (idle memory) requests i) (requests i)) ∧
    ∀ n, (¬ ∃ i, accepted (idle memory) requests i = true ∧ n = i + kDataLatency) →
      (after (idle memory) requests (n + 1)).memory = (after (idle memory) requests n).memory := by
  refine ⟨fun n => ?_, fun n => ?_, fun i h => ?_, fun i h => bytes_accepted rfl h, fun n h => memory_quiet rfl h⟩
  · constructor
    · intro h
      obtain ⟨hfree, hvalid⟩ := accepted_free h
      rw [Bool.and_eq_true] at hvalid
      exact ⟨hvalid.1, by simp [dataPortAvailable, hfree]⟩
    · rintro ⟨hvalid, havail⟩
      have hfree : (after (idle memory) requests n).port.cur.transaction.valid = false := by
        simpa [dataPortAvailable] using havail
      rw [accepted, (cycle_free hfree (requests n)).1, hvalid, hreq n hvalid]
      rfl
  · constructor
    · exact response_from rfl
    · rintro ⟨i, ha, rfl⟩
      rw [(answered ha).1]
      rfl
  · obtain ⟨hport, hmem, -⟩ := answered h
    have hbytes := (bytes_accepted rfl h).1
    rw [hmem] at hbytes
    rw [hport, hbytes]
    refine ⟨rfl, decide_eq_true_iff, decide_eq_true_iff, fun hload hfits => ?_⟩
    exact if_pos ⟨hload, of_decide_eq_true hfits⟩

/-- A store word and, once it is done, a load of its second byte. -/
def twoRequests (t : Nat) : DataMemoryRequest :=
  if t < 4 then
    { type := .store, width := .word, address := 8, value := 0x01020304, tag := ⟨0, 1, true⟩, valid := true }
  else { type := .load, width := .byte, address := 9, tag := ⟨1, 1, true⟩, valid := true }

theorem port_exact_two : (dataResponse (after (idle .clear) twoRequests 8).port.cur).valid = true := by
  refine ((port_exact .clear twoRequests fun n _ => ?_).2.1 8).mpr ⟨4, ?_, rfl⟩
  · unfold twoRequests
    split <;> rfl
  · decide

end MemoryUnit

end TomasuloCpu
