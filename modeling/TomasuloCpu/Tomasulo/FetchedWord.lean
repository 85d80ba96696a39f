/-
  TomasuloCpu.Tomasulo.FetchedWord — which word a committed instruction was decoded from.

  The memory is at every moment the image under the writes latched so far, and these are
  the writes of the stores that commit within two cycles (`memory_eq`,
  `committedStores_eq`). An entry keeps what the decoder made of the word at its pc in the
  cycle of its issue (`entry_history`). So an instruction has seen the older stores that
  commit at most one cycle after its issue; nothing compares the later ones with it, and
  one that writes into its word is missed (`store_over_fetched`).
-/
import TomasuloCpu.Reference.Interpreter
import TomasuloCpu.Tomasulo.CommitLog
import TomasuloCpu.Tomasulo.StoreCommit

namespace TomasuloCpu

/-- The fields the decoder gives an entry. -/
structure DecodedFrom (e : RobEntry) (w : InstructionBits) : Prop where
  op : e.op = (Decoder.decode w).op
  rd : e.rd = (Decoder.decode w).rd
  writesRd : e.writesRd = (Decoder.decode w).writesRd
  isStore : e.isStore = (Decoder.decode w).isStore
  isBranch : e.isBranch = (Decoder.decode w).isBranch
  isJump : e.isJump = (Decoder.decode w).isJump

/-- The write is to a byte of the word at `pc`. -/
def PendingStoreWrite.Covers (w : PendingStoreWrite) (pc : Address) : Prop :=
  w.address.toNat < pc.toNat + 4 ∧ pc.toNat < w.address.toNat + MemoryUnit.widthInBytes w.width

namespace MemoryImage

/-- The image after the writes, the first one first. -/
def withStores (image : MemoryImage) (writes : List PendingStoreWrite) : MemoryImage :=
  writes.foldl (fun m w => (MemoryUnit.applyStoreWrite m w).2) image

theorem withStores_append (image : MemoryImage) (writes later : List PendingStoreWrite) :
    image.withStores (writes ++ later) = (image.withStores writes).withStores later := List.foldl_append

/-- Writes to other bytes leave the word. -/
theorem readWord_withStores {pc : Address} {writes : List PendingStoreWrite} (h : ∀ w ∈ writes, ¬ w.Covers pc)
    (image : MemoryImage) : (image.withStores writes).readWord pc = image.readWord pc := by
  induction writes generalizing image with
  | nil => rfl
  | cons w writes ih =>
    rw [withStores, List.foldl_cons, ← withStores, ih fun v hv => h v (List.mem_cons_of_mem w hv)]
    have hw := h w List.mem_cons_self
    rw [readWord_spec, readWord_spec]
    congr 2
    refine LittleEndian.load_congr fun a hlow hhigh => MemoryUnit.applyStoreWrite_outside image w ?_
    unfold PendingStoreWrite.Covers at hw
    omega

end MemoryImage

namespace Core

variable {s : Core} {tr : Nat → Core}

/-! ## The word of an entry -/

theorem decodedFrom_issue {d : DecodePacket} (h : Issues s d) :
    (s.issuedRob d).pc = s.pc ∧ ∃ w, s.memory.readWord s.pc = some w ∧ DecodedFrom (s.issuedRob d) w := by
  obtain ⟨w, hw, hd⟩ := h.word
  have hwell := h.decoded
  refine ⟨h.pc, w, hw, ?_⟩
  rw [hd] at hwell
  have hwrites : ((Decoder.decode w).writesRd && (Decoder.decode w).rd != 0) = (Decoder.decode w).writesRd := by
    rw [hwell.writes, Bool.and_assoc, Bool.and_self]
  unfold issuedRob IssueUnit.makeRobEntry
  simp only [issueInputs, hd]
  exact ⟨rfl, rfl, hwrites, rfl, rfl, rfl⟩

theorem decodedFrom_finish {x : RobEntry} {w : InstructionBits} (h : DecodedFrom x w) :
    DecodedFrom (s.finish x) w := by
  obtain ⟨hop, -, hrd, hwrites, -, hbranch, hstore, hjump⟩ := ReorderBuffer.finish_frame s.completion s.storeDone x
  exact ⟨hop.trans h.op, hrd.trans h.rd, hwrites.trans h.writesRd, hstore.trans h.isStore, hbranch.trans h.isBranch,
    hjump.trans h.isJump⟩

/-- A live entry is what the decoder made, in the cycle that issued it, of the word at the
    pc. -/
theorem entry_history (h : IsRun tr) {n id : Nat} (hm : id ∈ liveIds tr n) {x : RobEntry}
    (hx : x ∈ (tr n).rob.live) (ht : x.tag = tagOf tr id) :
    x.pc = (tr id).pc ∧ ∃ w, (tr id).memory.readWord (tr id).pc = some w ∧ DecodedFrom x w := by
  induction n generalizing x with
  | zero => cases hm
  | succ n ih =>
    by_cases hrun : (tr n).status = .running
    · have hi := h.inv n
      rw [h.step] at hx
      rcases mem_tick_live hrun hi.rob hx with ⟨-, y, hy, rfl⟩ | ⟨d, hd, rfl⟩
      · rw [finish_tag] at ht
        obtain ⟨hpc, w, hw, hdec⟩ := ih (kept_id h hrun hm hy ht) hy ht
        exact ⟨(finish_pc y).trans hpc, w, hw, decodedFrom_finish hdec⟩
      · obtain rfl := tagOf_inj h hm (issued_id hrun (by rw [hd]; rfl)) (show tagOf tr id = tagOf tr n from ht.symm)
        exact decodedFrom_issue (issuing_some hd)
    · rw [h.step, tick_of_stopped hrun] at hx
      rw [liveIds_stopped hrun] at hm
      exact ih hm hx ht

/-- Two sightings of one instruction show the same decoded fields. -/
theorem isStore_of_id (h : IsRun tr) {m n id : Nat} {x y : RobEntry} (hm : (liveIds tr m).head? = some id)
    (hx : (tr m).rob.live.head? = some x) (hn : (liveIds tr n).head? = some id)
    (hy : (tr n).rob.live.head? = some y) : x.isStore = y.isStore := by
  obtain ⟨a, ha, hat⟩ := head_id h hx
  obtain ⟨b, hb, hbt⟩ := head_id h hy
  obtain rfl : id = a := Option.some.inj (hm.symm.trans ha)
  obtain rfl : id = b := Option.some.inj (hn.symm.trans hb)
  obtain ⟨-, v, hv, hxd⟩ := entry_history h (List.mem_of_mem_head? hm) (List.mem_of_mem_head? hx) hat.symm
  obtain ⟨-, w, hw, hyd⟩ := entry_history h (List.mem_of_mem_head? hn) (List.mem_of_mem_head? hy) hbt.symm
  obtain rfl : v = w := Option.some.inj (hv.symm.trans hw)
  rw [hxd.isStore, hyd.isStore]

/-! ## The stores behind the memory -/

theorem Writes.live (h : IsRun tr) {n id : Nat} (hw : Writes tr n id) : id ∈ liveIds tr n := by
  obtain ⟨id', hw', hid'⟩ := writes_head h hw.written
  rw [Writes.unique_id h hw hw']
  exact List.mem_of_mem_head? hid'

/-- The write of the store that commits in cycle `n`; it reached the memory two cycles
    before (`storeOf_written`). -/
def storeOf (tr : Nat → Core) (n : Nat) : Option PendingStoreWrite :=
  if (tr n).committed.any (·.isStore) then some (tr (n - 2)).storeWrite else none

/-- The writes of the stores that commit before cycle `n`, oldest first. -/
def committedStores (tr : Nat → Core) : Nat → List PendingStoreWrite
  | 0 => []
  | n + 1 => committedStores tr n ++ (storeOf tr n).toList

/-- The store of a commit is the write its own request made. -/
theorem storeOf_written (h : IsRun tr) {n : Nat} {w : PendingStoreWrite} (hs : storeOf tr n = some w) :
    ∃ k id, n = k + 2 ∧ Writes tr k id ∧ Commits tr n id ∧ w = (tr k).storeWrite := by
  unfold storeOf at hs
  split at hs
  · rename_i hany
    obtain ⟨x, hx, hst⟩ := (Option.any_eq_true _ _).mp hany
    obtain ⟨hrun, hc, hhead, -⟩ := committed_some (h.inv n) hx
    obtain ⟨id, hid, -⟩ := head_id h hhead
    rw [((h.inv n).entry x (List.mem_of_mem_head? hhead)).store] at hst
    obtain ⟨k, rfl, hw⟩ := commits_written h ⟨hrun, hc, hid⟩ hhead hst
    exact ⟨k, id, rfl, hw, ⟨hrun, hc, hid⟩, (Option.some.inj hs).symm⟩
  · cases hs

/-- Every write of a run is the store of the commit two cycles later. -/
theorem storeOf_eq (h : IsRun tr) (k : Nat) :
    storeOf tr (k + 2) = if (tr k).written then some (tr k).storeWrite else none := by
  split
  · rename_i hw
    obtain ⟨id, hwr, hid⟩ := writes_head h hw
    have hc := (hwr.commits h).2.2
    obtain ⟨x, -, -, hx, -, hst, -⟩ := memory_written (h.inv k) hw
    obtain ⟨y, hy, hr⟩ := (committing_iff (h.inv (k + 2)).rob).mp hc.committing
    have hxy : y.isStore = x.isStore := isStore_of_id h hc.head hy hid hx
    have hcommit : (tr (k + 2)).committed = some y := by
      rw [committed, if_pos ⟨hc.running, hc.committing⟩, (commit_entry (h.inv (k + 2)).rob hy hr).1]
    rw [storeOf, hcommit, Option.any_some, hxy, ((h.inv k).entry x (List.mem_of_mem_head? hx)).store, if_pos hst]
    rfl
  · rename_i hw
    by_contra hs
    obtain ⟨w, hs⟩ := Option.ne_none_iff_exists'.mp hs
    obtain ⟨k', id, hk, hwr, -, -⟩ := storeOf_written h hs
    obtain rfl : k = k' := by omega
    exact hw hwr.written

theorem committedStores_two (h : IsRun tr) : committedStores tr 2 = [] := by
  have hnone : ∀ n < 2, storeOf tr n = none := by
    intro n hn
    by_contra hs
    obtain ⟨w, hs⟩ := Option.ne_none_iff_exists'.mp hs
    obtain ⟨k, id, rfl, -, -, -⟩ := storeOf_written h hs
    omega
  rw [committedStores, committedStores, committedStores, hnone 0 (by decide), hnone 1 (by decide)]
  rfl

/-- The memory is the image under the stores that commit in this cycle or the next, or have
    committed. -/
theorem memory_eq (h : IsRun tr) (n : Nat) : (tr n).memory = (tr 0).memory.withStores (committedStores tr (n + 2)) := by
  induction n with
  | zero => rw [committedStores_two h]; rfl
  | succ n ih =>
    rw [h.step, tick_memory, committedStores, MemoryImage.withStores_append, ← ih, storeOf_eq h]
    split <;> rfl

theorem committedStores_later (tr : Nat → Core) {m n : Nat} (hle : m ≤ n) :
    ∃ later, committedStores tr n = committedStores tr m ++ later ∧
      ∀ w ∈ later, ∃ k, m ≤ k ∧ k < n ∧ storeOf tr k = some w := by
  induction hle with
  | refl => exact ⟨[], (List.append_nil _).symm, List.forall_mem_nil _⟩
  | @step n hle ih =>
    obtain ⟨later, heq, hlater⟩ := ih
    refine ⟨later ++ (storeOf tr n).toList, by rw [committedStores, heq, List.append_assoc], fun w hw => ?_⟩
    rcases List.mem_append.mp hw with hw | hw
    · obtain ⟨k, hmk, hkn, hs⟩ := hlater w hw
      exact ⟨k, hmk, Nat.lt_succ_of_lt hkn, hs⟩
    · exact ⟨n, hle, Nat.lt_succ_self n, Option.mem_toList.mp hw⟩

/-! ## What a commit was decoded from -/

variable {n id : Nat} {x : RobEntry}

/-- The word as of the issue. -/
theorem word_at_issue (h : IsRun tr) (hc : Commits tr n id) (hx : (tr n).committed = some x) :
    ∃ w, ((tr 0).memory.withStores (committedStores tr (id + 2))).readWord x.pc = some w ∧ DecodedFrom x w := by
  obtain ⟨-, -, hhead, -⟩ := committed_some (h.inv n) hx
  obtain ⟨id', hid', ht⟩ := head_id h hhead
  obtain rfl : id = id' := Option.some.inj (hc.head.symm.trans hid')
  obtain ⟨hpc, hword⟩ := entry_history h hc.mem (List.mem_of_mem_head? hhead) ht.symm
  rw [← memory_eq h, hpc]
  exact hword

/-- The word as of the commit, when no store that commits in between is to it. -/
theorem word_at_commit (h : IsRun tr) (hc : Commits tr n id) (hx : (tr n).committed = some x)
    (hold : ∀ k w, id + 2 ≤ k → k < n → storeOf tr k = some w → ¬ w.Covers x.pc) :
    ∃ w, ((tr 0).memory.withStores (committedStores tr n)).readWord x.pc = some w ∧ DecodedFrom x w := by
  obtain ⟨w, hw, hdec⟩ := word_at_issue h hc hx
  refine ⟨w, ?_, hdec⟩
  by_cases hle : id + 2 ≤ n
  · obtain ⟨later, heq, hlater⟩ := committedStores_later tr hle
    rw [heq, MemoryImage.withStores_append, MemoryImage.readWord_withStores]
    · exact hw
    · intro v hv
      obtain ⟨k, hik, hkn, hs⟩ := hlater v hv
      exact hold k v hik hkn hs
  · -- issued in the cycle before: HALT, which is no store
    have hlt := ids_lt hc.mem
    have hs : storeOf tr n = none := by
      by_contra hs
      obtain ⟨v, hs⟩ := Option.ne_none_iff_exists'.mp hs
      obtain ⟨k, id', rfl, hwr, hc', -⟩ := storeOf_written h hs
      obtain rfl : id = id' := Option.some.inj (hc.head.symm.trans hc'.head)
      have hlive := ids_lt (Writes.live h hwr)
      omega
    obtain rfl : n = id + 1 := by omega
    rw [committedStores, hs] at hw
    simpa using hw

end Core

namespace Cpu

open TomasuloCpu.Core

/-- `sw x0, 8(x0)`, `addi x2, x0, 1`, `addi x3, x0, 7`, HALT: the store clears the third
    word when that is long fetched. -/
def storeOverImage : Istream := { text := "@0 23 24 00 00 13 01 10 00 93 01 70 00 13 05 f0 0f".toList }

/-- The `addi` at 8 commits although the older store has made its word invalid; the
    interpreter stops there. -/
theorem store_over_fetched :
    ((new fun _ => baseOrders).load storeOverImage).1.ok = true ∧
      ((Interpreter.new.load storeOverImage).2.steps 3).status = .invalidInstruction ∧
      ∃ id x, Commits ((new fun _ => baseOrders).history storeOverImage) 8 id ∧
        ((new fun _ => baseOrders).history storeOverImage 8).committed = some x ∧
        ¬ ∃ w, (((new fun _ => baseOrders).load storeOverImage).2.memoryUnit.memory.withStores
            (committedStores ((new fun _ => baseOrders).history storeOverImage) 8)).readWord x.pc = some w ∧
          DecodedFrom x w := by
  have h := history_isRun (new fun _ => baseOrders) storeOverImage
  obtain ⟨hok, hinterpreter, hword, hcommit⟩ : (MemoryImage.load storeOverImage).1.ok = true ∧
      ((Interpreter.new.load storeOverImage).2.steps 3).status = .invalidInstruction ∧
      ((loaded storeOverImage).after 6).memory.readWord 8 = some 0 ∧
      ((loaded storeOverImage).after 8).committed.any (fun x => x.pc == 8 && x.op == .addi) = true := by
    decide +kernel
  obtain ⟨x, hx, hfields⟩ := (Option.any_eq_true _ _).mp hcommit
  rw [Bool.and_eq_true, beq_iff_eq, beq_iff_eq] at hfields
  rw [← history_eq (new fun _ => baseOrders)] at hx hword
  obtain ⟨hrun, hc, hhead, -⟩ := committed_some (h.inv 8) hx
  obtain ⟨id, hid, -⟩ := head_id h hhead
  refine ⟨by rw [load_result]; exact hok, hinterpreter, id, x, ⟨hrun, hc, hid⟩, hx, ?_⟩
  rintro ⟨w, hw, hdec⟩
  rw [hfields.1] at hw
  rw [memory_eq h 6] at hword
  obtain rfl : 0 = w := Option.some.inj (hword.symm.trans hw)
  have hop := hdec.op
  rw [hfields.2] at hop
  exact absurd hop (by decide)

/-- A committed instruction is the decoding of the word at its pc under the older stores
    that commit at most one cycle after its issue, and so under all older stores unless a
    later one is to that word. -/
theorem fetch_sees_written_stores (cpu : Cpu) (input : Istream) {n id : Nat} {x : RobEntry}
    (hc : Commits (cpu.history input) n id) (hx : (cpu.history input n).committed = some x) :
    (∃ w, ((cpu.load input).2.memoryUnit.memory.withStores
        (committedStores (cpu.history input) (id + 2))).readWord x.pc = some w ∧ DecodedFrom x w) ∧
    ((∀ k w, id + 2 ≤ k → k < n → storeOf (cpu.history input) k = some w → ¬ w.Covers x.pc) →
      ∃ w, ((cpu.load input).2.memoryUnit.memory.withStores
        (committedStores (cpu.history input) n)).readWord x.pc = some w ∧ DecodedFrom x w) ∧
    ∀ k w, storeOf (cpu.history input) k = some w → ∃ j id', k = j + 2 ∧ Writes (cpu.history input) j id' ∧
      Commits (cpu.history input) k id' ∧ w = (cpu.history input j).storeWrite := by
  have h := history_isRun cpu input
  have himage : (cpu.history input 0).memory = (cpu.load input).2.memoryUnit.memory := rfl
  rw [← himage]
  exact ⟨word_at_issue h hc hx, word_at_commit h hc hx, fun k w hs => storeOf_written h hs⟩

/-- HALT is fetched before the store in front of it commits, which is to another word. -/
theorem fetch_sees_written_stores_sample :
    ∃ x w, ((new fun _ => baseOrders).history sampleImage 18).committed = some x ∧ x.op = .halt ∧
      (committedStores ((new fun _ => baseOrders).history sampleImage) 18).length = 1 ∧
      (((new fun _ => baseOrders).load sampleImage).2.memoryUnit.memory.withStores
        (committedStores ((new fun _ => baseOrders).history sampleImage) 18)).readWord x.pc = some w ∧
      DecodedFrom x w := by
  have h := history_isRun (new fun _ => baseOrders) sampleImage
  have heq : (new fun _ => baseOrders).history sampleImage = (loaded sampleImage).after :=
    funext fun n => history_eq _ _ n
  obtain ⟨hhalt, hcount, hstores⟩ :
      ((loaded sampleImage).after 18).committed.any (fun x => x.op == .halt && x.pc == 16) = true ∧
        (committedStores (loaded sampleImage).after 18).length = 1 ∧
        ∀ k < 18, (storeOf (loaded sampleImage).after k).all (·.address == 64) = true := by decide +kernel
  obtain ⟨x, hx, hfacts⟩ := (Option.any_eq_true _ _).mp hhalt
  simp only [Bool.and_eq_true, beq_iff_eq] at hfacts
  obtain ⟨hop, hpc⟩ := hfacts
  rw [← heq] at hx hcount hstores
  obtain ⟨hrun, hc, hhead, -⟩ := committed_some (h.inv 18) hx
  obtain ⟨id, hid, -⟩ := head_id h hhead
  obtain ⟨w, hw, hdec⟩ := (fetch_sees_written_stores (new fun _ => baseOrders) sampleImage ⟨hrun, hc, hid⟩ hx).2.1
    fun k w _ hk hs => by
      have haddress := hstores k hk
      rw [hs] at haddress
      rintro ⟨hlow, -⟩
      rw [beq_iff_eq.mp haddress, hpc] at hlow
      exact absurd hlow (by decide)
  exact ⟨x, w, hx, hop, hcount, hw, hdec⟩

end Cpu

end TomasuloCpu
