/-
  TomasuloCpu.Memory.ImageAccess — the image as a little-endian array of bytes.

  `read` and `write` are the image's six accesses, each under its width. A read is the
  little-endian number at the address (`read_spec`), a write stores its value there
  (`write_spec`), and an access that is not in bounds as a whole does nothing.
  `access_exact` says so of every two accesses, however they overlap.
-/
import TomasuloCpu.Lib.LittleEndian
import TomasuloCpu.Memory.MemoryUnit

namespace TomasuloCpu

theorem MemoryUnit.widthInBytes_le (w : MemoryWidth) : widthInBytes w ≤ kMemorySize := by
  cases w <;> decide

namespace MemoryImage

open MemoryUnit (widthInBytes)

def read (m : MemoryImage) (address : Address) : (w : MemoryWidth) → Option (BitVec (8 * widthInBytes w))
  | .byte => m.readByte address
  | .half => m.readHalf address
  | .word => m.readWord address

def write (m : MemoryImage) (address : Address) :
    (w : MemoryWidth) → BitVec (8 * widthInBytes w) → Bool × MemoryImage
  | .byte, value => m.writeByte address value
  | .half, value => m.writeHalf address value
  | .word, value => m.writeWord address value

/-! ## Bounds -/

theorem inBounds_iff {a : Address} {w : Nat} (hw : w ≤ kMemorySize) :
    inBounds a w = true ↔ a.toNat + w ≤ kMemorySize := by
  rw [inBounds, if_neg (by omega), decide_eq_true_eq]
  omega

theorem inBounds_width {a : Address} {w : MemoryWidth} :
    inBounds a (widthInBytes w) = true ↔ a.toNat + widthInBytes w ≤ kMemorySize :=
  inBounds_iff (MemoryUnit.widthInBytes_le w)

/-! ## Reads -/

/-- The code's order of shifts and ors is that of `load`. -/
theorem readWord_spec (m : MemoryImage) (a : Address) :
    m.readWord a = if inBounds a 4 then some (LittleEndian.load m.bytes a.toNat 4) else none := by
  unfold readWord
  split
  · simp only [LittleEndian.load, BitVec.shiftLeft_or_distrib, ← BitVec.shiftLeft_add, BitVec.zero_shiftLeft,
      BitVec.or_zero, BitVec.or_assoc, Nat.reduceAdd, Nat.add_assoc]
  · rfl

theorem read_spec (m : MemoryImage) (a : Address) (w : MemoryWidth) :
    m.read a w =
      if inBounds a (widthInBytes w) then some (LittleEndian.load m.bytes a.toNat (widthInBytes w)) else none := by
  cases w with
  | byte =>
    have hload : LittleEndian.load (n := 8) m.bytes a.toNat 1 = m.bytes a.toNat := by simp [LittleEndian.load]
    show m.readByte a = if inBounds a 1 then some (LittleEndian.load (n := 8) m.bytes a.toNat 1) else none
    rw [hload, readByte]
  | half =>
    show m.readHalf a = if inBounds a 2 then some (LittleEndian.load (n := 16) m.bytes a.toNat 2) else none
    simp only [readHalf, LittleEndian.load, BitVec.zero_shiftLeft, BitVec.or_zero]
  | word => exact readWord_spec m a

/-! ## Writes -/

theorem setWidth_masked {n k : Nat} (mask x : BitVec n) (hm : mask.toNat = 2 ^ k - 1) :
    (x &&& mask).setWidth k = x.setWidth k := by
  apply BitVec.eq_of_toNat_eq
  rw [BitVec.toNat_setWidth, BitVec.toNat_setWidth, BitVec.toNat_and, hm, Nat.and_two_pow_sub_one_eq_mod, Nat.mod_mod]

theorem writeByte_spec (m : MemoryImage) (a : Address) (value : Byte) :
    m.writeByte a value =
      if inBounds a 1 then (true, { m with bytes := LittleEndian.store m.bytes a.toNat 1 value }) else (false, m) := by
  rw [LittleEndian.store_succ, LittleEndian.store_zero, Nat.mul_zero, BitVec.ushiftRight_zero, BitVec.setWidth_eq]
  rfl

theorem writeHalf_spec (m : MemoryImage) (a : Address) (value : HalfWord) :
    m.writeHalf a value =
      if inBounds a 2 then (true, { m with bytes := LittleEndian.store m.bytes a.toNat 2 value }) else (false, m) := by
  simp only [writeHalf, setWidth_masked (k := 8) (0xff : HalfWord) _ rfl, LittleEndian.store_succ, LittleEndian.store_zero,
    Nat.mul_zero, BitVec.ushiftRight_zero]
  rfl

theorem writeWord_spec (m : MemoryImage) (a : Address) (value : Word) :
    m.writeWord a value =
      if inBounds a 4 then (true, { m with bytes := LittleEndian.store m.bytes a.toNat 4 value }) else (false, m) := by
  simp only [writeWord, setWidth_masked (k := 8) (0xff : Word) _ rfl, LittleEndian.store_succ, LittleEndian.store_zero,
    Nat.mul_zero, BitVec.ushiftRight_zero]
  rfl

/-- A write stores byte by byte; the image's load statistics stay. -/
theorem write_spec (m : MemoryImage) (a : Address) (w : MemoryWidth) (value : BitVec (8 * widthInBytes w)) :
    m.write a w value =
      if inBounds a (widthInBytes w) then
        (true, { m with bytes := LittleEndian.store m.bytes a.toNat (widthInBytes w) value })
      else (false, m) := by
  cases w with
  | byte => exact writeByte_spec m a value
  | half => exact writeHalf_spec m a value
  | word => exact writeWord_spec m a value

theorem toNat_read {m : MemoryImage} {a : Address} {w : MemoryWidth} {y : BitVec (8 * widthInBytes w)}
    (h : m.read a w = some y) : y.toNat = LittleEndian.number m.bytes a.toNat (widthInBytes w) := by
  rw [read_spec] at h
  split at h
  · rw [← Option.some.inj h, LittleEndian.toNat_load (Nat.le_refl _)]
  · cases h

theorem write_bytes {m : MemoryImage} {a : Address} {w : MemoryWidth} {x : BitVec (8 * widthInBytes w)}
    (h : (m.write a w x).1 = true) :
    (m.write a w x).2.bytes = LittleEndian.store m.bytes a.toNat (widthInBytes w) x := by
  rw [write_spec] at h ⊢
  split at h
  · rw [if_pos ‹_›]
  · cases h

/-! ## Overlaps -/

/-- Accesses of any width at any address: one succeeds iff it ends inside the memory,
    the sum in the naturals. A write that fails changes nothing; after one that succeeds
    a read finds its bytes where the ranges overlap and the old ones elsewhere. -/
theorem access_exact (m : MemoryImage) (a b : Address) (w v : MemoryWidth) (x : BitVec (8 * widthInBytes w)) :
    ((m.read a w).isSome = true ↔ a.toNat + widthInBytes w ≤ 2 ^ 20) ∧
    ((m.write a w x).1 = true ↔ a.toNat + widthInBytes w ≤ 2 ^ 20) ∧
    ((m.write a w x).1 = false → (m.write a w x).2 = m) ∧
    (∀ y, m.read b v = some y → y.toNat = LittleEndian.number m.bytes b.toNat (widthInBytes v)) ∧
    ((m.write a w x).1 = true →
      ∀ y, (m.write a w x).2.read b v = some y →
        y.toNat =
          LittleEndian.number
            (fun i =>
              if a.toNat ≤ i ∧ i < a.toNat + widthInBytes w then x.extractLsb' (8 * (i - a.toNat)) 8 else m.bytes i)
            b.toNat (widthInBytes v)) := by
  have hbounds : inBounds a (widthInBytes w) = true ↔ a.toNat + widthInBytes w ≤ 2 ^ 20 := inBounds_width
  refine ⟨?_, ?_, ?_, fun y hy => toNat_read hy, ?_⟩
  · rw [read_spec, ← hbounds]
    split <;> simp [*]
  · rw [write_spec, ← hbounds]
    split <;> simp [*]
  · intro hfail
    rw [write_spec] at hfail ⊢
    split at hfail
    · cases hfail
    · rw [if_neg ‹_›]
  · intro hok y hy
    rw [toNat_read hy, write_bytes hok, LittleEndian.store_slice]

/-- A half word over the last byte of a word and the byte after it. -/
example :
    ((clear.writeWord 0x30 0x89abcdef).2.writeHalf 0x33 0x1234).2.readWord 0x32 = some 0x001234ab := by
  decide

end MemoryImage

end TomasuloCpu
