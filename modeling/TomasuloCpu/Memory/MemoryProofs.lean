/-
  TomasuloCpu.Memory.MemoryProofs — the memory unit's accesses, byte by byte.

  A read in bounds is the little-endian number at the address (`readData_spec`), a write
  in bounds stores the low bytes of its value there (`applyStoreWrite_spec`).
-/
import TomasuloCpu.Memory.ImageAccess

namespace TomasuloCpu

namespace MemoryUnit

/-- The data port reads a value of any width as a word. -/
theorem readData_read (m : MemoryImage) (a : Address) (w : MemoryWidth) :
    readData m a w = ((m.read a w).map fun value => (value.setWidth 32, true)).getD (0, false) := by
  cases w with
  | byte =>
    show readData m a .byte = ((m.readByte a).map _).getD _
    rw [readData]
    cases m.readByte a <;> rfl
  | half =>
    show readData m a .half = ((m.readHalf a).map _).getD _
    rw [readData]
    cases m.readHalf a <;> rfl
  | word =>
    show readData m a .word = ((m.readWord a).map fun value => (value.setWidth 32, true)).getD _
    rw [readData]
    cases m.readWord a with
    | none => rfl
    | some value => rw [Option.map_some, BitVec.setWidth_eq]; rfl

theorem readData_spec (m : MemoryImage) (a : Address) (w : MemoryWidth) :
    readData m a w =
      if MemoryImage.inBounds a (widthInBytes w) then (LittleEndian.load m.bytes a.toNat (widthInBytes w), true)
      else (0, false) := by
  rw [readData_read, MemoryImage.read_spec]
  split
  · rw [Option.map_some, LittleEndian.setWidth_load (Nat.le_refl _)]; rfl
  · rfl

/-- The value is cut to the width before it is written. -/
theorem applyStoreWrite_write (m : MemoryImage) (a : Address) (value : Word) (w : MemoryWidth) :
    applyStoreWrite m { address := a, value := value, width := w, valid := true } =
      m.write a w (value.setWidth (8 * widthInBytes w)) := by
  cases w with
  | byte => exact congrArg (m.writeByte a) (MemoryImage.setWidth_masked 0xff value rfl)
  | half => exact congrArg (m.writeHalf a) (MemoryImage.setWidth_masked 0xffff value rfl)
  | word => exact congrArg (m.writeWord a) (BitVec.setWidth_eq value).symm

theorem applyStoreWrite_valid (m : MemoryImage) (a : Address) (value : Word) (w : MemoryWidth) :
    applyStoreWrite m { address := a, value := value, width := w, valid := true } =
      if MemoryImage.inBounds a (widthInBytes w) then
        (true, { m with bytes := LittleEndian.store m.bytes a.toNat (widthInBytes w) value })
      else (false, m) := by
  rw [applyStoreWrite_write, MemoryImage.write_spec, LittleEndian.store_setWidth value (Nat.le_refl _)]

/-- A write in bounds, byte by byte; the image's load statistics stay. -/
theorem applyStoreWrite_spec (m : MemoryImage) (a : Address) (value : Word) (w : MemoryWidth)
    (h : MemoryImage.inBounds a (widthInBytes w) = true) :
    (applyStoreWrite m { address := a, value := value, width := w, valid := true }).2 =
      { m with bytes := LittleEndian.store m.bytes a.toNat (widthInBytes w) value } := by
  rw [applyStoreWrite_valid, if_pos h]

/-- A write out of bounds changes nothing. -/
theorem applyStoreWrite_failed {w : PendingStoreWrite}
    (h : MemoryImage.inBounds w.address (widthInBytes w.width) = false) (m : MemoryImage) :
    (applyStoreWrite m w).2 = m := by
  obtain ⟨a, value, width, valid⟩ := w
  cases valid with
  | false => rfl
  | true => rw [applyStoreWrite_valid, if_neg (Bool.eq_false_iff.mp h)]

theorem applyStoreWrite_outside (m : MemoryImage) (w : PendingStoreWrite) {a : Nat}
    (h : a < w.address.toNat ∨ w.address.toNat + widthInBytes w.width ≤ a) :
    (applyStoreWrite m w).2.bytes a = m.bytes a := by
  by_cases hv : w.valid = true
  · cases hb : MemoryImage.inBounds w.address (widthInBytes w.width) with
    | false => rw [applyStoreWrite_failed hb]
    | true =>
      obtain ⟨address, value, width, valid⟩ := w
      obtain rfl : valid = true := hv
      rw [applyStoreWrite_spec _ _ _ _ hb]
      exact LittleEndian.store_outside _ h
  · rw [applyStoreWrite, if_pos (Bool.eq_false_iff.mpr hv)]

end MemoryUnit

end TomasuloCpu
