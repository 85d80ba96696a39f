/-
  TomasuloCpu.Lib.LittleEndian — numbers of whole bytes in a byte memory.

  `load bytes start width` is the number whose little-endian digits are the `width` bytes
  from `start` on; `store` replaces these bytes by the low ones of a number.
-/
import Mathlib.Data.Nat.Digits.Defs
import Mathlib.Logic.Function.Basic

namespace TomasuloCpu

namespace LittleEndian

variable {n : Nat} {bytes bytes' : Nat → BitVec 8} {start width : Nat}

def load (bytes : Nat → BitVec 8) (start : Nat) : Nat → BitVec n
  | 0 => 0#n
  | width + 1 => (bytes start).setWidth n ||| load bytes (start + 1) width <<< 8

def store (bytes : Nat → BitVec 8) (start width : Nat) (value : BitVec n) (a : Nat) : BitVec 8 :=
  if start ≤ a ∧ a < start + width then (value >>> (8 * (a - start))).setWidth 8 else bytes a

/-- The number whose digits in base 256 are the `width` bytes from `start` on. -/
def number (bytes : Nat → BitVec 8) (start width : Nat) : Nat :=
  Nat.ofDigits 256 ((List.range width).map fun k => (bytes (start + k)).toNat)

/-- A load sees only its own bytes. -/
theorem load_congr (h : ∀ a, start ≤ a → a < start + width → bytes a = bytes' a) :
    load (n := n) bytes start width = load bytes' start width := by
  induction width generalizing start with
  | zero => rfl
  | succ width ih =>
    rw [load, load, h start (Nat.le_refl _) (by omega), ih fun a ha hlt => h a (by omega) (by omega)]

/-- Bit `i` of a load is bit `i % 8` of byte `i / 8`. -/
theorem getLsbD_load (i : Nat) :
    (load (n := n) bytes start width).getLsbD i =
      (decide (i < n) && decide (i < 8 * width) && (bytes (start + i / 8)).getLsbD (i % 8)) := by
  induction width generalizing start i with
  | zero => simp [load]
  | succ width ih =>
    rw [load, BitVec.getLsbD_or, BitVec.getLsbD_shiftLeft, BitVec.getLsbD_setWidth, ih]
    by_cases h : i < 8
    · have hdiv : i / 8 = 0 := by omega
      have hmod : i % 8 = i := by omega
      simp [h, hdiv, hmod, show i < 8 * (width + 1) by omega]
    · have hdiv : start + 1 + (i - 8) / 8 = start + i / 8 := by omega
      have hmod : (i - 8) % 8 = i % 8 := by omega
      have hlt : i - 8 < 8 * width ↔ i < 8 * (width + 1) := by omega
      rw [BitVec.getLsbD_of_ge (bytes start) i (by omega), hdiv, hmod]
      by_cases hi : i < n
      · simp [h, hi, hlt, show i - 8 < n by omega]
      · simp [hi]

/-- A load has no bits above its bytes. -/
theorem load_high {i : Nat} (h : 8 * width ≤ i) : (load (n := n) bytes start width).getLsbD i = false := by
  rw [getLsbD_load, decide_eq_false (by omega : ¬ i < 8 * width), Bool.and_false, Bool.false_and]

/-- A load that fits its number fits any other. -/
theorem setWidth_load {k : Nat} (h : 8 * width ≤ n) :
    (load (n := n) bytes start width).setWidth k = load (n := k) bytes start width := by
  apply BitVec.eq_of_getLsbD_eq
  intro i hi
  rw [BitVec.getLsbD_setWidth, getLsbD_load, getLsbD_load]
  by_cases hw : i < 8 * width
  · simp [hi, hw, show i < n by omega]
  · simp [hw]

theorem number_succ : number bytes start (width + 1) = (bytes start).toNat + 256 * number bytes (start + 1) width := by
  unfold number
  rw [List.range_succ_eq_map, List.map_cons, List.map_map, Nat.ofDigits_cons]
  simp only [Function.comp_def, Nat.succ_eq_add_one, Nat.add_zero, Nat.add_assoc, Nat.add_comm 1]

theorem number_lt : number bytes start width < 2 ^ (8 * width) := by
  rw [number, Nat.pow_mul]
  refine Nat.lt_of_lt_of_eq (Nat.ofDigits_lt_base_pow_length (by decide) ?_) (by simp)
  intro x hx
  obtain ⟨k, -, rfl⟩ := List.mem_map.mp hx
  exact (bytes _).isLt

theorem toNat_load (h : 8 * width ≤ n) : (load (n := n) bytes start width).toNat = number bytes start width := by
  induction width generalizing start with
  | zero => simp [load, number]
  | succ width ih =>
    have hrest : (load (n := n) bytes (start + 1) width).toNat = number bytes (start + 1) width := ih (by omega)
    have hfit : number bytes (start + 1) width <<< 8 < 2 ^ n := by
      rw [Nat.shiftLeft_eq]
      calc _ < 2 ^ (8 * width) * 2 ^ 8 := Nat.mul_lt_mul_of_pos_right number_lt (by decide)
        _ = 2 ^ (8 * (width + 1)) := (Nat.pow_add 2 (8 * width) 8).symm
        _ ≤ 2 ^ n := Nat.pow_le_pow_right (by decide) h
    have hbyte : (bytes start).toNat < 2 ^ 8 := (bytes start).isLt
    have hsmall : (bytes start).toNat < 2 ^ n :=
      Nat.lt_of_lt_of_le hbyte (Nat.pow_le_pow_right (by decide) (by omega))
    rw [load, BitVec.toNat_or, BitVec.toNat_shiftLeft, BitVec.toNat_setWidth, hrest, Nat.mod_eq_of_lt hfit,
      Nat.mod_eq_of_lt hsmall, Nat.or_comm, ← Nat.shiftLeft_add_eq_or_of_lt hbyte, Nat.shiftLeft_eq, number_succ]
    omega

theorem store_outside (value : BitVec n) {a : Nat} (h : a < start ∨ start + width ≤ a) :
    store bytes start width value a = bytes a := by
  rw [store, if_neg (by omega)]

/-- A store of one byte more writes that byte last. -/
theorem store_succ (value : BitVec n) :
    store bytes start (width + 1) value =
      Function.update (store bytes start width value) (start + width) ((value >>> (8 * width)).setWidth 8) := by
  funext a
  by_cases h : a = start + width
  · rw [h, Function.update_self, store, if_pos (by omega), Nat.add_sub_cancel_left]
  · rw [Function.update_of_ne h]
    unfold store
    by_cases hin : start ≤ a ∧ a < start + width
    · rw [if_pos hin, if_pos (by omega)]
    · rw [if_neg hin, if_neg (by omega)]

/-- A stored byte is the slice of the number at its place. -/
theorem store_slice (value : BitVec n) :
    store bytes start width value = fun a =>
      if start ≤ a ∧ a < start + width then value.extractLsb' (8 * (a - start)) 8 else bytes a := by
  funext a
  unfold store
  rw [BitVec.setWidth_ushiftRight_eq_extractLsb]

theorem store_zero (value : BitVec n) : store bytes start 0 value = bytes := by
  funext a
  exact store_outside value (by omega)

theorem store_setWidth {k : Nat} (value : BitVec n) (h : 8 * width ≤ k) :
    store bytes start width (value.setWidth k) = store bytes start width value := by
  funext a
  unfold store
  split
  · apply BitVec.eq_of_getLsbD_eq
    intro i hi
    simp only [BitVec.getLsbD_setWidth, BitVec.getLsbD_ushiftRight, hi, show 8 * (a - start) + i < k by omega,
      decide_true, Bool.true_and]
  · rfl

end LittleEndian

end TomasuloCpu
