/-
  TomasuloCpu.Common.Bits — the bit helpers as slices and extensions.
-/
import Mathlib.Algebra.Group.Int.Defs
import TomasuloCpu.Common.Types

namespace TomasuloCpu

theorem getLsbD_bitMask {k : Nat} (hk : k < 32) (i : Nat) : (bitMask k).getLsbD i = decide (i < k) := by
  have hmask : bitMask k = BitVec.ofNat 32 (2 ^ k - 1) := by
    have hpos : 0 < 2 ^ k := Nat.two_pow_pos k
    have hlt : 2 ^ k < 2 ^ 32 := Nat.pow_lt_pow_right (by decide) hk
    unfold bitMask
    by_cases h0 : k = 0
    · rw [if_pos h0, h0]
      rfl
    · rw [if_neg h0, if_neg (by omega)]
      apply BitVec.eq_of_toNat_eq
      rw [← BitVec.twoPow_eq, BitVec.toNat_sub, BitVec.toNat_twoPow, BitVec.toNat_ofNat, BitVec.toNat_ofNat,
        Nat.mod_eq_of_lt hlt]
      omega
  rw [hmask, BitVec.getLsbD_ofNat, Nat.testBit_two_pow_sub_one, Bool.and_eq_right_iff_imp, decide_eq_true_iff,
    decide_eq_true_iff]
  omega

/-- A legal range of bits is a slice, extended with zeros. -/
theorem extractBits_eq (w : Word) {high low n : Nat} (hn : high + 1 = low + n) (h0 : 0 < n) (hhigh : high < 32) :
    extractBits w high low = (w.extractLsb' low n).setWidth 32 := by
  have hlegal : ¬ (decide (32 ≤ low) || decide (high < low)) = true := by
    rw [Bool.or_eq_true, decide_eq_true_iff, decide_eq_true_iff]
    omega
  unfold extractBits
  rw [if_neg hlegal]
  simp only [if_pos hhigh]
  rw [show high - low + 1 = n by omega]
  apply BitVec.eq_of_getLsbD_eq
  intro i hi
  rw [BitVec.getLsbD_and, BitVec.getLsbD_ushiftRight, BitVec.getLsbD_setWidth, BitVec.getLsbD_extractLsb']
  by_cases hall : n = 32
  · rw [hall, show bitMask 32 = BitVec.allOnes 32 from rfl, BitVec.getLsbD_allOnes, Bool.and_comm]
    simp [hi]
  · rw [getLsbD_bitMask (by omega)]
    simp [hi, Bool.and_comm]

theorem getBit_eq (w : Word) {position : Nat} (h : position < 32) : getBit w position = w.getLsbD position := by
  rw [getBit, decide_eq_true h, Bool.true_and]
  have hbit : (w >>> position) &&& 1#32 = BitVec.ofNat 32 (w.getLsbD position).toNat := by
    apply BitVec.eq_of_getLsbD_eq
    intro i hi
    cases i with
    | zero => cases hb : w.getLsbD position <;> simp [hb]
    | succ i => cases w.getLsbD position <;> simp
  rw [hbit]
  cases w.getLsbD position <;> rfl

/-- Or-ing ones above bit `k - 1` extends its value. -/
theorem signExtend_eq (x : Word) {k : Nat} (h0 : 0 < k) (hk : k < 32) :
    signExtend x k = (x.setWidth k).signExtend 32 := by
  have hlt : k - 1 < k := by omega
  have hs : ((x &&& bitMask k) &&& 1#32 <<< (k - 1) ≠ 0) ↔ x.getLsbD (k - 1) = true := by
    have hne : BitVec.twoPow 32 (k - 1) ≠ 0 := by
      intro hc
      have := congrArg (fun v => v.getLsbD (k - 1)) hc
      simp at this
      omega
    rw [← BitVec.twoPow_eq, BitVec.and_twoPow, BitVec.getLsbD_and, getLsbD_bitMask hk, decide_eq_true hlt, Bool.and_true]
    cases x.getLsbD (k - 1)
    · simp
    · simpa using hne
  unfold signExtend
  rw [if_neg (by omega), if_neg (by omega)]
  apply BitVec.eq_of_getLsbD_eq
  intro i hi
  rw [BitVec.getLsbD_signExtend, BitVec.msb_eq_getLsbD_last, BitVec.getLsbD_setWidth, BitVec.getLsbD_setWidth]
  by_cases hx : x.getLsbD (k - 1) = true
  · simp only [if_pos (hs.mpr hx), BitVec.getLsbD_or, BitVec.getLsbD_and, BitVec.getLsbD_not, getLsbD_bitMask hk]
    by_cases hik : i < k
    · simp [hik, hi]
    · simp [hik, hi, hx, hlt]
  · simp only [if_neg fun hc => hx (hs.mp hc), BitVec.getLsbD_and, getLsbD_bitMask hk]
    by_cases hik : i < k
    · simp [hik, hi]
    · simp [hik, hi, hx, hlt]

/-! ## Signed fields -/

/-- A word that a field of `n + 1` bits can hold is the extension of its low bits. -/
theorem signExtend_low {n : Nat} {x : Word} (hn : n < 32) (hlow : -(2 ^ n : Int) ≤ x.toInt) (hhigh : x.toInt < 2 ^ n) :
    (x.extractLsb' 0 (n + 1)).signExtend 32 = x := by
  apply BitVec.eq_of_toInt_eq
  rw [BitVec.toInt_signExtend_of_le (by omega), ← BitVec.setWidth_eq_extractLsb' (by omega),
    ← BitVec.signExtend_eq_setWidth_of_le x (by omega), BitVec.toInt_signExtend, Nat.min_eq_left (by omega)]
  apply Int.bmod_eq_of_le
  · rw [Nat.pow_succ]
    push_cast
    omega
  · rw [Nat.pow_succ]
    push_cast
    omega

theorem signExtend_range {n : Nat} (y : BitVec (n + 1)) (hn : n < 32) :
    -(2 ^ n : Int) ≤ (y.signExtend 32).toInt ∧ (y.signExtend 32).toInt < 2 ^ n := by
  rw [BitVec.toInt_signExtend_of_le (by omega)]
  exact ⟨BitVec.le_toInt y, BitVec.toInt_lt⟩

theorem extractLsb'_signExtend {n start len : Nat} (y : BitVec n) (h : start + len ≤ n) (hn : n ≤ 32) :
    (y.signExtend 32).extractLsb' start len = y.extractLsb' start len := by
  apply BitVec.eq_of_getLsbD_eq
  intro i hi
  rw [BitVec.getLsbD_extractLsb', BitVec.getLsbD_extractLsb', BitVec.getLsbD_signExtend]
  simp [hi, show start + i < 32 by omega, show start + i < n by omega]

theorem even_iff (x : Word) : x.toInt % 2 = 0 ↔ x.extractLsb' 0 1 = 0#1 := by
  have hmod : x.toInt % 2 = (x.toNat % 2 : Nat) := by
    rw [BitVec.toInt_eq_toNat_cond]
    split <;> omega
  rw [← BitVec.toNat_inj, BitVec.extractLsb'_toNat, hmod]
  simp
  omega

theorem low_zero_iff (x : Word) (n : Nat) : x.toNat % 2 ^ n = 0 ↔ x.extractLsb' 0 n = 0#n := by
  rw [← BitVec.toNat_inj, BitVec.extractLsb'_toNat, Nat.shiftRight_zero, BitVec.toNat_ofNat, Nat.zero_mod]

theorem low_of_lt {n : Nat} {x : Word} (hn : n ≤ 32) (h : x.toNat < 2 ^ n) : (x.extractLsb' 0 n).setWidth 32 = x := by
  apply BitVec.eq_of_toNat_eq
  rw [BitVec.toNat_setWidth_of_le hn, BitVec.extractLsb'_toNat, Nat.shiftRight_zero, Nat.mod_eq_of_lt h]

/-! ## Fields put together -/

theorem setWidth_injective {k v : Nat} {x y : BitVec k} (hk : k ≤ v) (h : x.setWidth v = y.setWidth v) : x = y := by
  have := congrArg BitVec.toNat h
  rwa [BitVec.toNat_setWidth_of_le hk, BitVec.toNat_setWidth_of_le hk, BitVec.toNat_inj] at this

/-- Two fields side by side, or-ed into a word. -/
theorem shiftLeft_or_shiftLeft {m n : Nat} (x : BitVec m) (y : BitVec n) (k : Nat) :
    (x.setWidth 32 <<< (n + k) ||| y.setWidth 32 <<< k : Word) = (x ++ y).setWidth 32 <<< k := by
  apply BitVec.eq_of_getLsbD_eq
  intro i hi
  simp only [BitVec.getLsbD_or, BitVec.getLsbD_shiftLeft, BitVec.getLsbD_setWidth, BitVec.getLsbD_append, hi,
    decide_true, Bool.true_and]
  by_cases hk : i < k
  · simp [hk, show i < n + k by omega]
  · by_cases hn : i < n + k
    · simp [hk, hn, show i - k < n by omega, show i - k < 32 by omega]
    · have hy : y.getLsbD (i - k) = false := BitVec.getLsbD_of_ge y (i - k) (by omega)
      simp [hk, hn, hy, show ¬ i - k < n by omega, show i - (n + k) < 32 by omega, show i - k < 32 by omega,
        show i - k - n = i - (n + k) by omega]

theorem shiftLeft_eq_append {m : Nat} (x : BitVec m) (k : Nat) :
    (x.setWidth 32 <<< k : Word) = (x ++ 0#k).setWidth 32 := by
  apply BitVec.eq_of_getLsbD_eq
  intro i hi
  simp only [BitVec.getLsbD_shiftLeft, BitVec.getLsbD_setWidth, BitVec.getLsbD_append, hi, decide_true, Bool.true_and]
  by_cases hk : i < k
  · simp [hk]
  · simp [hk, show i - k < 32 by omega]

/-- A bit of one word set in another. -/
theorem setBit_eq (w x : Word) {position : Nat} (h : position < 32) (k : Nat) :
    (if getBit w position then x ||| (1#32 <<< k) else x) = x ||| (w.extractLsb' position 1).setWidth 32 <<< k := by
  have hone : w.extractLsb' position 1 = BitVec.ofBool (w.getLsbD position) := by
    apply BitVec.eq_of_getLsbD_eq
    intro i hi
    obtain rfl : i = 0 := by omega
    simp
  rw [getBit_eq w h, hone]
  cases w.getLsbD position
  · simp
  · rfl

end TomasuloCpu
