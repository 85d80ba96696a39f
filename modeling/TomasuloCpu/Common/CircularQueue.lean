/-
  TomasuloCpu.Common.CircularQueue — the queue of fixed capacity (`common/circular_queue.hpp`).

  `head` and `tail` are ints, the size and the capacity `std::size_t`s: an int is
  sign-extended before it meets a `std::size_t`, and the remainder is cut to an int
  again. A full queue and an empty one have the same `head = tail`, only the size tells
  them apart. `ring` is the queue as a ring buffer, `Represents` names the list it
  holds, and every call does to that list what it does to a bounded FIFO
  (`refines_fifo`). A capacity below `2 ^ 31` keeps both indices in the storage.
-/
import TomasuloCpu.Common.Types
import TomasuloCpu.Lib.Fifo
import TomasuloCpu.Lib.Ring

namespace TomasuloCpu

structure CircularQueue (α : Type) (Capacity : BitVec 64) where
  storage : Nat → α
  head : BitVec 32 := 0
  tail : BitVec 32 := 0
  size : BitVec 64 := 0

namespace CircularQueue

variable {α : Type} {Capacity : BitVec 64} {q : CircularQueue α Capacity} {l : List α}

/-- As constructed; `blank` is the value `T{}` of every cell. -/
def new (Capacity : BitVec 64) (blank : α) : CircularQueue α Capacity := { storage := fun _ => blank }

/-- An int as a `std::size_t`. -/
def toSize (i : BitVec 32) : BitVec 64 := i.signExtend 64

def empty (q : CircularQueue α Capacity) : Bool := q.size == 0

def full (q : CircularQueue α Capacity) : Bool := q.size == Capacity

def capacity (_ : CircularQueue α Capacity) : BitVec 64 := Capacity

/-- `none` is the failed assertion, here and in `back`. -/
def front (q : CircularQueue α Capacity) : Option α :=
  if q.empty then none else some (q.storage (toSize q.head).toNat)

def back (q : CircularQueue α Capacity) : Option α :=
  if q.empty then none else some (q.storage ((toSize q.tail + Capacity - 1) % Capacity).toNat)

/-- `(i + 1) % Capacity`, assigned to an int. -/
def advance (Capacity : BitVec 64) (i : BitVec 32) : BitVec 32 := (toSize (i + 1) % Capacity).setWidth 32

def push (q : CircularQueue α Capacity) (v : α) : Bool × CircularQueue α Capacity :=
  if q.full then (false, q)
  else
    (true,
      { q with
        storage := Function.update q.storage (toSize q.tail).toNat v
        tail := advance Capacity q.tail
        size := q.size + 1 })

def pop (q : CircularQueue α Capacity) : Bool × CircularQueue α Capacity :=
  if q.empty then (false, q) else (true, { q with head := advance Capacity q.head, size := q.size - 1 })

def clear (q : CircularQueue α Capacity) : CircularQueue α Capacity := { q with head := 0, tail := 0, size := 0 }

def call (q : CircularQueue α Capacity) : Fifo.Call α → Option Bool × CircularQueue α Capacity
  | .push v => (some (q.push v).1, (q.push v).2)
  | .pop => (some q.pop.1, q.pop.2)
  | .clear => (none, q.clear)

/-- The queue after the calls on a new one. -/
def after (Capacity : BitVec 64) (blank : α) (calls : List (Fifo.Call α)) : CircularQueue α Capacity :=
  Fifo.run call (new Capacity blank) calls

def ring (q : CircularQueue α Capacity) : Ring α := ⟨q.storage, q.head.toNat, q.tail.toNat, q.size.toNat⟩

structure Represents (q : CircularQueue α Capacity) (l : List α) : Prop where
  wf : q.ring.Wf Capacity.toNat
  contents : q.ring.contents Capacity.toNat = l

/-! ## Indices -/

theorem toNat_toSize {i : BitVec 32} (h : i.toNat < 2 ^ 31) : (toSize i).toNat = i.toNat := by
  have hmsb : i.msb = false := by rw [BitVec.msb_eq_decide, decide_eq_false_iff_not]; omega
  rw [toSize, BitVec.signExtend_eq_setWidth_of_msb_false hmsb, BitVec.toNat_setWidth]
  omega

section
variable {i : BitVec 32} (hint : Capacity.toNat < 2 ^ 31) (hi : i.toNat < Capacity.toNat)
include hint hi

/-- The addition does not overflow, since the last index has a successor below `2 ^ 31`. -/
theorem toNat_advance : (advance Capacity i).toNat = (i.toNat + 1) % Capacity.toNat := by
  have hsucc : (i + 1).toNat = i.toNat + 1 := by
    rw [BitVec.toNat_add]
    exact Nat.mod_eq_of_lt (by simp; omega)
  have hlt : (i.toNat + 1) % Capacity.toNat < Capacity.toNat := Nat.mod_lt _ (by omega)
  rw [advance, BitVec.toNat_setWidth, BitVec.toNat_umod, toNat_toSize (by omega), hsucc]
  exact Nat.mod_eq_of_lt (by omega)

theorem toNat_before : ((toSize i + Capacity - 1) % Capacity).toNat = (i.toNat + Capacity.toNat - 1) % Capacity.toNat := by
  have hsize : (toSize i).toNat = i.toNat := toNat_toSize (by omega)
  have hsum : (toSize i + Capacity - 1).toNat = i.toNat + Capacity.toNat - 1 := by
    rw [BitVec.toNat_sub, BitVec.toNat_add, hsize]
    simp
    omega
  rw [BitVec.toNat_umod, hsum]

end

/-! ## The list -/

namespace Represents

theorem length_eq (h : Represents q l) : q.size.toNat = l.length := by
  rw [← h.contents, Ring.length_contents]
  rfl

theorem length_le (h : Represents q l) : l.length ≤ Capacity.toNat := h.length_eq ▸ h.wf.count_le

theorem empty_iff (h : Represents q l) : q.empty = true ↔ l.length = 0 := by
  rw [empty, beq_iff_eq, ← h.length_eq, ← BitVec.toNat_inj]
  rfl

theorem full_iff (h : Represents q l) : q.full = true ↔ l.length = Capacity.toNat := by
  rw [full, beq_iff_eq, ← h.length_eq, ← BitVec.toNat_inj]

theorem empty_eq_false (h : Represents q l) (hl : l ≠ []) : q.empty = false := by
  rw [Bool.eq_false_iff, ne_eq, h.empty_iff, List.length_eq_zero_iff]
  exact hl

theorem size_pos (h : Represents q l) (hl : l ≠ []) : 0 < q.ring.count := by
  show 0 < q.size.toNat
  rw [h.length_eq]
  exact List.length_pos_iff.mpr hl

theorem new (hpos : 0 < Capacity.toNat) (blank : α) : Represents (new Capacity blank) [] :=
  ⟨⟨hpos, (Nat.zero_mod _).symm, Nat.zero_le _⟩, Ring.contents_empty rfl⟩

theorem clear (h : Represents q l) : Represents q.clear [] :=
  ⟨⟨Nat.lt_of_le_of_lt (Nat.zero_le _) h.wf.head_lt, (Nat.zero_mod _).symm, Nat.zero_le _⟩, Ring.contents_empty rfl⟩

theorem tail_lt (h : Represents q l) : q.tail.toNat < Capacity.toNat := by
  show q.ring.tail < Capacity.toNat
  rw [h.wf.tail_eq]
  exact Nat.mod_lt _ (Nat.lt_of_le_of_lt (Nat.zero_le _) h.wf.head_lt)

section
variable (hint : Capacity.toNat < 2 ^ 31) (h : Represents q l)
include hint h

theorem front_eq (hl : l ≠ []) : q.front = l.head? := by
  have hhead : q.head.toNat < Capacity.toNat := h.wf.head_lt
  have hcell := Ring.head?_contents h.wf (h.size_pos hl)
  rw [h.contents] at hcell
  rw [hcell, front, h.empty_eq_false hl, toNat_toSize (by omega)]
  rfl

theorem back_eq (hl : l ≠ []) : q.back = l.getLast? := by
  have hcell := Ring.getLast?_contents h.wf (h.size_pos hl)
  rw [h.contents] at hcell
  rw [hcell, back, h.empty_eq_false hl, toNat_before hint h.tail_lt]
  rfl

theorem push_spec (hroom : l.length < Capacity.toNat) (v : α) :
    (q.push v).1 = true ∧ Represents (q.push v).2 (l ++ [v]) := by
  have hfull : q.full = false := by
    rw [Bool.eq_false_iff, ne_eq, h.full_iff]
    omega
  have hpush : q.push v =
      (true,
        { q with
          storage := Function.update q.storage (toSize q.tail).toNat v
          tail := advance Capacity q.tail
          size := q.size + 1 }) := by
    rw [push, hfull]
    rfl
  have htail := h.tail_lt
  have hcount : q.ring.count < Capacity.toNat := h.length_eq.trans_lt hroom
  have hsize : (q.size + 1).toNat = q.size.toNat + 1 := by
    have hlt : q.size.toNat < Capacity.toNat := hcount
    rw [BitVec.toNat_add]
    exact Nat.mod_eq_of_lt (by simp; omega)
  have hring : (q.push v).2.ring = q.ring.push Capacity.toNat v := by
    rw [hpush, ring, hsize, toNat_advance hint htail, toNat_toSize (by omega)]
    rfl
  refine ⟨by rw [hpush], ?_, ?_⟩
  · rw [hring]
    exact Ring.wf_push h.wf hcount v
  · rw [hring, Ring.contents_push h.wf hcount, h.contents]

/-- The freed cell keeps its value. -/
theorem pop_spec (hl : l ≠ []) : q.pop.1 = true ∧ Represents q.pop.2 l.tail := by
  have hpop : q.pop = (true, { q with head := advance Capacity q.head, size := q.size - 1 }) := by
    rw [pop, h.empty_eq_false hl]
    rfl
  have hcount : 0 < q.ring.count := h.size_pos hl
  have hsize : (q.size - 1).toNat = q.size.toNat - 1 := by
    have hpos : 0 < q.size.toNat := hcount
    have := q.size.isLt
    rw [BitVec.toNat_sub]
    simp
    omega
  have hring : q.pop.2.ring = q.ring.pop Capacity.toNat (q.storage q.head.toNat) := by
    rw [hpop, ring, hsize, toNat_advance hint h.wf.head_lt, Ring.pop]
    congr
    exact (Function.update_eq_self _ _).symm
  refine ⟨by rw [hpop], ?_, ?_⟩
  · rw [hring]
    exact Ring.wf_pop h.wf hcount _
  · rw [hring, Ring.contents_pop h.wf, h.contents]

end

end Represents

/-! ## Calls -/

theorem push_refused (h : Represents q l) (hfull : ¬ l.length < Capacity.toNat) (v : α) : q.push v = (false, q) := by
  have hlen : l.length = Capacity.toNat := Nat.le_antisymm h.length_le (Nat.not_lt.mp hfull)
  rw [push, if_pos (h.full_iff.mpr hlen)]

theorem pop_refused (h : Represents q []) : q.pop = (false, q) := by
  rw [pop, if_pos (h.empty_iff.mpr rfl)]

/-- A refused call leaves the whole queue as it was. -/
theorem call_refused {c : Fifo.Call α} (h : (q.call c).1 = some false) : (q.call c).2 = q := by
  cases c with
  | push v =>
    simp only [call, push] at h ⊢
    by_cases hfull : q.full = true
    · rw [if_pos hfull]
    · rw [if_neg hfull] at h
      cases h
  | pop =>
    simp only [call, pop] at h ⊢
    by_cases hempty : q.empty = true
    · rw [if_pos hempty]
    · rw [if_neg hempty] at h
      cases h
  | clear => cases h

/-- One call does to the list what it does to a bounded FIFO. -/
theorem call_spec (hint : Capacity.toNat < 2 ^ 31) (h : Represents q l) (c : Fifo.Call α) :
    (q.call c).1 = (Fifo.step Capacity.toNat l c).1 ∧ Represents (q.call c).2 (Fifo.step Capacity.toNat l c).2 := by
  cases c with
  | push v =>
    by_cases hroom : l.length < Capacity.toNat
    · obtain ⟨hok, hnext⟩ := h.push_spec hint hroom v
      rw [Fifo.step, if_pos hroom]
      exact ⟨congrArg some hok, hnext⟩
    · rw [call, push_refused h hroom, Fifo.step, if_neg hroom]
      exact ⟨rfl, h⟩
  | pop =>
    by_cases hl : l = []
    · subst hl
      rw [call, pop_refused h]
      exact ⟨rfl, h⟩
    · obtain ⟨hok, hnext⟩ := h.pop_spec hint hl
      rw [Fifo.step, if_pos hl]
      exact ⟨congrArg some hok, hnext⟩
  | clear => exact ⟨rfl, h.clear⟩

theorem refines (hint : Capacity.toNat < 2 ^ 31) :
    Fifo.Refines Capacity.toNat call fun (q : CircularQueue α Capacity) l => Represents q l :=
  ⟨fun h c => (call_spec hint h c).1, fun h c => (call_spec hint h c).2⟩

theorem after_represents (hpos : 0 < Capacity.toNat) (hint : Capacity.toNat < 2 ^ 31) (blank : α)
    (calls : List (Fifo.Call α)) : Represents (after Capacity blank calls) (Fifo.after Capacity.toNat calls) :=
  (refines hint).run (.new hpos blank) calls

/-- After any calls on a new queue there is a list of at most `Capacity` elements, the
    one these calls make of a bounded FIFO: every further call answers as the FIFO's and
    changes nothing when it is refused, the queue shows the list's ends and length, and
    both indices stay in the storage. -/
theorem refines_fifo (Capacity : BitVec 64) (hpos : 0 < Capacity.toNat) (hint : Capacity.toNat < 2 ^ 31) (blank : α)
    (calls : List (Fifo.Call α)) :
    let q := after Capacity blank calls
    let l := Fifo.after Capacity.toNat calls
    l.length ≤ Capacity.toNat ∧
    (∀ c, (q.call c).1 = (Fifo.step Capacity.toNat l c).1) ∧
    (∀ c, (q.call c).1 = some false → (q.call c).2 = q) ∧
    (l ≠ [] → q.front = l.head? ∧ q.back = l.getLast?) ∧
    q.size.toNat = l.length ∧
    (q.empty = true ↔ l.length = 0) ∧
    (q.full = true ↔ l.length = Capacity.toNat) ∧
    q.head.toNat < Capacity.toNat ∧ q.tail.toNat < Capacity.toNat := by
  intro q l
  have h : Represents q l := after_represents hpos hint blank calls
  exact ⟨h.length_le, (refines hint).answer h, fun _ => call_refused,
    fun hl => ⟨h.front_eq hint hl, h.back_eq hint hl⟩, h.length_eq, h.empty_iff, h.full_iff,
    h.wf.head_lt, h.tail_lt⟩

theorem refines_fifo_wraps :
    let q := after 3#64 0 [.push 10, .push 20, .push 30, .pop, .push 40]
    q.front = some 20 ∧ q.back = some 40 ∧ q.full = true ∧ (q.call (.push 50)).1 = some false := by
  intro q
  obtain ⟨-, hanswer, -, hends, -, -, hfull, -⟩ :=
    refines_fifo 3#64 (by decide) (by decide) 0 [.push 10, .push 20, .push 30, .pop, .push 40]
  obtain ⟨hfront, hback⟩ := hends (by decide)
  exact ⟨hfront, hback, hfull.mpr rfl, hanswer _⟩

end CircularQueue

end TomasuloCpu
