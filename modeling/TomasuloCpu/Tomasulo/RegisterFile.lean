/-
  TomasuloCpu.Tomasulo.RegisterFile — committed registers (`tomasulo/register_file.cpp`)
  and the rename table over them (`tomasulo/rename_table.cpp`).
-/
import TomasuloCpu.Isa.Instruction
import Mathlib.Logic.Function.Basic

namespace TomasuloCpu

/-- `0 < idx < kRegisterCount`: x0 and numbers from 32 on name no writable register. -/
def validRegister (idx : RegisterIndex) : Bool := decide (0 < idx.toNat) && decide (idx.toNat < kRegisterCount)

theorem validRegister_of_ne {idx : RegisterIndex} (h0 : idx ≠ 0) (hlt : idx.toNat < kRegisterCount) :
    validRegister idx = true := by
  have hpos : 0 < idx.toNat := Nat.pos_of_ne_zero fun hc => h0 (BitVec.eq_of_toNat_eq hc)
  rw [validRegister, decide_eq_true hpos, decide_eq_true hlt]
  rfl

structure RegisterWrite where
  rd : RegisterIndex := 0
  value : Word := 0
  valid : Bool := false
  deriving DecidableEq, Repr

structure RegisterFile where
  registers : RegisterIndex → Word
  pendingWrite : RegisterWrite

namespace RegisterFile

def reset : RegisterFile := ⟨fun _ => 0, {}⟩

def read (registers : RegisterIndex → Word) (idx : RegisterIndex) : Word :=
  if validRegister idx then registers idx else 0

def apply (m : RegisterFile) (write : RegisterWrite) : RegisterFile :=
  { m with pendingWrite := if validRegister write.rd then write else { write with valid := false } }

def latch (m : RegisterFile) : RegisterFile :=
  let registers :=
    if m.pendingWrite.valid then Function.update m.registers m.pendingWrite.rd m.pendingWrite.value
    else m.registers
  ⟨Function.update registers 0 0, {}⟩

/-- x0 stays zero. -/
@[simp] theorem latch_zero (m : RegisterFile) : m.latch.registers 0 = 0 := by
  simp only [latch, Function.update_self]

/-- A write to a register that exists arrives, and nothing else does. -/
theorem latch_apply {registers : RegisterIndex → Word} (h0 : registers 0 = 0) (write : Bool) {rd : RegisterIndex}
    {value : Word} (hrd : write = true → validRegister rd = true) :
    (latch (apply ⟨registers, {}⟩ (if write then { rd := rd, value := value, valid := true } else {}))).registers =
      if write then Function.update registers rd value else registers := by
  have hzero : ∀ f : RegisterIndex → Word, f 0 = 0 → Function.update f 0 0 = f := by
    intro f hf
    rw [← hf, Function.update_eq_self]
  cases write with
  | false => exact hzero registers h0
  | true =>
    have hne : rd ≠ 0 := by
      rintro rfl
      exact absurd (hrd rfl) (by decide)
    simp only [if_true]
    rw [apply, if_pos (hrd rfl), latch, if_pos rfl]
    exact hzero _ ((Function.update_of_ne hne.symm _ _).trans h0)

end RegisterFile

structure RatWrite where
  rd : RegisterIndex := 0
  tag : RobTag := {}
  valid : Bool := false
  deriving DecidableEq, Repr

structure RatCommit where
  rd : RegisterIndex := 0
  tag : RobTag := {}
  valid : Bool := false
  deriving DecidableEq, Repr

/-- `cur_table_` and `next_table_`: each register's newest uncommitted producer. -/
abbrev RenameTable := Clocked (RegisterIndex → RobTag)

namespace RenameTable

def invalidate : RegisterIndex → RobTag := fun _ => {}

def lookup (table : RegisterIndex → RobTag) (idx : RegisterIndex) : RobTag :=
  if validRegister idx && (table idx).valid then table idx else {}

/-- `apply` on the current table: flush over issue over commit. -/
def step (table : RegisterIndex → RobTag) (issueWrite : RatWrite) (commit : RatCommit) (flush : Bool) :
    RegisterIndex → RobTag :=
  if flush then invalidate
  else
    let committed :=
      if commit.valid && commit.tag.valid && validRegister commit.rd then
        if table commit.rd = commit.tag then Function.update table commit.rd {} else table
      else table
    let issued :=
      if issueWrite.valid && issueWrite.tag.valid && validRegister issueWrite.rd then
        Function.update committed issueWrite.rd issueWrite.tag
      else committed
    Function.update issued 0 {}

def apply (m : RenameTable) (issueWrite : RatWrite) (commit : RatCommit) (flush : Bool) : RenameTable :=
  { m with next := step m.cur issueWrite commit flush }

def latch (m : RenameTable) : RenameTable := { m with cur := Function.update m.next 0 {} }

end RenameTable

end TomasuloCpu
