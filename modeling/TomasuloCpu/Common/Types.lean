/-
  TomasuloCpu.Common.Types — fixed-width types, ROB tags and bit helpers
  (`common/types.hpp`, `common/config.hpp`).

  A `std::uintN_t` is a `BitVec N`, so arithmetic wraps where the code's does. An array
  is a total function on its index; every access the code makes is guarded by a bound
  that the model keeps.
-/
import Mathlib.Algebra.Group.Nat.Defs

namespace TomasuloCpu

abbrev Byte := BitVec 8
abbrev HalfWord := BitVec 16
abbrev Word := BitVec 32
abbrev Address := BitVec 32
abbrev InstructionBits := BitVec 32
abbrev RegisterIndex := BitVec 8
abbrev CycleCount := BitVec 64
abbrev RobIndex := BitVec 32
abbrev TagGeneration := BitVec 32

def kMemorySize : Nat := 1 <<< 20
def kInstructionWidth : Address := 4
def kRegisterCount : Nat := 32

/-- `index` names a ROB slot, `generation` tells the slot's successive users apart. -/
structure RobTag where
  index : RobIndex := 0
  generation : TagGeneration := 0
  valid : Bool := false
  deriving DecidableEq, Repr

def bitMask (bitWidth : Nat) : Word :=
  if bitWidth = 0 then 0
  else if 32 ≤ bitWidth then BitVec.allOnes 32
  else (1#32 <<< bitWidth) - 1#32

def getBit (value : Word) (position : Nat) : Bool :=
  decide (position < 32) && ((value >>> position) &&& 1#32) != 0#32

/-- `high` and `low` are inclusive; an illegal range gives 0, `high` is cut at 31. -/
def extractBits (value : Word) (high low : Nat) : Word :=
  if 32 ≤ low || high < low then 0
  else
    let boundedHigh := if high < 32 then high else 31
    (value >>> low) &&& bitMask (boundedHigh - low + 1)

def signExtend (value : Word) (bitWidth : Nat) : Word :=
  if bitWidth = 0 then 0
  else if 32 ≤ bitWidth then value
  else
    let narrowed := value &&& bitMask bitWidth
    let signBit := 1#32 <<< (bitWidth - 1)
    if narrowed &&& signBit ≠ 0 then narrowed ||| ~~~bitMask bitWidth else narrowed

def zeroExtend (value : Word) (bitWidth : Nat) : Word := value &&& bitMask bitWidth

end TomasuloCpu
