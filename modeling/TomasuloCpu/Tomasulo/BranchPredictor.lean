/-
  TomasuloCpu.Tomasulo.BranchPredictor — 256 two-bit counters and the two statistics
  (`tomasulo/branch_predictor.cpp`).
-/
import TomasuloCpu.Common.Types
import TomasuloCpu.Isa.Instruction
import Mathlib.Logic.Function.Basic

namespace TomasuloCpu

structure BranchPredictorUpdate where
  pc : Address := 0
  actualTaken : Bool := false
  predictedNextPc : Address := 0
  actualNextPc : Address := 0
  /-- Set for committed conditional branches only. -/
  valid : Bool := false
  deriving DecidableEq, Repr

structure PredictorState where
  counters : Nat → BitVec 8
  predictionCount : CycleCount
  correctCount : CycleCount

abbrev BranchPredictor := Clocked PredictorState

namespace BranchPredictor

def kTableSize : Nat := 256
def kStrongNotTaken : BitVec 8 := 0
def kWeakNotTaken : BitVec 8 := 1
def kWeakTaken : BitVec 8 := 2
def kStrongTaken : BitVec 8 := 3

def resetState : PredictorState := ⟨fun _ => kWeakNotTaken, 0, 0⟩

def indexOf (pc : Address) : Nat := ((pc >>> 2) &&& BitVec.ofNat 32 (kTableSize - 1)).toNat

def predictTaken (s : PredictorState) (pc : Address) : Bool := decide (kWeakTaken ≤ s.counters (indexOf pc))

def train (state : BitVec 8) (taken : Bool) : BitVec 8 :=
  if taken then if state < kStrongTaken then state + 1 else state
  else if kStrongNotTaken < state then state - 1 else state

def step (s : PredictorState) (update : BranchPredictorUpdate) : PredictorState :=
  if update.valid = false then s
  else
    let index := indexOf update.pc
    { counters := Function.update s.counters index (train (s.counters index) update.actualTaken)
      predictionCount := s.predictionCount + 1
      correctCount :=
        if update.predictedNextPc = update.actualNextPc then s.correctCount + 1 else s.correctCount }

def apply (m : BranchPredictor) (update : BranchPredictorUpdate) : BranchPredictor :=
  { m with next := step m.cur update }

end BranchPredictor

end TomasuloCpu
