/-
  TomasuloCpu.Tomasulo.CommonDataBus — one broadcast a cycle, arbitrated round-robin
  (`tomasulo/common_data_bus.cpp`).
-/
import TomasuloCpu.Isa.Instruction

namespace TomasuloCpu

inductive CdbSource where
  | none
  | integerUnit
  | loadUnit
  deriving DecidableEq, Repr

structure CdbInputs where
  integerResult : FuResult := {}
  loadResult : FuResult := {}

structure CdbOutputs where
  /-- To Issue, RS and LSQ. -/
  broadcast : CdbMsg := {}
  /-- To the ROB, in full. -/
  completion : FuResult := {}
  source : CdbSource := .none
  integerGranted : Bool := false
  loadGranted : Bool := false

structure CdbDecision where
  outputs : CdbOutputs := {}
  nextPreferLoad : Bool := false

/-- `prefer_load` and `next_prefer_load`. -/
abbrev CommonDataBus := Clocked Bool

namespace CommonDataBus

def validCandidate (result : FuResult) : Bool := result.valid && result.tag.valid

def selectInteger (result : FuResult) : CdbOutputs :=
  { source := .integerUnit, integerGranted := true, completion := result
    broadcast := { tag := result.tag, value := result.result, valid := true } }

def selectLoad (result : FuResult) : CdbOutputs :=
  { source := .loadUnit, loadGranted := true, completion := result
    broadcast := { tag := result.tag, value := result.result, valid := true } }

def plan (preferLoad : Bool) (inputs : CdbInputs) : CdbDecision :=
  let integerValid := validCandidate inputs.integerResult
  let loadValid := validCandidate inputs.loadResult
  if !integerValid && !loadValid then { nextPreferLoad := preferLoad }
  else if integerValid && loadValid then
    if preferLoad then { outputs := selectLoad inputs.loadResult, nextPreferLoad := false }
    else { outputs := selectInteger inputs.integerResult, nextPreferLoad := true }
  else if integerValid then { outputs := selectInteger inputs.integerResult, nextPreferLoad := true }
  else { outputs := selectLoad inputs.loadResult, nextPreferLoad := false }

def apply (m : CommonDataBus) (decision : CdbDecision) : CommonDataBus :=
  { m with next := decision.nextPreferLoad }

end CommonDataBus

end TomasuloCpu
