/-
  TomasuloCpu.Lib.Fifo — the bounded queue as a list.

  A push is refused at `capacity` elements and a pop at none; a refused call changes
  nothing. An implementation that refines one call (`Refines`) refines every run of
  calls (`Refines.run`).
-/
import Mathlib.Data.List.Basic

namespace TomasuloCpu

namespace Fifo

inductive Call (α : Type) where
  | push (v : α)
  | pop
  | clear
  deriving DecidableEq, Repr

variable {α σ : Type} {capacity : Nat} {l : List α}

/-- The call's answer, `none` for a call that returns nothing, and the list after it. -/
def step (capacity : Nat) (l : List α) : Call α → Option Bool × List α
  | .push v => if l.length < capacity then (some true, l ++ [v]) else (some false, l)
  | .pop => if l ≠ [] then (some true, l.tail) else (some false, l)
  | .clear => (none, [])

/-- The state after the calls, the first one first. -/
def run (call : σ → Call α → Option Bool × σ) (s : σ) (calls : List (Call α)) : σ :=
  calls.foldl (fun s c => (call s c).2) s

/-- The list after the calls on an empty queue. -/
def after (capacity : Nat) (calls : List (Call α)) : List α := run (step capacity) [] calls

/-- Every call answers as the list does and leads to a state of the list after it. -/
structure Refines (capacity : Nat) (call : σ → Call α → Option Bool × σ) (R : σ → List α → Prop) : Prop where
  answer : ∀ {s l}, R s l → ∀ c, (call s c).1 = (step capacity l c).1
  next : ∀ {s l}, R s l → ∀ c, R (call s c).2 (step capacity l c).2

theorem Refines.run {call : σ → Call α → Option Bool × σ} {R : σ → List α → Prop} (h : Refines capacity call R)
    {s : σ} (hs : R s l) (calls : List (Call α)) : R (run call s calls) (run (step capacity) l calls) := by
  induction calls generalizing s l with
  | nil => exact hs
  | cons c calls ih => exact ih (h.next hs c)

end Fifo

end TomasuloCpu
