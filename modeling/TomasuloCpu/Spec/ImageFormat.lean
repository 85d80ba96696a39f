/-
  TomasuloCpu.Spec.ImageFormat — what a memory image file says.

  A file is a list of words, each on its line (`located`). A word `@` hex sets the
  address, any other word is a byte for the address reached by then (`runningAddress`).
  `Acceptable` says which words may follow which, `fault` what is wrong with one that may
  not, and `placed` lists the bytes with their addresses.
-/
import TomasuloCpu.Memory.Image
import Mathlib.Data.Nat.Digits.Defs

namespace TomasuloCpu.ImageFormat

def words (line : List Char) : List (List Char) := (line.splitOnP MemoryImage.isSpace).filter (· ≠ [])

/-- The words of the text with the numbers of their lines, from 1. -/
def located (text : List Char) : List (Nat × List Char) :=
  ((text.splitOn '\n').zipIdx 1).flatMap fun (line, number) => (words line).map fun word => (number, word)

/-- The number that one or more hex digits denote. -/
def hexValue (digits : List Char) : Option Nat :=
  if digits = [] then none else (digits.mapM MemoryImage.hexDigit).map fun values => Nat.ofDigits 16 values.reverse

def isData (word : List Char) : Bool :=
  match word with
  | '@' :: _ => false
  | _ => true

def advance (address : Option Nat) (word : List Char) : Option Nat :=
  match word with
  | '@' :: digits => hexValue digits
  | _ => address.map (· + 1)

/-- Where the next byte goes after these words; nowhere before the first `@`. -/
def runningAddress (before : List (List Char)) : Option Nat := before.foldl advance none

def Acceptable (before : List (List Char)) (word : List Char) : Prop :=
  match word with
  | '@' :: digits => ∃ v, hexValue digits = some v ∧ v < 2 ^ 20
  | _ => ∃ v address, hexValue word = some v ∧ v ≤ 0xff ∧ runningAddress before = some address ∧ address < 2 ^ 20

/-- What is wrong with a word that is not acceptable. -/
def fault (before : List (List Char)) (word : List Char) : ImageLoadStatus :=
  match word with
  | '@' :: digits =>
    match hexValue digits with
    | none => .invalidAddress
    | some v => if v < 2 ^ 64 then .addressOutOfBounds else .invalidAddress
  | _ =>
    if runningAddress before = none then .missingAddress
    else
      match hexValue word with
      | none => .invalidByte
      | some v => if v ≤ 0xff then .addressOutOfBounds else .invalidByte

/-- The byte that a word is, and where it goes. -/
def placement (before : List (List Char)) (word : List Char) : Option (Nat × Byte) :=
  if isData word then
    match runningAddress before, hexValue word with
    | some address, some v => some (address, BitVec.ofNat 8 v)
    | _, _ => none
  else none

def placedAfter (before : List (List Char)) : List (List Char) → List (Nat × Byte)
  | [] => []
  | word :: rest => (placement before word).toList ++ placedAfter (before ++ [word]) rest

/-- The bytes of the words, in order. -/
def placed (tokens : List (List Char)) : List (Nat × Byte) := placedAfter [] tokens

/-- The byte placed last at an address, zero where none is. -/
def byteAt (bytes : List (Nat × Byte)) (address : Nat) : Byte :=
  ((bytes.filter fun p => p.1 = address).getLast?.map Prod.snd).getD 0

/-- The largest address with a byte. -/
def highest (bytes : List (Nat × Byte)) : Option Nat := (bytes.map Prod.fst).max?

/-- The text's words, each acceptable after the ones before it. -/
def AllAcceptable (tokens : List (Nat × List Char)) : Prop :=
  ∀ before line word after, tokens = before ++ (line, word) :: after → Acceptable (before.map Prod.snd) word

/-! ## One word more -/

theorem runningAddress_snoc (before : List (List Char)) (word : List Char) :
    runningAddress (before ++ [word]) = advance (runningAddress before) word := by
  rw [runningAddress, List.foldl_append]
  rfl

theorem placedAfter_snoc (before tokens : List (List Char)) (word : List Char) :
    placedAfter before (tokens ++ [word]) = placedAfter before tokens ++ (placement (before ++ tokens) word).toList := by
  induction tokens generalizing before with
  | nil => simp [placedAfter]
  | cons t tokens ih => simp [placedAfter, ih]

theorem placed_snoc (tokens : List (List Char)) (word : List Char) :
    placed (tokens ++ [word]) = placed tokens ++ (placement tokens word).toList :=
  placedAfter_snoc [] tokens word

theorem byteAt_snoc (bytes : List (Nat × Byte)) (address : Nat) (v : Byte) :
    byteAt (bytes ++ [(address, v)]) = Function.update (byteAt bytes) address v := by
  funext a
  rw [Function.update_apply, byteAt, List.filter_append]
  by_cases h : a = address
  · simp [h]
  · simp [h, Ne.symm h, byteAt]

theorem highest_snoc (bytes : List (Nat × Byte)) (address : Nat) (v : Byte) :
    highest (bytes ++ [(address, v)]) = some ((highest bytes).elim address fun h => max h address) := by
  cases bytes with
  | nil => rfl
  | cons p bytes =>
    simp only [highest, List.cons_append, List.map_cons, List.map_append, List.map_nil, List.max?_cons',
      List.foldl_append, List.foldl_cons, List.foldl_nil, Option.elim_some]

end TomasuloCpu.ImageFormat
