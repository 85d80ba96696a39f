/-
  TomasuloCpu.Memory.Image — the byte image and its text loader (`memory/image.cpp`).

  `Istream` is what the loader is given: the characters that could be read from the stream,
  and whether it went bad behind them instead of ending. `fromChars` and `isSpace` follow
  `std::from_chars` in base 16 for a `std::uint64_t` and the classic locale's `isspace`.
-/
import TomasuloCpu.Common.Types
import Mathlib.Logic.Function.Basic

namespace TomasuloCpu

structure Istream where
  text : List Char
  bad : Bool := false

inductive ImageLoadStatus where
  | success
  | invalidAddress
  | invalidByte
  | missingAddress
  | addressOutOfBounds
  | streamError
  deriving DecidableEq, Repr

structure ImageLoadResult where
  status : ImageLoadStatus := .success
  loadedByteCount : Nat := 0
  errorLine : Nat := 0
  errorToken : List Char := []
  deriving DecidableEq, Repr

def ImageLoadResult.ok (r : ImageLoadResult) : Bool := r.status == .success

structure MemoryImage where
  bytes : Nat → Byte
  loadByteCount : Nat
  highestLoadedAddress : Option Address

namespace MemoryImage

def clear : MemoryImage := ⟨fun _ => 0, 0, none⟩

/-! ## Text -/

/-- `std::getline` until it fails; `line` is the line being read. A final newline starts
    no further line. -/
def linesFrom (line : List Char) : List Char → List (List Char)
  | [] => if line = [] then [] else [line]
  | c :: rest => if c = '\n' then line :: linesFrom [] rest else linesFrom (line ++ [c]) rest

def lines (text : List Char) : List (List Char) := linesFrom [] text

/-- A stream that goes bad takes the line along that is being read. -/
def delivered (input : Istream) : List Char :=
  if input.bad then (input.text.reverse.dropWhile (· ≠ '\n')).reverse else input.text

def isSpace (c : Char) : Bool :=
  c == ' ' || c == '\t' || c == '\n' || c == '\x0b' || c == '\x0c' || c == '\r'

/-- `line_stream >> token` until it fails; `token` is the token being read. -/
def tokensFrom (token : List Char) : List Char → List (List Char)
  | [] => if token = [] then [] else [token]
  | c :: rest =>
    if isSpace c then if token = [] then tokensFrom [] rest else token :: tokensFrom [] rest
    else tokensFrom (token ++ [c]) rest

def tokens (line : List Char) : List (List Char) := tokensFrom [] line

def hexDigit (c : Char) : Option Nat :=
  if '0' ≤ c ∧ c ≤ '9' then some (c.toNat - '0'.toNat)
  else if 'a' ≤ c ∧ c ≤ 'f' then some (c.toNat - 'a'.toNat + 10)
  else if 'A' ≤ c ∧ c ≤ 'F' then some (c.toNat - 'A'.toNat + 10)
  else none

/-- The number read from the leading hex digits, and the position after them;
    `none` without a digit or when the number does not fit 64 bits. -/
def fromChars (text : List Char) : Option (Nat × List Char) :=
  let digits := text.takeWhile fun c => (hexDigit c).isSome
  let value := digits.foldl (fun v c => 16 * v + (hexDigit c).getD 0) 0
  if digits = [] ∨ 2 ^ 64 ≤ value then none else some (value, text.drop digits.length)

def parseHex (text : List Char) : Option Nat :=
  if text = [] then none
  else
    match fromChars text with
    | some (value, []) => some value
    | _ => none

/-! ## Loading -/

/-- The locals of `MemoryImage::load`. -/
structure Loader where
  image : MemoryImage
  currentAddress : Nat := 0
  hasCurrentAddress : Bool := false
  bytesLoaded : Nat := 0

def loadByte (st : Loader) (parsedByte : Nat) : Loader :=
  let loadedAddress : Address := BitVec.ofNat 32 st.currentAddress
  { st with
    image :=
      { bytes := Function.update st.image.bytes st.currentAddress (BitVec.ofNat 8 parsedByte)
        loadByteCount := st.bytesLoaded + 1
        highestLoadedAddress :=
          match st.image.highestLoadedAddress with
          | none => some loadedAddress
          | some highest => if highest < loadedAddress then some loadedAddress else some highest }
    bytesLoaded := st.bytesLoaded + 1
    currentAddress := st.currentAddress + 1 }

def loadToken (st : Loader) (token : List Char) : Except ImageLoadStatus Loader :=
  match token with
  | '@' :: addressText =>
    match parseHex addressText with
    | none => .error .invalidAddress
    | some parsedAddress =>
      if kMemorySize ≤ parsedAddress then .error .addressOutOfBounds
      else .ok { st with currentAddress := parsedAddress, hasCurrentAddress := true }
  | _ =>
    if st.hasCurrentAddress = false then .error .missingAddress
    else
      match parseHex token with
      | none => .error .invalidByte
      | some parsedByte =>
        if 0xff < parsedByte then .error .invalidByte
        else if kMemorySize ≤ st.currentAddress then .error .addressOutOfBounds
        else .ok (loadByte st parsedByte)

def loadTokens (lineNumber : Nat) (st : Loader) : List (List Char) → Loader × Option ImageLoadResult
  | [] => (st, none)
  | token :: rest =>
    match loadToken st token with
    | .error status => (st, some ⟨status, st.bytesLoaded, lineNumber, token⟩)
    | .ok st' => loadTokens lineNumber st' rest

def loadLines (lineNumber : Nat) (st : Loader) : List (List Char) → Loader × Option ImageLoadResult
  | [] => (st, none)
  | line :: rest =>
    match loadTokens (lineNumber + 1) st (tokens line) with
    | (st', some result) => (st', some result)
    | (st', none) => loadLines (lineNumber + 1) st' rest

def load (input : Istream) : ImageLoadResult × MemoryImage :=
  match loadLines 0 { image := clear } (lines (delivered input)) with
  | (st, some result) => (result, st.image)
  | (st, none) =>
    ({ status := if input.bad then .streamError else .success, loadedByteCount := st.bytesLoaded }, st.image)

/-! ## Access -/

def inBounds (address : Address) (width : Nat) : Bool :=
  if kMemorySize < width then false else decide (address.toNat ≤ kMemorySize - width)

def readByte (m : MemoryImage) (address : Address) : Option Byte :=
  if inBounds address 1 then some (m.bytes address.toNat) else none

def readHalf (m : MemoryImage) (address : Address) : Option HalfWord :=
  if inBounds address 2 then
    let start := address.toNat
    let low : HalfWord := (m.bytes start).setWidth 16
    let high : HalfWord := (m.bytes (start + 1)).setWidth 16
    some (low ||| (high <<< 8))
  else none

def readWord (m : MemoryImage) (address : Address) : Option Word :=
  if inBounds address 4 then
    let start := address.toNat
    some ((m.bytes start).setWidth 32 |||
      ((m.bytes (start + 1)).setWidth 32 <<< 8) |||
      ((m.bytes (start + 2)).setWidth 32 <<< 16) |||
      ((m.bytes (start + 3)).setWidth 32 <<< 24))
  else none

/-- The writes return whether they succeeded and the image after them. -/
def writeByte (m : MemoryImage) (address : Address) (value : Byte) : Bool × MemoryImage :=
  if inBounds address 1 then (true, { m with bytes := Function.update m.bytes address.toNat value })
  else (false, m)

def writeHalf (m : MemoryImage) (address : Address) (value : HalfWord) : Bool × MemoryImage :=
  if inBounds address 2 then
    let start := address.toNat
    let bytes := Function.update m.bytes start ((value &&& 0xff).setWidth 8)
    let bytes := Function.update bytes (start + 1) (((value >>> 8) &&& 0xff).setWidth 8)
    (true, { m with bytes := bytes })
  else (false, m)

def writeWord (m : MemoryImage) (address : Address) (value : Word) : Bool × MemoryImage :=
  if inBounds address 4 then
    let start := address.toNat
    let bytes := Function.update m.bytes start ((value &&& 0xff).setWidth 8)
    let bytes := Function.update bytes (start + 1) (((value >>> 8) &&& 0xff).setWidth 8)
    let bytes := Function.update bytes (start + 2) (((value >>> 16) &&& 0xff).setWidth 8)
    let bytes := Function.update bytes (start + 3) (((value >>> 24) &&& 0xff).setWidth 8)
    (true, { m with bytes := bytes })
  else (false, m)

end MemoryImage

end TomasuloCpu
