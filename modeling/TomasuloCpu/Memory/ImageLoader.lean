/-
  TomasuloCpu.Memory.ImageLoader — the loader accepts its format and loads its meaning.

  Reading line by line and word by word is reading the located words (`loadLines_eq`).
  `Loaded` says what the loader's locals hold after some words; an acceptable word keeps
  it, any other ends the load with its fault (`loadToken_spec`).
-/
import Mathlib.Data.List.Induction
import Mathlib.Data.List.TakeWhile
import TomasuloCpu.Spec.ImageFormat

namespace TomasuloCpu

namespace MemoryImage

open ImageFormat

/-! ## Words and lines -/

theorem tokensFrom_eq (token rest : List Char) :
    tokensFrom token rest = (List.splitOnPPrepend isSpace rest token.reverse).filter (· ≠ []) := by
  induction rest generalizing token with
  | nil => by_cases h : token = [] <;> simp [tokensFrom, h]
  | cons c rest ih =>
    by_cases hc : isSpace c = true
    · rw [List.splitOnPPrepend_cons_pos hc, List.reverse_reverse]
      by_cases h : token = []
      · simp [tokensFrom, hc, h, ih]
      · simp [tokensFrom, hc, h, ih]
    · rw [List.splitOnPPrepend_cons_neg (by simpa using hc)]
      simp [tokensFrom, hc, ih]

theorem tokens_eq (line : List Char) : tokens line = words line := tokensFrom_eq [] line

/-- The words of numbered lines. -/
def locatedFrom (number : Nat) (lines : List (List Char)) : List (Nat × List Char) :=
  (lines.zipIdx number).flatMap fun (line, number) => (words line).map fun word => (number, word)

theorem locatedFrom_cons (number : Nat) (line : List Char) (lines : List (List Char)) :
    locatedFrom number (line :: lines) = (words line).map (number, ·) ++ locatedFrom (number + 1) lines := by
  simp [locatedFrom]

theorem locatedFrom_lines (number : Nat) (line text : List Char) :
    locatedFrom number (linesFrom line text) = locatedFrom number (List.splitOnPPrepend (· == '\n') text line.reverse) := by
  induction text generalizing number line with
  | nil =>
    by_cases h : line = []
    · rw [h]
      rfl
    · simp [linesFrom, h]
  | cons c text ih =>
    by_cases hc : c = '\n'
    · rw [List.splitOnPPrepend_cons_pos (by simp [hc])]
      simp [linesFrom, hc, locatedFrom_cons, ih]
    · rw [List.splitOnPPrepend_cons_neg (by simp [hc])]
      simp [linesFrom, hc, ih]

theorem locatedFrom_text (text : List Char) : locatedFrom 1 (lines text) = located text :=
  locatedFrom_lines 1 [] text

/-! ## Hex numbers -/

theorem mapM_hexDigit (text : List Char) :
    text.mapM hexDigit =
      if text.all fun c => (hexDigit c).isSome then some (text.map fun c => (hexDigit c).getD 0) else none := by
  induction text with
  | nil => rfl
  | cons c text ih =>
    rw [List.mapM_cons, ih, List.all_cons]
    cases hd : hexDigit c with
    | none => rfl
    | some d => cases text.all (fun c => (hexDigit c).isSome) <;> simp [hd]

/-- Horner's rule from the most significant digit. -/
theorem foldl_digits (digit : Char → Nat) (text : List Char) :
    text.foldl (fun v c => 16 * v + digit c) 0 = Nat.ofDigits 16 (text.map digit).reverse := by
  induction text using List.reverseRecOn with
  | nil => rfl
  | append_singleton text c ih =>
    rw [List.foldl_append, List.map_append, List.reverse_append, ih]
    show 16 * _ + digit c = Nat.ofDigits 16 (digit c :: (text.map digit).reverse)
    rw [Nat.ofDigits_cons, Nat.add_comm]

theorem parseHex_eq (text : List Char) : parseHex text = (hexValue text).filter (· < 2 ^ 64) := by
  unfold parseHex hexValue fromChars
  by_cases h0 : text = []
  · rw [if_pos h0, if_pos h0]
    rfl
  · rw [if_neg h0, if_neg h0, mapM_hexDigit]
    by_cases hall : (text.all fun c => (hexDigit c).isSome) = true
    · have htake : (text.takeWhile fun c => (hexDigit c).isSome) = text := by
        rw [List.takeWhile_eq_self_iff]
        simpa using hall
      simp only [htake, hall, if_true, Option.map_some, List.drop_length, foldl_digits]
      by_cases hv : 2 ^ 64 ≤ Nat.ofDigits 16 (text.map fun c => (hexDigit c).getD 0).reverse
      · rw [if_pos (.inr hv), Option.filter_some, if_neg (by simpa using hv)]
      · rw [if_neg (fun hc => hc.elim h0 hv), Option.filter_some, if_pos (decide_eq_true (Nat.lt_of_not_le hv))]
    · have hrest : text.drop (text.takeWhile fun c => (hexDigit c).isSome).length ≠ [] := by
        intro hc
        have htake := (List.takeWhile_prefix fun c => (hexDigit c).isSome).eq_of_length_le
          (List.drop_eq_nil_iff.mp hc)
        rw [List.takeWhile_eq_self_iff] at htake
        exact hall (by simpa using htake)
      rw [if_neg hall, Option.map_none, Option.filter_none]
      by_cases hfails : (text.takeWhile fun c => (hexDigit c).isSome) = [] ∨
          2 ^ 64 ≤ (text.takeWhile fun c => (hexDigit c).isSome).foldl (fun v c => 16 * v + (hexDigit c).getD 0) 0
      · simp only [if_pos hfails]
      · simp only [if_neg hfails]
        cases hd : text.drop (text.takeWhile fun c => (hexDigit c).isSome).length with
        | nil => exact absurd hd hrest
        | cons c rest => rfl

/-! ## The loader on located words -/

def loadLocated (st : Loader) : List (Nat × List Char) → Loader × Option ImageLoadResult
  | [] => (st, none)
  | (line, token) :: rest =>
    match loadToken st token with
    | .error status => (st, some ⟨status, st.bytesLoaded, line, token⟩)
    | .ok st' => loadLocated st' rest

theorem loadLocated_append (lineNumber : Nat) (st : Loader) (line : List (List Char)) (rest : List (Nat × List Char)) :
    loadLocated st (line.map (lineNumber, ·) ++ rest) =
      (loadTokens lineNumber st line).2.elim (loadLocated (loadTokens lineNumber st line).1 rest)
        fun result => ((loadTokens lineNumber st line).1, some result) := by
  induction line generalizing st with
  | nil => rfl
  | cons token line ih =>
    simp only [List.map_cons, List.cons_append, loadLocated, loadTokens]
    cases loadToken st token with
    | error status => rfl
    | ok st' => exact ih st'

theorem loadLines_eq (lineNumber : Nat) (st : Loader) (lines : List (List Char)) :
    loadLines lineNumber st lines = loadLocated st (locatedFrom (lineNumber + 1) lines) := by
  induction lines generalizing lineNumber st with
  | nil => rfl
  | cons line lines ih =>
    rw [locatedFrom_cons, loadLocated_append, loadLines, tokens_eq]
    rcases loadTokens (lineNumber + 1) st (words line) with ⟨st', result⟩
    cases result with
    | none => exact ih (lineNumber + 1) st'
    | some result => rfl

/-! ## One word -/

theorem isData_cases (token : List Char) : (∃ digits, token = '@' :: digits) ∨ isData token = true := by
  unfold isData
  split
  · exact .inl ⟨_, rfl⟩
  · exact .inr rfl

/-- What the loader's locals hold after the words `done`. -/
structure Loaded (done : List (List Char)) (st : Loader) : Prop where
  address : runningAddress done = if st.hasCurrentAddress then some st.currentAddress else none
  bytes : st.image.bytes = byteAt (placed done)
  count : st.image.loadByteCount = st.bytesLoaded
  loaded : st.bytesLoaded = done.countP isData
  highest : st.image.highestLoadedAddress = (highest (placed done)).map (BitVec.ofNat 32)
  all : (placed done).length = done.countP isData
  inside : ∀ p ∈ placed done, p.1 < 2 ^ 20

theorem loaded_nil : Loaded [] { image := clear } := by
  refine ⟨rfl, rfl, rfl, rfl, rfl, rfl, ?_⟩
  intro p hp
  cases hp

variable {done : List (List Char)} {st : Loader} {token : List Char}

theorem advance_data (a : Option Nat) (h : isData token = true) : advance a token = a.map (· + 1) := by
  unfold advance
  split
  · cases h
  · rfl

theorem acceptable_data (h : isData token = true) : Acceptable done token ↔
    ∃ v a, hexValue token = some v ∧ v ≤ 0xff ∧ runningAddress done = some a ∧ a < 2 ^ 20 := by
  unfold Acceptable
  split
  · cases h
  · exact Iff.rfl

theorem fault_data (h : isData token = true) : fault done token =
    if runningAddress done = none then .missingAddress
    else (hexValue token).elim .invalidByte fun v => if v ≤ 0xff then .addressOutOfBounds else .invalidByte := by
  unfold fault
  split
  · cases h
  · cases hexValue token <;> rfl

theorem loadToken_address (digits : List Char) (h : Loaded done st) {v : Nat} (hv : hexValue digits = some v)
    (hlt : v < 2 ^ 20) :
    ∃ st', loadToken st ('@' :: digits) = .ok st' ∧ Loaded (done ++ ['@' :: digits]) st' := by
  have hparse : parseHex digits = some v := by
    rw [parseHex_eq, hv, Option.filter_some, if_pos (decide_eq_true (by omega))]
  refine ⟨{ st with currentAddress := v, hasCurrentAddress := true }, ?_, ?_⟩
  · have hinside : ¬ kMemorySize ≤ v := Nat.not_le.mpr hlt
    simp only [loadToken, hparse, if_neg hinside]
  · have hplaced : placed (done ++ ['@' :: digits]) = placed done := by
      rw [placed_snoc]
      exact List.append_nil _
    refine ⟨?_, ?_, h.count, ?_, ?_, ?_, ?_⟩
    · rw [runningAddress_snoc]
      exact hv
    · rw [hplaced]
      exact h.bytes
    · rw [List.countP_append, h.loaded]
      rfl
    · rw [hplaced]
      exact h.highest
    · rw [hplaced, List.countP_append, h.all]
      rfl
    · rw [hplaced]
      exact h.inside

theorem loadToken_data (h : Loaded done st) (hd : isData token = true) {v a : Nat} (hv : hexValue token = some v)
    (hle : v ≤ 0xff) (ha : runningAddress done = some a) (hlt : a < 2 ^ 20) :
    ∃ st', loadToken st token = .ok st' ∧ Loaded (done ++ [token]) st' := by
  have hparse : parseHex token = some v := by
    rw [parseHex_eq, hv, Option.filter_some, if_pos (decide_eq_true (by omega))]
  have haddress := h.address
  rw [ha] at haddress
  have hhas : st.hasCurrentAddress = true := by
    cases hh : st.hasCurrentAddress with
    | true => rfl
    | false => simp [hh] at haddress
  rw [hhas] at haddress
  obtain rfl : a = st.currentAddress := Option.some.inj haddress
  have hplaced : placed (done ++ [token]) = placed done ++ [(st.currentAddress, BitVec.ofNat 8 v)] := by
    rw [placed_snoc, placement, if_pos hd, ha, hv]
    rfl
  refine ⟨loadByte st v, ?_, ?_⟩
  · have hinside : ¬ kMemorySize ≤ st.currentAddress := Nat.not_le.mpr hlt
    unfold loadToken
    split
    · cases hd
    · simp only [hhas, hparse, if_neg hinside, if_neg (Nat.not_lt.mpr hle), Bool.true_eq_false, if_false]
  · refine ⟨?_, ?_, rfl, ?_, ?_, ?_, ?_⟩
    · rw [runningAddress_snoc, advance_data _ hd, ha, loadByte]
      simp only [hhas]
      rfl
    · rw [hplaced, byteAt_snoc, ← h.bytes]
      rfl
    · rw [List.countP_append, ← h.loaded, List.countP_singleton, if_pos hd]
      rfl
    · have hword : ∀ b, b < 2 ^ 20 →
          (BitVec.ofNat 32 b < BitVec.ofNat 32 st.currentAddress ↔ b < st.currentAddress) := by
        intro b hb
        rw [BitVec.lt_def, BitVec.toNat_ofNat, BitVec.toNat_ofNat, Nat.mod_eq_of_lt (by omega),
          Nat.mod_eq_of_lt (by omega)]
      rw [hplaced, highest_snoc, loadByte, h.highest]
      cases hh : ImageFormat.highest (placed done) with
      | none => rfl
      | some b =>
        obtain ⟨p, hp, rfl⟩ := List.mem_map.mp (List.max?_mem hh)
        have hb := h.inside p hp
        by_cases hlt' : p.1 < st.currentAddress
        · rw [Option.elim_some, Nat.max_eq_right (by omega)]
          exact if_pos ((hword p.1 hb).mpr hlt')
        · rw [Option.elim_some, Nat.max_eq_left (by omega)]
          exact if_neg fun hc => hlt' ((hword p.1 hb).mp hc)
    · rw [hplaced, List.length_append, List.countP_append, h.all, List.countP_singleton, if_pos hd]
      rfl
    · rw [hplaced]
      intro p hp
      rcases List.mem_append.mp hp with hp | hp
      · exact h.inside p hp
      · obtain rfl := List.mem_singleton.mp hp
        exact hlt

theorem loadToken_ok (h : Loaded done st) (ha : Acceptable done token) :
    ∃ st', loadToken st token = .ok st' ∧ Loaded (done ++ [token]) st' := by
  rcases isData_cases token with ⟨digits, rfl⟩ | hd
  · obtain ⟨v, hv, hlt⟩ := ha
    exact loadToken_address digits h hv hlt
  · obtain ⟨v, a, hv, hle, ha, hlt⟩ := (acceptable_data hd).mp ha
    exact loadToken_data h hd hv hle ha hlt

theorem loadToken_error (h : Loaded done st) (ha : ¬ Acceptable done token) :
    loadToken st token = .error (fault done token) := by
  rcases isData_cases token with ⟨digits, rfl⟩ | hd
  · cases hv : hexValue digits with
    | none => simp only [loadToken, fault, parseHex_eq, hv, Option.filter_none]
    | some v =>
      have houtside : kMemorySize ≤ v := Nat.le_of_not_lt fun hlt => ha ⟨v, hv, hlt⟩
      by_cases hfits : v < 2 ^ 64
      · simp only [loadToken, fault, parseHex_eq, hv, Option.filter_some, decide_eq_true hfits, if_true, if_pos houtside,
          if_pos hfits]
      · simp only [loadToken, fault, parseHex_eq, hv, Option.filter_some, decide_eq_false hfits, Bool.false_eq_true,
          if_false, if_neg hfits]
  · have haddress := h.address
    rw [fault_data hd]
    unfold loadToken
    split
    case h_1 => cases hd
    cases hhas : st.hasCurrentAddress with
    | false =>
      rw [hhas, if_neg Bool.false_ne_true] at haddress
      rw [if_pos rfl, if_pos haddress]
    | true =>
      rw [hhas, if_pos rfl] at haddress
      rw [if_neg (fun hc => (by cases hc)), if_neg (by rw [haddress]; exact Option.some_ne_none _), parseHex_eq]
      cases hv : hexValue token with
      | none => rfl
      | some v =>
        by_cases hle : v ≤ 0xff
        · have houtside : kMemorySize ≤ st.currentAddress :=
            Nat.le_of_not_lt fun hlt => ha ((acceptable_data hd).mpr ⟨v, _, hv, hle, haddress, hlt⟩)
          simp only [Option.filter_some, decide_eq_true (show v < 2 ^ 64 by omega), if_true, if_neg (Nat.not_lt.mpr hle),
            if_pos houtside, Option.elim_some, if_pos hle]
        · by_cases hfits : v < 2 ^ 64
          · simp only [Option.filter_some, decide_eq_true hfits, if_true, if_pos (Nat.lt_of_not_le hle), Option.elim_some,
              if_neg hle]
          · simp only [Option.filter_some, decide_eq_false hfits, Bool.false_eq_true, if_false, Option.elim_some,
              if_neg hle]

/-! ## All words -/

/-- Each word is acceptable after `done` and the ones before it. -/
def AcceptableAfter (done : List (List Char)) (rest : List (Nat × List Char)) : Prop :=
  ∀ before line word after, rest = before ++ (line, word) :: after → Acceptable (done ++ before.map Prod.snd) word

theorem acceptableAfter_nil (done : List (List Char)) : AcceptableAfter done [] := by
  intro before line word after h
  simp at h

theorem acceptableAfter_cons {line : Nat} {rest : List (Nat × List Char)} (h : Acceptable done token)
    (hrest : AcceptableAfter (done ++ [token]) rest) : AcceptableAfter done ((line, token) :: rest) := by
  intro before l word after heq
  cases before with
  | nil =>
    obtain ⟨h1, -⟩ := List.cons.inj heq
    obtain ⟨-, rfl⟩ := Prod.mk.inj h1
    rw [List.map_nil, List.append_nil]
    exact h
  | cons p before =>
    obtain ⟨rfl, h2⟩ := List.cons.inj heq
    have := hrest before l word after h2
    rwa [List.append_assoc] at this

/-- The load goes through every word, or stops at the first that is not acceptable. -/
theorem loadLocated_spec (rest : List (Nat × List Char)) (h : Loaded done st) :
    (AcceptableAfter done rest ∧
      ∃ st', loadLocated st rest = (st', none) ∧ Loaded (done ++ rest.map Prod.snd) st') ∨
    ∃ before line word after st', rest = before ++ (line, word) :: after ∧ AcceptableAfter done before ∧
      ¬ Acceptable (done ++ before.map Prod.snd) word ∧ Loaded (done ++ before.map Prod.snd) st' ∧
      loadLocated st rest =
        (st', some ⟨fault (done ++ before.map Prod.snd) word, st'.bytesLoaded, line, word⟩) := by
  induction rest generalizing done st with
  | nil => exact .inl ⟨acceptableAfter_nil done, st, rfl, by rw [List.map_nil, List.append_nil]; exact h⟩
  | cons p rest ih =>
    obtain ⟨line, token⟩ := p
    by_cases ha : Acceptable done token
    · obtain ⟨st₁, hok, h₁⟩ := loadToken_ok h ha
      have hstep : loadLocated st ((line, token) :: rest) = loadLocated st₁ rest := by
        rw [loadLocated, hok]
      rw [hstep]
      rcases ih h₁ with ⟨hall, st', hrun, h'⟩ | ⟨before, l, word, after, st', heq, hbefore, hword, h', hrun⟩
      · refine .inl ⟨acceptableAfter_cons ha hall, st', hrun, ?_⟩
        rwa [List.append_assoc] at h'
      · rw [List.append_assoc] at h' hword hrun
        exact .inr ⟨(line, token) :: before, l, word, after, st', by rw [heq]; rfl, acceptableAfter_cons ha hbefore,
          hword, h', hrun⟩
    · refine .inr ⟨[], line, token, rest, st, rfl, acceptableAfter_nil done, ?_, ?_, ?_⟩
      · rw [List.map_nil, List.append_nil]
        exact ha
      · rw [List.map_nil, List.append_nil]
        exact h
      · rw [loadLocated, loadToken_error h ha, List.map_nil, List.append_nil]

/-- Memory and both counts are those of the words. -/
structure Reflects (tokens : List (List Char)) (result : ImageLoadResult) (image : MemoryImage) : Prop where
  bytes : ∀ address, image.bytes address = byteAt (placed tokens) address
  count : image.loadByteCount = tokens.countP isData
  reported : result.loadedByteCount = tokens.countP isData
  highest : image.highestLoadedAddress = (highest (placed tokens)).map (BitVec.ofNat 32)
  all : (placed tokens).length = tokens.countP isData
  inside : ∀ p ∈ placed tokens, p.1 < 2 ^ 20

theorem reflects_of_loaded {result : ImageLoadResult} (h : Loaded done st)
    (hresult : result.loadedByteCount = st.bytesLoaded) : Reflects done result st.image :=
  ⟨fun address => congrFun h.bytes address, h.count.trans h.loaded, hresult.trans h.loaded, h.highest, h.all, h.inside⟩

theorem fault_ne_success (before : List (List Char)) (word : List Char) : fault before word ≠ .success := by
  unfold fault
  repeat' split
  all_goals (intro hc; cases hc)

/-- The loader accepts exactly the image format and loads exactly its meaning; otherwise it
    names the first word that is not acceptable. -/
theorem load_exact (text : List Char) :
    let result := (load { text := text, bad := false }).1
    let image := (load { text := text, bad := false }).2
    (result.status = .success ↔ AllAcceptable (located text)) ∧
      (AllAcceptable (located text) → result.errorLine = 0 ∧ result.errorToken = [] ∧
        Reflects ((located text).map Prod.snd) result image) ∧
      (¬ AllAcceptable (located text) → ∃ before line word after,
        located text = before ++ (line, word) :: after ∧ AllAcceptable before ∧
          ¬ Acceptable (before.map Prod.snd) word ∧ result.status = fault (before.map Prod.snd) word ∧
          result.errorLine = line ∧ result.errorToken = word ∧ Reflects (before.map Prod.snd) result image) := by
  have hlines : loadLines 0 { image := clear } (lines (delivered { text := text, bad := false })) =
      loadLocated { image := clear } (located text) := by
    have hall : delivered { text := text, bad := false } = text := rfl
    rw [hall, loadLines_eq, locatedFrom_text]
  intro result image
  rcases loadLocated_spec (located text) loaded_nil with
    ⟨hall, st', hrun, h'⟩ | ⟨before, line, word, after, st', heq, hbefore, hword, h', hrun⟩
  · have hload : load { text := text, bad := false } =
        ({ status := .success, loadedByteCount := st'.bytesLoaded }, st'.image) := by
      rw [load, hlines, hrun]
      rfl
    have hresult : result = { status := .success, loadedByteCount := st'.bytesLoaded } := congrArg Prod.fst hload
    have himage : image = st'.image := congrArg Prod.snd hload
    rw [hresult, himage]
    exact ⟨iff_of_true rfl hall, fun _ => ⟨rfl, rfl, reflects_of_loaded h' rfl⟩, fun hn => absurd hall hn⟩
  · have hload : load { text := text, bad := false } =
        (⟨fault (before.map Prod.snd) word, st'.bytesLoaded, line, word⟩, st'.image) := by
      rw [load, hlines, hrun]
      rfl
    have hn : ¬ AllAcceptable (located text) := fun hall => hword (hall before line word after heq)
    have hresult : result = ⟨fault (before.map Prod.snd) word, st'.bytesLoaded, line, word⟩ := congrArg Prod.fst hload
    have himage : image = st'.image := congrArg Prod.snd hload
    rw [hresult, himage]
    exact ⟨iff_of_false (fault_ne_success _ _) hn, fun hall => absurd hall hn, fun _ =>
      ⟨before, line, word, after, heq, hbefore, hword, rfl, rfl, rfl, reflects_of_loaded h' rfl⟩⟩

/-- The second byte has nowhere to go. -/
example : (load { text := ['@', 'f', 'f', 'f', 'f', 'f', ' ', '0', 'a', '\n', '0', 'b'] }).1 =
    { status := .addressOutOfBounds, loadedByteCount := 1, errorLine := 2, errorToken := ['0', 'b'] } := by
  decide

/-- The line in which a stream goes bad is lost. -/
example : (load { text := ['@', '0', ' ', '0', 'a', '\n', '0', 'b'], bad := true }).1 =
    { status := .streamError, loadedByteCount := 1 } := by
  decide

end MemoryImage

end TomasuloCpu
