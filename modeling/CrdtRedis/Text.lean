import Mathlib.Tactic

/-!
# Numbers in strings

What the codecs of the program take from the C library. A string in memory is its characters and a
NUL (`cstr`); a pointer into it is the rest of the memory from there on, so that the empty list is
past its end.

* `intText` is `%d` of `printf`, `scanInt` is `%d` of `sscanf`, `atoi` is `atoi`.
* `scanInt_intText`, `atoi_intText`: what was printed is read back, up to the first character that
  is not a digit.
* `scanTo` is a loop that moves a pointer to the next of some characters; it fails past the end.
  `scanTo_intText`: it passes over a number.
-/

namespace CrdtRedis

/-- A number that an `int` can hold. -/
abbrev IsInt (x : ℤ) : Prop := -2 ^ 31 ≤ x ∧ x < 2 ^ 31

/-- A number without a sign. -/
def numText (n : ℕ) : List Char := Nat.toDigits 10 n

/-- `%d` of `printf`. -/
def intText (x : ℤ) : List Char := if x < 0 then '-' :: numText x.natAbs else numText x.natAbs

/-- The memory of a string. -/
def cstr (s : List Char) : List Char := s ++ ['\x00']

/-- `isspace`. -/
def isSpace (c : Char) : Bool := c = ' ' || '\t'.toNat ≤ c.toNat && c.toNat ≤ '\r'.toNat

/-- A number after its sign: the value and what follows; `none` if there is no digit. -/
def scanDigits (s : List Char) : Option (ℕ × List Char) :=
  match s.takeWhile Char.isDigit with
  | [] => none
  | d :: ds => some (Nat.ofDigitChars 10 (d :: ds) 0, s.dropWhile Char.isDigit)

/-- `%d` of `sscanf`: the value and what follows; `none` if there is no number. -/
def scanInt (s : List Char) : Option (ℤ × List Char) :=
  match s.dropWhile isSpace with
  | '-' :: s => (scanDigits s).map fun r => (-(r.1 : ℤ), r.2)
  | '+' :: s => (scanDigits s).map fun r => ((r.1 : ℤ), r.2)
  | s => (scanDigits s).map fun r => ((r.1 : ℤ), r.2)

/-- `atoi`: 0 if there is no number, undefined if it is not an `int`. -/
def atoi (s : List Char) : Option ℤ :=
  match scanInt s with
  | none => some 0
  | some (v, _) => if IsInt v then some v else none

/-- `while (*p != …) p++`, for the characters `stops`. -/
def scanTo (stops : List Char) : List Char → Option (List Char)
  | [] => none
  | c :: s => if c ∈ stops then some (c :: s) else scanTo stops s

/-! ## Numbers -/

theorem isDigit_of_mem_numText {n : ℕ} {c : Char} (hc : c ∈ numText n) : c.isDigit = true :=
  Nat.isDigit_of_mem_toDigits (by decide) (by decide) hc

theorem numText_ne_nil (n : ℕ) : numText n ≠ [] := Nat.toDigits_ne_nil

theorem mem_intText {x : ℤ} {c : Char} (hc : c ∈ intText x) : c.isDigit = true ∨ c = '-' := by
  unfold intText at hc
  split at hc
  · rcases List.mem_cons.mp hc with rfl | hc
    · exact .inr rfl
    · exact .inl (isDigit_of_mem_numText hc)
  · exact .inl (isDigit_of_mem_numText hc)

/-- Digits are read up to the first character that is none. -/
theorem scanDigits_numText (n : ℕ) {c : Char} {s : List Char} (hc : c.isDigit = false) :
    scanDigits (numText n ++ c :: s) = some (n, c :: s) := by
  have htake : (numText n ++ c :: s).takeWhile Char.isDigit = numText n := by
    rw [List.takeWhile_append_of_pos fun _ => isDigit_of_mem_numText,
      List.takeWhile_cons_of_neg (by simp [hc]), List.append_nil]
  have hdrop : (numText n ++ c :: s).dropWhile Char.isDigit = c :: s := by
    rw [List.dropWhile_append_of_pos fun _ => isDigit_of_mem_numText,
      List.dropWhile_cons_of_neg (by simp [hc])]
  unfold scanDigits
  rw [htake, hdrop]
  cases hn : numText n with
  | nil => exact absurd hn (numText_ne_nil n)
  | cons d ds =>
    simp only
    rw [← hn, numText, Nat.ofDigitChars_ten_toDigits]

theorem not_isSpace_of_isDigit {c : Char} (h : c.isDigit = true) : isSpace c = false := by
  have h0 := (Char.isDigit_iff_toNat.mp h).1
  have hne : c ≠ ' ' := by
    rintro rfl
    exact absurd h (by decide)
  have hzero : '0'.toNat = 48 := rfl
  have hr : '\r'.toNat = 13 := rfl
  simp only [isSpace, hne, decide_false, Bool.false_or, Bool.and_eq_false_iff,
    decide_eq_false_iff_not]
  omega

/-- What was printed is read back. -/
theorem scanInt_intText (x : ℤ) {c : Char} {s : List Char} (hc : c.isDigit = false) :
    scanInt (intText x ++ c :: s) = some (x, c :: s) := by
  unfold intText
  split
  · rename_i hx
    have hspace : ('-' :: numText x.natAbs ++ c :: s).dropWhile isSpace =
        '-' :: (numText x.natAbs ++ c :: s) := List.dropWhile_cons_of_neg (by decide)
    unfold scanInt
    rw [hspace]
    simp only
    rw [scanDigits_numText x.natAbs hc, Option.map_some]
    congr 2
    omega
  · rename_i hx
    obtain ⟨d, ds, hn⟩ := List.exists_cons_of_ne_nil (numText_ne_nil x.natAbs)
    have hd : d.isDigit = true := isDigit_of_mem_numText (hn ▸ List.mem_cons_self)
    have hspace : (numText x.natAbs ++ c :: s).dropWhile isSpace = d :: (ds ++ c :: s) := by
      rw [hn]
      exact List.dropWhile_cons_of_neg (by simp [not_isSpace_of_isDigit hd])
    unfold scanInt
    rw [hspace]
    split
    · rename_i heq
      cases heq
      exact absurd hd (by decide)
    · rename_i heq
      cases heq
      exact absurd hd (by decide)
    · rw [show d :: (ds ++ c :: s) = numText x.natAbs ++ c :: s by rw [hn]; rfl,
        scanDigits_numText x.natAbs hc, Option.map_some]
      congr 2
      omega

theorem atoi_intText {x : ℤ} (hx : IsInt x) {c : Char} {s : List Char} (hc : c.isDigit = false) :
    atoi (intText x ++ c :: s) = some x := by
  unfold atoi
  rw [scanInt_intText x hc]
  exact if_pos hx

/-! ## Pointers -/

theorem scanTo_append {stops l : List Char} (h : ∀ c ∈ l, c ∉ stops) (s : List Char) :
    scanTo stops (l ++ s) = scanTo stops s := by
  induction l with
  | nil => rfl
  | cons c l ih =>
    rw [List.cons_append, scanTo, if_neg (h c List.mem_cons_self)]
    exact ih fun d hd => h d (List.mem_cons_of_mem _ hd)

/-- The pointer moves past a number to the character that ends it. -/
theorem scanTo_intText {stops : List Char}
    (hs : (stops.all fun c => !c.isDigit && c != '-') = true) (x : ℤ) {c : Char} (hc : c ∈ stops)
    (s : List Char) : scanTo stops (intText x ++ c :: s) = some (c :: s) := by
  rw [scanTo_append, scanTo, if_pos hc]
  intro d hd hmem
  have hd' : d.isDigit = false ∧ d ≠ '-' := by simpa using List.all_eq_true.mp hs d hmem
  rcases mem_intText hd with h | h
  · rw [hd'.1] at h
    cases h
  · exact hd'.2 h

end CrdtRedis
