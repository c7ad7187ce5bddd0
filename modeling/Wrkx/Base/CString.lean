import Mathlib.Algebra.Order.Floor.Ring
import Mathlib.Data.Nat.Digits.Lemmas
import Mathlib.Data.Rat.Floor

/-!
# Numbers in C strings

Strings as lists of bytes: the classes of characters of the C locale, the digits of a number
in a base, the decimal digits that `printf` writes, and the parts into which the scanners of
the C library cut a string.

## Main results

- `value_concat` — a number, digit by digit
- `value_decimal`, `length_decimal_le_iff` — the decimal digits of a number
- `takeWhile_span`, `dropWhile_span` — where a scanner stops
-/

namespace CString

/-! ## Characters -/

/-- The bytes of some characters. -/
def ascii (cs : List Char) : List UInt8 := cs.map fun c => UInt8.ofNat c.toNat

def isSpace (c : UInt8) : Bool := c.toNat = 32 || (9 ≤ c.toNat && c.toNat ≤ 13)

def isDigit (c : UInt8) : Bool := 48 ≤ c.toNat && c.toNat ≤ 57

def isAlpha (c : UInt8) : Bool :=
  (65 ≤ c.toNat && c.toNat ≤ 90) || (97 ≤ c.toNat && c.toNat ≤ 122)

def isSign (c : UInt8) : Bool := c.toNat = 43 || c.toNat = 45

def toLower (c : UInt8) : UInt8 := if 65 ≤ c.toNat ∧ c.toNat ≤ 90 then c + 32 else c

/-- `strncasecmp (a, b, n) == 0`, with the terminators in place. -/
def sameNCase (a b : List UInt8) (n : ℕ) : Bool :=
  decide ((a.map toLower ++ [0]).take n = (b.map toLower ++ [0]).take n)

theorem toLower_toNat (c : UInt8) : (toLower c).toNat =
    if 65 ≤ c.toNat ∧ c.toNat ≤ 90 then c.toNat + 32 else c.toNat := by
  rw [toLower]
  split
  · rw [UInt8.toNat_add]
    simp only [UInt8.toNat_ofNat]
    omega
  · rfl

theorem isDigit_toLower (c : UInt8) : isDigit (toLower c) = isDigit c := by
  simp only [isDigit, toLower_toNat]
  split
  · rw [Bool.eq_iff_iff]
    simp only [Bool.and_eq_true, decide_eq_true_iff]
    omega
  · rfl

theorem isSpace_toLower (c : UInt8) : isSpace (toLower c) = isSpace c := by
  simp only [isSpace, toLower_toNat]
  split
  · rw [Bool.eq_iff_iff]
    simp only [Bool.and_eq_true, Bool.or_eq_true, decide_eq_true_iff]
    omega
  · rfl

theorem isSpace_eq_false_of_isDigit {c : UInt8} (h : isDigit c = true) : isSpace c = false := by
  simp only [isDigit, Bool.and_eq_true, decide_eq_true_iff] at h
  simp only [isSpace, Bool.or_eq_false_iff, Bool.and_eq_false_iff, decide_eq_false_iff_not]
  omega

theorem not_isSign_of_isDigit {c : UInt8} (h : isDigit c = true) : isSign c = false := by
  simp only [isDigit, Bool.and_eq_true, decide_eq_true_iff] at h
  simp only [isSign, Bool.or_eq_false_iff, decide_eq_false_iff_not]
  omega

theorem not_isSpace_of_isSign {c : UInt8} (h : isSign c = true) : isSpace c = false := by
  simp only [isSign, Bool.or_eq_true, decide_eq_true_iff] at h
  simp only [isSpace, Bool.or_eq_false_iff, Bool.and_eq_false_iff, decide_eq_false_iff_not]
  omega

theorem not_isDigit_of_isSpace {c : UInt8} (h : isSpace c = true) : isDigit c = false := by
  by_contra hdigit
  rw [isSpace_eq_false_of_isDigit (by simpa using hdigit)] at h
  exact absurd h (by simp)

theorem not_isDigit_of_isAlpha {c : UInt8} (h : isAlpha c = true) :
    isDigit c = false ∧ isSpace c = false := by
  simp only [isAlpha, Bool.or_eq_true, Bool.and_eq_true, decide_eq_true_iff] at h
  simp only [isDigit, isSpace, Bool.or_eq_false_iff, Bool.and_eq_false_iff,
    decide_eq_false_iff_not]
  omega

/-- On strings of one length bound the comparison is equality of the lower-case strings. -/
theorem sameNCase_iff {a b : List UInt8} {n : ℕ} (ha : a.length < n) (hb : b.length < n) :
    sameNCase a b n = true ↔ a.map toLower = b.map toLower := by
  rw [sameNCase, decide_eq_true_iff, List.take_of_length_le (by simpa using ha),
    List.take_of_length_le (by simpa using hb)]
  exact List.append_left_inj _

/-! ## Digits -/

/-- The value of a digit, in bases up to 36; other characters are no digits. -/
def digitValue (c : UInt8) : ℕ :=
  if isDigit c then c.toNat - 48 else if isAlpha c then (toLower c).toNat - 87 else 36

def isDigitIn (base : ℕ) (c : UInt8) : Bool := decide (digitValue c < base)

/-- The number that a string of digits denotes. -/
def value (base : ℕ) (digits : List UInt8) : ℕ :=
  Nat.ofDigits base (digits.reverse.map digitValue)

/-- The decimal digits of a number. -/
def decimal (n : ℕ) : List UInt8 :=
  if n = 0 then [48] else (Nat.digits 10 n).reverse.map fun d => UInt8.ofNat (48 + d)

theorem digit_toNat {d : ℕ} (h : d < 10) : (UInt8.ofNat (48 + d)).toNat = 48 + d := by
  simp only [UInt8.toNat_ofNat']
  omega

theorem digitValue_digit {d : ℕ} (h : d < 10) : digitValue (UInt8.ofNat (48 + d)) = d := by
  have hdigit : isDigit (UInt8.ofNat (48 + d)) = true := by
    rw [isDigit, digit_toNat h, Bool.and_eq_true, decide_eq_true_iff, decide_eq_true_iff]
    omega
  rw [digitValue, if_pos hdigit, digit_toNat h]
  omega

theorem isDigit_decimal (n : ℕ) : ∀ c ∈ decimal n, isDigit c = true := by
  rw [decimal]
  split
  · simp [isDigit]
  · intro c hc
    obtain ⟨d, hd, rfl⟩ := List.mem_map.mp hc
    have hlt : d < 10 := Nat.digits_lt_base (by norm_num) (List.mem_reverse.mp hd)
    rw [isDigit, digit_toNat hlt, Bool.and_eq_true, decide_eq_true_iff, decide_eq_true_iff]
    omega

theorem decimal_ne_nil (n : ℕ) : decimal n ≠ [] := by
  rw [decimal]
  split
  · simp
  · simpa [Nat.digits_ne_nil_iff_ne_zero]

theorem isDigit_of_isDigitIn {c : UInt8} (h : isDigitIn 10 c = true) : isDigit c = true := by
  rw [isDigitIn, decide_eq_true_iff, digitValue] at h
  split at h
  · assumption
  · split at h
    · rename_i halpha
      rw [toLower_toNat] at h
      simp only [isAlpha, Bool.or_eq_true, Bool.and_eq_true, decide_eq_true_iff] at halpha
      split at h <;> omega
    · omega

/-- The decimal digits of a number denote it. -/
theorem value_decimal (n : ℕ) : value 10 (decimal n) = n := by
  rw [decimal]
  split
  · subst n
    rfl
  · have hmap : ((Nat.digits 10 n).map fun d => digitValue (UInt8.ofNat (48 + d))) =
        Nat.digits 10 n := by
      conv_rhs => rw [← List.map_id (Nat.digits 10 n)]
      exact List.map_congr_left fun d hd =>
        digitValue_digit (Nat.digits_lt_base (by norm_num) hd)
    rw [value, ← List.map_reverse, List.reverse_reverse, List.map_map]
    exact (congrArg (Nat.ofDigits 10) hmap).trans (Nat.ofDigits_digits 10 n)

/-- One more digit. -/
theorem value_concat (base : ℕ) (digits : List UInt8) (c : UInt8) :
    value base (digits ++ [c]) = value base digits * base + digitValue c := by
  rw [value, List.reverse_append, List.reverse_singleton, List.singleton_append, List.map_cons,
    Nat.ofDigits_cons, value]
  exact (Nat.add_comm _ _).trans (congrArg (· + digitValue c) (Nat.mul_comm _ _))

/-- Digits that follow do not make a number smaller. -/
theorem value_le_append (base : ℕ) (hbase : 0 < base) (digits rest : List UInt8) :
    value base digits ≤ value base (digits ++ rest) := by
  induction rest generalizing digits with
  | nil => rw [List.append_nil]
  | cons c rest ih =>
    have hrest := ih (digits ++ [c])
    rw [List.append_assoc, List.singleton_append] at hrest
    refine le_trans ?_ hrest
    rw [value_concat]
    exact (Nat.le_mul_of_pos_right _ hbase).trans (Nat.le_add_right _ _)

theorem length_decimal_le_iff {n k : ℕ} (hk : 0 < k) : (decimal n).length ≤ k ↔ n < 10 ^ k := by
  rw [decimal]
  split
  · subst n
    simpa using Nat.succ_le_of_lt hk
  · rw [List.length_map, List.length_reverse, Nat.digits_length_le_iff (by norm_num)]

/-! ## Spans -/

section Spans

variable {α : Type*} {p : α → Bool} {w rest : List α}

/-- The list does not start with an element of the class. -/
def StopsAt (p : α → Bool) (rest : List α) : Prop := ∀ c ∈ rest.head?, p c = false

@[simp] theorem stopsAt_nil : StopsAt p [] := by simp [StopsAt]

@[simp] theorem stopsAt_cons {c : α} : StopsAt p (c :: rest) ↔ p c = false := by simp [StopsAt]

theorem stopsAt_dropWhile (p : α → Bool) (l : List α) : StopsAt p (l.dropWhile p) := by
  intro c hc
  have := List.head?_dropWhile_not p l
  rw [hc] at this
  simpa using this

theorem takeWhile_eq_nil (h : StopsAt p rest) : rest.takeWhile p = [] := by
  cases rest with
  | nil => rfl
  | cons c rest => simp [stopsAt_cons.mp h]

theorem dropWhile_eq_self (h : StopsAt p rest) : rest.dropWhile p = rest := by
  cases rest with
  | nil => rfl
  | cons c rest => simp [stopsAt_cons.mp h]

/-- A scanner reads the elements of its class and stops at the first other one. -/
theorem takeWhile_span (hw : ∀ c ∈ w, p c = true) (h : StopsAt p rest) :
    (w ++ rest).takeWhile p = w := by
  rw [List.takeWhile_append_of_pos hw, takeWhile_eq_nil h, List.append_nil]

theorem dropWhile_span (hw : ∀ c ∈ w, p c = true) (h : StopsAt p rest) :
    (w ++ rest).dropWhile p = rest := by
  rw [List.dropWhile_append_of_pos hw, dropWhile_eq_self h]

end Spans

/-! ## Scanners -/

/-- The sign at the start of a string, and what follows it. -/
def cutSign : List UInt8 → List UInt8 × List UInt8
  | [] => ([], [])
  | c :: s => if isSign c then ([c], s) else ([], c :: s)

/-- The base that `strtol (s, NULL, 0)` reads a number in, and where its digits start. -/
def numberBase : List UInt8 → ℕ × List UInt8
  | 48 :: x :: d :: s =>
    if toLower x = 120 ∧ isDigitIn 16 d then (16, d :: s) else (8, 48 :: x :: d :: s)
  | 48 :: s => (8, 48 :: s)
  | s => (10, s)

/-- `strtol (s, NULL, 0)`: the value, and whether it sets `errno`. Without digits it is zero. -/
def strtol (s : List UInt8) : ℤ × Bool :=
  let signed := cutSign (s.dropWhile isSpace)
  let number := numberBase signed.2
  let magnitude : ℤ := value number.1 (number.2.takeWhile (isDigitIn number.1))
  let n := if signed.1 = [45] then -magnitude else magnitude
  if n < -2 ^ 63 then (-2 ^ 63, true) else if 2 ^ 63 ≤ n then (2 ^ 63 - 1, true) else (n, false)

/-- `strtok_r` with one delimiter: the next token, and what is left after its delimiter. -/
def strtok (delim : UInt8) (s : List UInt8) : Option (List UInt8 × List UInt8) :=
  let s := s.dropWhile (· = delim)
  if s = [] then none
  else some (s.takeWhile (· ≠ delim), (s.dropWhile (· ≠ delim)).drop 1)

theorem cutSign_append {sign digits rest : List UInt8}
    (hsign : sign = [] ∨ ∃ c, isSign c = true ∧ sign = [c]) (hne : digits ≠ [])
    (hdigits : ∀ c ∈ digits, isDigit c = true) :
    cutSign (sign ++ (digits ++ rest)) = (sign, digits ++ rest) := by
  obtain ⟨d, digits, rfl⟩ := List.exists_cons_of_ne_nil hne
  rcases hsign with rfl | ⟨c, hc, rfl⟩
  · simp [cutSign, not_isSign_of_isDigit (hdigits d (by simp))]
  · simp [cutSign, hc]

theorem cutSign_spec (s : List UInt8) : (cutSign s).1 ++ (cutSign s).2 = s ∧
    ((cutSign s).1 = [] ∨ ∃ c, isSign c = true ∧ (cutSign s).1 = [c]) := by
  cases s with
  | nil => exact ⟨rfl, Or.inl rfl⟩
  | cons c s =>
    by_cases hc : isSign c = true
    · simp [cutSign, hc]
    · simp [cutSign, hc]

/-! ## Fixed point -/

/-- Rounding to the nearest integer, on a tie to the even one. -/
def roundHalfEven (x : ℚ) : ℤ :=
  if 2 * (x - ⌊x⌋) < 1 then ⌊x⌋
  else if 1 < 2 * (x - ⌊x⌋) then ⌊x⌋ + 1
  else if ⌊x⌋ % 2 = 0 then ⌊x⌋ else ⌊x⌋ + 1

/-- What `printf ("%.*Lf", p, x)` writes. -/
def fixed (p : ℕ) (x : ℚ) : List UInt8 :=
  let scaled := (roundHalfEven (|x| * 10 ^ p)).toNat
  (if x < 0 then [45] else []) ++ decimal (scaled / 10 ^ p) ++
    if p = 0 then [] else 46 :: (decimal (scaled % 10 ^ p)).leftpad p 48

end CString
