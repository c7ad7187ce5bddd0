import Wrkx.Base.Significand
import Wrkx.Connection.Buffer

/-!
# Numbers with units

`units.c`, and the column printer of `wrk.c`. The unit of a number is chosen in exact rationals;
what is printed may be rounded to the precision of a `long double`.
-/

namespace Wrkx

open CString Significand

/-- `units`. The list leaves out the `NULL` at its end. -/
structure Units where
  scale : ℕ
  base : Bytes
  units : List Bytes

def timeUnitsUs : Units where
  scale := 1000
  base := ascii ['u', 's']
  units := [ascii ['m', 's'], ascii ['s']]

def timeUnitsS : Units where
  scale := 60
  base := ascii ['s']
  units := [ascii ['m'], ascii ['h']]

def binaryUnits : Units where
  scale := 1024
  base := []
  units := [ascii ['K'], ascii ['M'], ascii ['G'], ascii ['T'], ascii ['P']]

def metricUnits : Units where
  scale := 1000
  base := []
  units := [ascii ['k'], ascii ['M'], ascii ['G'], ascii ['T'], ascii ['P']]

/-! ## Printing -/

/-- The loop of `format_units`: `units` are the entries from `m->units[i]` on. It looks at the
    entry after the next one before it takes the next one. -/
def unitLoop (m : Units) : List Bytes → ℚ → Bytes → ℚ × Bytes
  | next :: after :: rest, amt, unit =>
    if (m.scale : ℚ) * (17 / 20) ≤ amt then unitLoop m (after :: rest) (amt / m.scale) next
    else (amt, unit)
  | _, amt, unit => (amt, unit)

/-- The amount and the unit that `format_units` prints. -/
def chooseUnit (n : ℚ) (m : Units) : ℚ × Bytes := unitLoop m m.units n m.base

/-- What the floating-point types make of an exact result. -/
structure Rounding where
  double : ℚ → ℚ
  longDouble : ℚ → ℚ

/-- Results read as exact rationals. -/
def Rounding.exact : Rounding := ⟨id, id⟩

/-- Results of 53 and, in the registers of the x87, of 64 significant bits. -/
def Rounding.x87 : Rounding := ⟨roundBits 53, roundBits 64⟩

/-- `scale` of `format_units`, a product of a `double`. -/
def Rounding.scale (r : Rounding) (m : Units) : ℚ := r.double (m.scale * r.double (17 / 20))

/-- The loop of `format_units` with rounded results. -/
def roundedLoop (r : Rounding) (m : Units) : List Bytes → ℚ → Bytes → ℚ × Bytes
  | next :: after :: rest, amt, unit =>
    if r.scale m ≤ amt then roundedLoop r m (after :: rest) (r.longDouble (amt / m.scale)) next
    else (amt, unit)
  | _, amt, unit => (amt, unit)

def roundedUnit (r : Rounding) (n : ℚ) (m : Units) : ℚ × Bytes := roundedLoop r m m.units n m.base

def formatUnits (r : Rounding) (n : ℚ) (m : Units) (p : ℕ) : Bytes :=
  fixed p (roundedUnit r n m).1 ++ (roundedUnit r n m).2

def formatBinary (r : Rounding) (n : ℚ) : Bytes := formatUnits r n binaryUnits 2

def formatMetric (r : Rounding) (n : ℚ) : Bytes := formatUnits r n metricUnits 2

def formatTimeUs (r : Rounding) (n : ℚ) : Bytes :=
  if 1000000 ≤ n then formatUnits r (r.longDouble (n / 1000000)) timeUnitsS 2
  else formatUnits r n timeUnitsUs 2

def formatTimeS (r : Rounding) (n : ℚ) : Bytes := formatUnits r n timeUnitsS 0

/-- Without rounding, `format_units` prints what `chooseUnit` says. -/
theorem roundedUnit_exact (n : ℚ) (m : Units) : roundedUnit .exact n m = chooseUnit n m := by
  have hloop : ∀ units amt unit,
      roundedLoop .exact m units amt unit = unitLoop m units amt unit := by
    intro units amt unit
    fun_induction unitLoop m units amt unit with
    | case1 amt unit next after rest hge ih => exact (if_pos hge).trans ih
    | case2 amt unit next after rest hlt => exact if_neg hlt
    | case3 units amt unit hshort => exact roundedLoop.eq_2 _ _ _ _ _ hshort
  exact hloop _ _ _

/-- `print_units`: `%*.*s` cuts the string to the width and pads it on the left. -/
def printUnits (n : ℚ) (fmt : ℚ → Bytes) (width : ℕ) : Bytes :=
  let msg := fmt n
  let pad := 2
  let pad := if isAlpha (msg.getD (msg.length - 1) 0) then pad - 1 else pad
  let pad := if isAlpha (msg.getD (msg.length - 2) 0) then pad - 1 else pad
  (msg.take (width - pad)).leftpad (width - pad) 32 ++ List.replicate pad 32

/-! ## Scanning -/

/-- The parts into which `sscanf (s, "%lu%2s", …)` cuts a string. -/
structure Pieces where
  space : Bytes
  sign : Bytes
  digits : Bytes
  gap : Bytes
  unit : Bytes
  rest : Bytes

def pieces (s : Bytes) : Pieces :=
  let signed := cutSign (s.dropWhile isSpace)
  let afterDigits := signed.2.dropWhile isDigit
  let word := afterDigits.dropWhile isSpace
  let unit := (word.takeWhile fun c => !isSpace c).take 2
  { space := s.takeWhile isSpace
    sign := signed.1
    digits := signed.2.takeWhile isDigit
    gap := afterDigits.takeWhile isSpace
    unit := unit
    rest := word.drop unit.length }

/-- What `%lu` stores: a number that does not fit saturates, and a sign negates the word. -/
def unsignedWord (sign digits : Bytes) : ℕ :=
  let n := value 10 digits
  if 2 ^ 64 ≤ n then 2 ^ 64 - 1 else if sign = [45] then (2 ^ 64 - n) % 2 ^ 64 else n

/-- The number of items that `sscanf` stores. -/
def itemsScanned (p : Pieces) : ℕ := if p.digits = [] then 0 else if p.unit = [] then 1 else 2

/-- The loop of `scan_units` over the unit table: the scale of the unit. -/
def unitScale (m : Units) (unit : Bytes) : List Bytes → ℕ → Option ℕ
  | [], _ => none
  | name :: rest, scale =>
    if sameNCase unit name 3 then some (scale * m.scale % 2 ^ 64)
    else unitScale m unit rest (scale * m.scale % 2 ^ 64)

/-- `scan_units`: the result, and `*n` afterwards. -/
def scanUnits (s : Bytes) (n : ℕ) (m : Units) : ℤ × ℕ :=
  let p := pieces s
  let base := unsignedWord p.sign p.digits
  if itemsScanned p < 1 then
    (-1, n)
  else if itemsScanned p = 2 ∧ sameNCase p.unit m.base 3 = false then
    match unitScale m p.unit m.units 1 with
    | none => (-1, n)
    | some scale => (0, base * scale % 2 ^ 64)
  else
    (0, base * 1 % 2 ^ 64)

def scanMetric (s : Bytes) (n : ℕ) : ℤ × ℕ := scanUnits s n metricUnits

def scanTime (s : Bytes) (n : ℕ) : ℤ × ℕ := scanUnits s n timeUnitsS

end Wrkx
