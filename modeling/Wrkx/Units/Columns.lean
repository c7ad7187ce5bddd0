import Wrkx.Hdr.Histogram
import Wrkx.Units.Format

/-!
# Columns

`print_stats` prints its numbers in columns of 8, 10 and 9 characters. A formatted number is
as long as the digits before its point, three characters for the point and the two digits
after it, and the unit; the padding of `print_units` makes up for a unit of less than two
letters, so that the digits before the point decide whether the string fits. Results are exact
or rounded to the floating-point types of the x87; the roundings share what the proof needs.

## Main results

- `printsWhole_iff` — a formatted number is printed whole if and only if its amount is small
- `printsWhole_exact_iff`, `printsWhole_x87_iff` — which latencies are cut
- `printUnits_whole_iff` — the latencies and the rates, in both arithmetics
-/

namespace Wrkx

open CString Significand

/-- `print_units` prints the whole string of the formatter, between blanks. -/
def PrintsWhole (fmt : ℚ → Bytes) (n : ℚ) (width : ℕ) : Prop :=
  ∃ i j, printUnits n fmt width = List.replicate i 32 ++ fmt n ++ List.replicate j 32

/-! ## Rounding -/

/-- Below an even number means below the tie under it. -/
theorem roundHalfEven_lt_iff {x : ℚ} {N : ℤ} (hN : N % 2 = 0) :
    roundHalfEven x < N ↔ x < N - 1 / 2 := by
  have hle := Int.floor_le x
  have hlt := Int.lt_floor_add_one x
  constructor
  · intro h
    by_contra hge
    have hfloor : N - 1 ≤ ⌊x⌋ := by
      rw [Int.le_floor]
      push_cast
      linarith
    rcases eq_or_lt_of_le hfloor with heq | hgt
    · -- the tie under an even number is rounded up
      have hcast : (⌊x⌋ : ℚ) = N - 1 := by
        rw [← heq]
        push_cast
        rfl
      have hodd : ¬ ⌊x⌋ % 2 = 0 := by omega
      have hhalf : ¬ 2 * (x - ⌊x⌋) < 1 := by rw [hcast]; linarith
      rw [roundHalfEven, if_neg hhalf] at h
      split_ifs at h <;> omega
    · rw [roundHalfEven] at h
      split_ifs at h <;> omega
  · intro h
    have hfloor : ⌊x⌋ < N := by
      rw [Int.floor_lt]
      linarith
    rcases eq_or_lt_of_le (Int.le_sub_one_of_lt hfloor) with heq | hlt'
    · -- just below the even number, but below the tie
      have hcast : (⌊x⌋ : ℚ) = N - 1 := by
        rw [heq]
        push_cast
        rfl
      have hhalf : 2 * (x - ⌊x⌋) < 1 := by rw [hcast]; linarith
      rw [roundHalfEven, if_pos hhalf]
      omega
    · rw [roundHalfEven]
      split_ifs <;> omega

/-! ## The parts of a formatted number -/

/-- A character of the number in front of the unit. -/
def IsNumeric (c : UInt8) : Prop := isAlpha c = false ∧ c ≠ 32

theorem isNumeric_of_isDigit {c : UInt8} (h : isDigit c = true) : IsNumeric c := by
  simp only [isDigit, Bool.and_eq_true, decide_eq_true_iff] at h
  refine ⟨?_, ?_⟩
  · simp only [isAlpha, Bool.or_eq_false_iff, Bool.and_eq_false_iff, decide_eq_false_iff_not]
    omega
  · rintro rfl
    exact absurd h (by decide)

/-- The integral part that `printf ("%.2Lf")` prints. -/
def integralPart (amt : ℚ) : ℕ := (roundHalfEven (|amt| * 10 ^ 2)).toNat / 10 ^ 2

theorem fixed_length {amt : ℚ} (h : 0 ≤ amt) :
    (fixed 2 amt).length = (decimal (integralPart amt)).length + 3 := by
  have htwo : (decimal ((roundHalfEven (|amt| * 10 ^ 2)).toNat % 10 ^ 2)).length ≤ 2 := by
    rw [length_decimal_le_iff (by norm_num)]
    exact Nat.mod_lt _ (by norm_num)
  simp only [fixed, not_lt.mpr h, if_false, List.nil_append, List.length_append, integralPart,
    OfNat.ofNat_ne_zero, List.length_cons, List.leftpad, List.length_replicate]
  omega

theorem isNumeric_fixed {amt : ℚ} (h : 0 ≤ amt) : ∀ c ∈ fixed 2 amt, IsNumeric c := by
  have hdigits : ∀ n, ∀ c ∈ decimal n, IsNumeric c := fun n c hc =>
    isNumeric_of_isDigit (isDigit_decimal n c hc)
  intro c hc
  simp only [fixed, not_lt.mpr h, if_false, List.nil_append, OfNat.ofNat_ne_zero,
    List.mem_append, List.mem_cons, List.leftpad, List.mem_replicate] at hc
  rcases hc with hc | rfl | ⟨-, rfl⟩ | hc
  · exact hdigits _ c hc
  · exact ⟨rfl, by decide⟩
  · exact ⟨rfl, by decide⟩
  · exact hdigits _ c hc

/-- The integral part has at most `k` digits when the amount stays below the tie under
    `10 ^ k`. -/
theorem length_integralPart_le_iff {amt : ℚ} (h : 0 ≤ amt) {k : ℕ} (hk : 0 < k) :
    (decimal (integralPart amt)).length ≤ k ↔ amt < 10 ^ k - 1 / 200 := by
  have hpow : (10 : ℤ) ^ (k + 2) = ((10 ^ (k + 2) : ℕ) : ℤ) := by
    push_cast
    rfl
  have heven : (10 : ℤ) ^ (k + 2) % 2 = 0 := by
    rw [pow_succ]
    omega
  have hround := roundHalfEven_lt_iff (x := |amt| * 10 ^ 2) heven
  rw [length_decimal_le_iff hk, integralPart, Nat.div_lt_iff_lt_mul (by norm_num), ← pow_add]
  have hnat : (roundHalfEven (|amt| * 10 ^ 2)).toNat < 10 ^ (k + 2) ↔
      roundHalfEven (|amt| * 10 ^ 2) < 10 ^ (k + 2) := by
    have : 0 < 10 ^ (k + 2) := by positivity
    rw [hpow]
    omega
  rw [hnat, hround, abs_of_nonneg h]
  push_cast
  rw [pow_add]
  constructor <;> intro hlt <;> linarith

/-! ## The padding -/

/-- The padding that `print_units` leaves for a unit of less than two letters. -/
def unitPad (msg : Bytes) : ℕ :=
  let pad := 2
  let pad := if isAlpha (msg.getD (msg.length - 1) 0) then pad - 1 else pad
  if isAlpha (msg.getD (msg.length - 2) 0) then pad - 1 else pad

theorem printUnits_eq (n : ℚ) (fmt : ℚ → Bytes) (width : ℕ) :
    printUnits n fmt width = ((fmt n).take (width - unitPad (fmt n))).leftpad
      (width - unitPad (fmt n)) 32 ++ List.replicate (unitPad (fmt n)) 32 := rfl

theorem unitPad_append {body unit : Bytes} (hbody : ∀ c ∈ body, IsNumeric c)
    (hlong : 2 ≤ body.length) (hunit : ∀ c ∈ unit, isAlpha c = true) (hshort : unit.length ≤ 2) :
    unitPad (body ++ unit) = 2 - unit.length := by
  have hinside : ∀ i < body.length, isAlpha ((body ++ unit)[i]?.getD 0) = false := by
    intro i hi
    rw [List.getElem?_append_left hi, List.getElem?_eq_getElem hi]
    exact (hbody _ (List.getElem_mem hi)).1
  have hpast : ∀ i, (body ++ unit)[body.length + i]? = unit[i]? := by
    intro i
    rw [List.getElem?_append_right (Nat.le_add_right _ _), Nat.add_sub_cancel_left]
  simp only [unitPad, List.getD_eq_getElem?_getD, List.length_append]
  match unit, hunit, hshort with
  | [], _, _ =>
    have hlast := hinside (body.length + 0 - 1) (by omega)
    have hnext := hinside (body.length + 0 - 2) (by omega)
    simp only [List.length_nil, hlast, hnext]
    rfl
  | [a], hunit, _ =>
    have hlast := hpast 0
    have hnext := hinside (body.length + 1 - 2) (by omega)
    have hlength : body.length + 1 - 1 = body.length + 0 := by omega
    simp only [List.length_singleton, hlength, hlast, hnext]
    simp [hunit a (by simp)]
  | [a, b], hunit, _ =>
    have hlast := hpast 1
    have hnext := hpast 0
    have hlength : body.length + 2 - 1 = body.length + 1 ∧
        body.length + 2 - 2 = body.length + 0 := by omega
    simp only [List.length_cons, List.length_nil, Nat.zero_add, Nat.reduceAdd, hlength, hlast,
      hnext]
    simp [hunit a (by simp), hunit b (by simp)]

/-- A string without blanks is printed whole if and only if it fits what the padding leaves. -/
theorem printsWhole_iff_length {fmt : ℚ → Bytes} {n : ℚ} {width : ℕ}
    (hblank : ∀ c ∈ fmt n, c ≠ 32) :
    PrintsWhole fmt n width ↔ (fmt n).length ≤ width - unitPad (fmt n) := by
  rw [PrintsWhole, printUnits_eq]
  constructor
  · rintro ⟨i, j, heq⟩
    -- without the blanks, the cut string is the string
    have hself : (fmt n).filter (· ≠ 32) = fmt n := by
      rw [List.filter_eq_self]
      intro c hc
      simpa using hblank c hc
    have hcut : ((fmt n).take (width - unitPad (fmt n))).filter (· ≠ 32) =
        (fmt n).take (width - unitPad (fmt n)) := by
      rw [List.filter_eq_self]
      intro c hc
      simpa using hblank c (List.mem_of_mem_take hc)
    have hblanks : ∀ k, (List.replicate k (32 : UInt8)).filter (· ≠ 32) = [] := by
      intro k
      rw [List.filter_eq_nil_iff]
      intro c hc
      simp [List.eq_of_mem_replicate hc]
    have hfilter := congrArg (List.filter (· ≠ 32)) heq
    simp only [List.leftpad, List.filter_append, hblanks, hcut, hself, List.nil_append,
      List.append_nil] at hfilter
    have hlength := congrArg List.length hfilter
    rw [List.length_take] at hlength
    omega
  · intro hfits
    rw [List.take_of_length_le hfits]
    exact ⟨_, _, rfl⟩

/-! ## Formatted numbers -/

/-- The names of a table have at most two characters, all letters. -/
def Units.Lettered (m : Units) : Prop :=
  ∀ name ∈ m.names, name.length ≤ 2 ∧ ∀ c ∈ name, isAlpha c = true

theorem lettered_of_mem {m : Units} (hm : m ∈ unitTables) : m.Lettered := by
  simp only [unitTables, List.mem_cons, List.not_mem_nil, or_false] at hm
  rcases hm with rfl | rfl | rfl | rfl <;> simp only [Units.Lettered] <;> decide +kernel

/-- A formatted number is printed whole in a column if and only if its amount stays below the
    tie under the power of ten for which the column is too small. -/
theorem printsWhole_iff {m : Units} (hm : m ∈ unitTables) {fmt : ℚ → Bytes} {n amt : ℚ}
    {unit : Bytes} (hfmt : fmt n = fixed 2 amt ++ unit) (hunit : unit ∈ m.names) (hamt : 0 ≤ amt)
    {width : ℕ} (hwidth : 6 ≤ width) :
    PrintsWhole fmt n width ↔ amt < 10 ^ (width - 5) - 1 / 200 := by
  obtain ⟨hshort, hletters⟩ := lettered_of_mem hm _ hunit
  have hnumeric := isNumeric_fixed hamt
  have hlength := fixed_length hamt
  have hpad := unitPad_append hnumeric (by omega) hletters hshort
  have hblank : ∀ c ∈ fmt n, c ≠ 32 := by
    intro c hc
    rw [hfmt, List.mem_append] at hc
    rcases hc with hc | hc
    · exact (hnumeric c hc).2
    · rintro rfl
      exact absurd (hletters 32 hc) (by decide)
  rw [printsWhole_iff_length hblank, ← length_integralPart_le_iff hamt (by omega), hfmt,
    hpad, List.length_append, hlength]
  omega

/-! ## Roundings -/

/-- What a rounding is expected to do. -/
structure Rounding.Proper (r : Rounding) : Prop where
  mono : ∀ {x y : ℚ}, 0 < x → x ≤ y → r.longDouble x ≤ r.longDouble y
  nonneg : ∀ {x : ℚ}, 0 ≤ x → 0 ≤ r.longDouble x
  natCast : ∀ n : ℕ, 0 < n → n < 2 ^ 53 → r.longDouble n = n
  scaleUs : r.scale timeUnitsUs = 850
  scaleS : r.scale timeUnitsS = 51
  scaleMetric : r.scale metricUnits = 850

theorem Rounding.exact_proper : Rounding.exact.Proper where
  mono _ h := h
  nonneg h := h
  natCast _ _ _ := rfl
  scaleUs := by norm_num [Rounding.scale, Rounding.exact, timeUnitsUs]
  scaleS := by norm_num [Rounding.scale, Rounding.exact, timeUnitsS]
  scaleMetric := by norm_num [Rounding.scale, Rounding.exact, metricUnits]

theorem Rounding.x87_proper : Rounding.x87.Proper where
  mono hx h := roundBits_mono (by norm_num) hx h
  nonneg hx := roundBits_nonneg (by norm_num) hx
  natCast n hpos hn :=
    (hasBits_natCast (hn.trans (by norm_num))).roundBits_eq (by exact_mod_cast hpos)
  scaleUs := by decide +kernel
  scaleS := by decide +kernel
  scaleMetric := by decide +kernel

section Columns

variable {r : Rounding} {n x : ℚ} {width : ℕ}

/-- A number up to an integer is not rounded past it. -/
theorem Rounding.Proper.le_natCast (hr : r.Proper) (hx : 0 < x) {k : ℕ} (hk : 0 < k)
    (hlt : k < 2 ^ 53) (hle : x ≤ k) : r.longDouble x ≤ k :=
  (hr.mono hx hle).trans_eq (hr.natCast k hk hlt)

/-- A table of two units gets to the first of them at most. -/
theorem roundedUnit_two {m : Units} {first last : Bytes} (hunits : m.units = [first, last]) :
    roundedUnit r n m =
      if r.scale m ≤ n then (r.longDouble (n / m.scale), first) else (n, m.base) := by
  rw [roundedUnit, hunits, roundedLoop]
  split_ifs <;> rfl

/-- A latency below a second is printed in us or ms, and one that is rounded to `999.995` ms or
    more has a digit too many for eight columns. -/
theorem printsWhole_us_iff (hr : r.Proper) (hn : 0 ≤ n) (hlt : n < 1000000)
    (hwidth : width = 8 ∨ width = 10 ∨ width = 9) :
    PrintsWhole (formatTimeUs r) n width ↔
      ¬ (width = 8 ∧ 850 ≤ n ∧ 199999 / 200 ≤ r.longDouble (n / 1000)) := by
  have htable : timeUnitsUs ∈ unitTables := by simp [unitTables]
  have hunit := @roundedUnit_two r n timeUnitsUs _ _ rfl
  have hfmt : formatTimeUs r n = formatUnits r n timeUnitsUs 2 := if_neg (not_le.mpr hlt)
  rw [hr.scaleUs] at hunit
  by_cases hms : 850 ≤ n
  · have hbound : r.longDouble (n / 1000) ≤ (1000 : ℕ) :=
      hr.le_natCast (by positivity) (by norm_num) (by norm_num) (by push_cast; linarith)
    rw [if_pos hms] at hunit
    rw [printsWhole_iff htable
      (show formatTimeUs r n = fixed 2 (r.longDouble (n / 1000)) ++ ascii ['m', 's'] by
        rw [hfmt, formatUnits, hunit]
        rfl)
      (by simp [Units.names, timeUnitsUs]) (hr.nonneg (by positivity)) (by omega)]
    push_cast at hbound
    rcases hwidth with rfl | rfl | rfl
    · norm_num [hms]
    · exact iff_of_true (by norm_num; linarith) (by norm_num)
    · exact iff_of_true (by norm_num; linarith) (by norm_num)
  · rw [if_neg hms] at hunit
    rw [printsWhole_iff htable
      (show formatTimeUs r n = fixed 2 n ++ timeUnitsUs.base by rw [hfmt, formatUnits, hunit])
      (by simp [Units.names]) hn (by omega)]
    have hsmall := not_le.mp hms
    refine iff_of_true ?_ fun hcut => hms hcut.2.1
    rcases hwidth with rfl | rfl | rfl <;> norm_num <;> linarith

/-- A longer one is printed in s or m, never in hours: one that is rounded to `999.995` m or more
    has a digit too many. -/
theorem printsWhole_s_iff (hr : r.Proper) (hge : 1000000 ≤ n) (hmax : n ≤ maxLatency)
    (hwidth : width = 8 ∨ width = 10 ∨ width = 9) :
    PrintsWhole (formatTimeUs r) n width ↔
      ¬ (width = 8 ∧ 51 ≤ r.longDouble (n / 1000000) ∧
        199999 / 200 ≤ r.longDouble (r.longDouble (n / 1000000) / 60)) := by
  have htable : timeUnitsS ∈ unitTables := by simp [unitTables]
  have hunit := @roundedUnit_two r (r.longDouble (n / 1000000)) timeUnitsS _ _ rfl
  have hfmt : formatTimeUs r n = formatUnits r (r.longDouble (n / 1000000)) timeUnitsS 2 :=
    if_pos hge
  have hday : (maxLatency : ℚ) = 86400000000 := by norm_num [maxLatency]
  have hseconds : r.longDouble (n / 1000000) ≤ (86400 : ℕ) :=
    hr.le_natCast (by positivity) (by norm_num) (by norm_num) (by push_cast; linarith)
  push_cast at hseconds
  rw [hr.scaleS] at hunit
  by_cases hm : 51 ≤ r.longDouble (n / 1000000)
  · have hbound : r.longDouble (r.longDouble (n / 1000000) / 60) ≤ (1440 : ℕ) :=
      hr.le_natCast (by positivity) (by norm_num) (by norm_num) (by push_cast; linarith)
    rw [if_pos hm] at hunit
    rw [printsWhole_iff htable
      (show formatTimeUs r n =
          fixed 2 (r.longDouble (r.longDouble (n / 1000000) / 60)) ++ ascii ['m'] by
        rw [hfmt, formatUnits, hunit]
        rfl)
      (by simp [Units.names, timeUnitsS]) (hr.nonneg (by positivity)) (by omega)]
    push_cast at hbound
    rcases hwidth with rfl | rfl | rfl
    · norm_num [hm]
    · exact iff_of_true (by norm_num; linarith) (by norm_num)
    · exact iff_of_true (by norm_num; linarith) (by norm_num)
  · rw [if_neg hm] at hunit
    rw [printsWhole_iff htable
      (show formatTimeUs r n = fixed 2 (r.longDouble (n / 1000000)) ++ timeUnitsS.base by
        rw [hfmt, formatUnits, hunit])
      (by simp [Units.names]) (hr.nonneg (by positivity)) (by omega)]
    have hsmall := not_le.mp hm
    refine iff_of_true ?_ fun hcut => hm hcut.2.1
    rcases hwidth with rfl | rfl | rfl <;> norm_num <;> linarith

/-- With enough units left, the amount gets below `850`. -/
theorem roundedLoop_metric (hr : r.Proper) (units : List Bytes) {amt : ℚ} (unit : Bytes)
    (hamt : 0 ≤ amt) (hmax : amt ≤ 1000 ^ (units.length - 1)) (hlength : units.length ≤ 5) :
    (roundedLoop r metricUnits units amt unit).2 ∈ unit :: units ∧
      0 ≤ (roundedLoop r metricUnits units amt unit).1 ∧
      (roundedLoop r metricUnits units amt unit).1 < 850 := by
  induction units generalizing amt unit with
  | nil => exact ⟨List.mem_singleton.mpr rfl, hamt, lt_of_le_of_lt hmax (by norm_num)⟩
  | cons next units ih =>
    cases units with
    | nil => exact ⟨List.mem_cons_self, hamt, lt_of_le_of_lt hmax (by norm_num)⟩
    | cons after rest =>
      simp only [List.length_cons, Nat.add_sub_cancel] at hmax hlength ih
      rw [roundedLoop, hr.scaleMetric]
      split_ifs with hge
      · have hscale : (metricUnits.scale : ℚ) = 1000 := rfl
        have hpos : 0 < amt / 1000 := by positivity
        have hfits : 1000 ^ rest.length < 2 ^ 53 := by
          have hle : 1000 ^ rest.length ≤ 1000 ^ 3 :=
            Nat.pow_le_pow_right (by norm_num) (by omega)
          exact hle.trans_lt (by norm_num)
        have hstep : r.longDouble (amt / 1000) ≤ ((1000 ^ rest.length : ℕ) : ℚ) := by
          refine hr.le_natCast hpos (by positivity) hfits ?_
          rw [div_le_iff₀ (by norm_num), Nat.cast_pow, Nat.cast_ofNat, ← pow_succ]
          exact hmax
        obtain ⟨hmem, hnonneg, hsmall⟩ := ih next (hr.nonneg hpos.le)
          (by exact_mod_cast hstep) (by omega)
        rw [hscale]
        exact ⟨List.mem_cons_of_mem _ hmem, hnonneg, hsmall⟩
      · exact ⟨List.mem_cons_self, hamt, not_le.mp hge⟩

theorem printsWhole_metric (hr : r.Proper) (hn : 0 ≤ n) (hmax : n ≤ 10 ^ 12)
    (hwidth : width = 8 ∨ width = 10 ∨ width = 9) : PrintsWhole (formatMetric r) n width := by
  obtain ⟨hunit, hamt, hsmall⟩ := roundedLoop_metric hr metricUnits.units metricUnits.base hn
    (by norm_num [metricUnits]; linarith) (by decide)
  rw [printsWhole_iff (m := metricUnits) (by simp [unitTables]) rfl hunit hamt (by omega)]
  rcases hwidth with rfl | rfl | rfl <;> norm_num <;> linarith

end Columns

/-! ## The columns of `print_stats` -/

section Boundaries

variable {n : ℚ} {width : ℕ}

/-- In exact arithmetic a latency is cut from `999.995` ms up to a second, and from `999.995`
    minutes on. -/
theorem printsWhole_exact_iff (hn : 0 ≤ n) (hmax : n ≤ maxLatency)
    (hwidth : width = 8 ∨ width = 10 ∨ width = 9) :
    PrintsWhole (formatTimeUs .exact) n width ↔
      ¬ (width = 8 ∧ (999995 ≤ n ∧ n < 1000000 ∨ 59999700000 ≤ n)) := by
  rcases lt_or_ge n 1000000 with hlt | hge
  · have hiff : 850 ≤ n ∧ 199999 / 200 ≤ n / 1000 ↔
        999995 ≤ n ∧ n < 1000000 ∨ 59999700000 ≤ n := by
      constructor
      · exact fun h => Or.inl ⟨by linarith [h.2], hlt⟩
      · rintro (h | h)
        · exact ⟨by linarith [h.1], by linarith [h.1]⟩
        · linarith
    rw [printsWhole_us_iff Rounding.exact_proper hn hlt hwidth, ← hiff]
    rfl
  · have hiff : 51 ≤ n / 1000000 ∧ 199999 / 200 ≤ n / 1000000 / 60 ↔
        999995 ≤ n ∧ n < 1000000 ∨ 59999700000 ≤ n := by
      constructor
      · exact fun h => Or.inr (by linarith [h.2])
      · rintro (h | h)
        · linarith [h.2]
        · exact ⟨by linarith, by linarith⟩
    rw [printsWhole_s_iff Rounding.exact_proper hge hmax hwidth, ← hiff]
    rfl

/-- In the arithmetic of the x87 both quotients lie just below the tie at `999995` and at
    `59999700000`, and from the next number on they do not. -/
theorem printsWhole_x87_iff (hbits : HasBits 64 n) (hn : 0 ≤ n) (hmax : n ≤ maxLatency)
    (hwidth : width = 8 ∨ width = 10 ∨ width = 9) :
    PrintsWhole (formatTimeUs .x87) n width ↔
      ¬ (width = 8 ∧ (999995 < n ∧ n < 1000000 ∨ 59999700000 < n)) := by
  have hmono : ∀ {x y : ℚ}, 0 < x → x ≤ y → roundBits 64 x ≤ roundBits 64 y :=
    fun hx h => roundBits_mono (by norm_num) hx h
  rcases lt_or_ge n 1000000 with hlt | hge
  · have hiff : 850 ≤ n ∧ 199999 / 200 ≤ roundBits 64 (n / 1000) ↔
        999995 < n ∧ n < 1000000 ∨ 59999700000 < n := by
      constructor
      · rintro ⟨hlarge, htie⟩
        refine Or.inl ⟨?_, hlt⟩
        by_contra hle
        have hbelow : roundBits 64 (999995 / 1000) < 199999 / 200 := by decide +kernel
        exact absurd (htie.trans (hmono (by positivity) (by linarith [not_lt.mp hle])))
          (not_le.mpr hbelow)
      · rintro (⟨hgt, -⟩ | hgt)
        · have hnext := hbits.add_le (a := 19) (j := 999995 * 2 ^ 44) (by norm_num; linarith)
            (by norm_num; linarith)
          have habove : 199999 / 200 ≤ roundBits 64 ((999995 * 2 ^ 44 + 1) / 2 ^ 44 / 1000) := by
            decide +kernel
          refine ⟨by linarith, habove.trans (hmono (by norm_num) ?_)⟩
          norm_num at hnext ⊢
          linarith
        · linarith
    rw [printsWhole_us_iff Rounding.x87_proper hn hlt hwidth, ← hiff]
    rfl
  · have hiff : 51 ≤ roundBits 64 (n / 1000000) ∧
        199999 / 200 ≤ roundBits 64 (roundBits 64 (n / 1000000) / 60) ↔
          999995 < n ∧ n < 1000000 ∨ 59999700000 < n := by
      have hpositive : ∀ {x : ℚ}, 0 < x → 0 < roundBits 64 x :=
        fun hx => (zpow_pos (by norm_num) _).trans_le (le_roundBits (by norm_num) hx)
      constructor
      · rintro ⟨-, htie⟩
        refine Or.inr ?_
        by_contra hle
        have hbelow : roundBits 64 (roundBits 64 (59999700000 / 1000000) / 60) < 199999 / 200 := by
          decide +kernel
        have hquotient : roundBits 64 (n / 1000000) ≤ roundBits 64 (59999700000 / 1000000) :=
          hmono (by positivity) (by linarith [not_lt.mp hle])
        have hpos : 0 < roundBits 64 (n / 1000000) := hpositive (by positivity)
        exact absurd (htie.trans (hmono (by positivity) (by linarith))) (not_le.mpr hbelow)
      · rintro (⟨-, hlt⟩ | hgt)
        · linarith
        · have hnext := hbits.add_le (a := 35) (j := 59999700000 * 2 ^ 28)
            (by norm_num; linarith) (by norm_num; linarith)
          have habove : 199999 / 200 ≤ roundBits 64
              (roundBits 64 ((59999700000 * 2 ^ 28 + 1) / 2 ^ 28 / 1000000) / 60) := by
            decide +kernel
          have hlarge : 51 ≤ roundBits 64 ((59999700000 * 2 ^ 28 + 1) / 2 ^ 28 / 1000000) := by
            decide +kernel
          have hquotient : roundBits 64 ((59999700000 * 2 ^ 28 + 1) / 2 ^ 28 / 1000000) ≤
              roundBits 64 (n / 1000000) := by
            refine hmono (by norm_num) ?_
            norm_num at hnext ⊢
            linarith
          exact ⟨hlarge.trans hquotient, habove.trans (hmono (by linarith) (by linarith))⟩
    rw [printsWhole_s_iff Rounding.x87_proper hge hmax hwidth, ← hiff]
    rfl

end Boundaries

/-- A latency is cut exactly in the column of eight: with exact results from `999.995` ms up to a
    second and from `999.995` minutes on, with those of the x87 only above these two. No rate is
    cut. -/
theorem printUnits_whole_iff {width : ℕ} (hwidth : width = 8 ∨ width = 10 ∨ width = 9) :
    (∀ n : ℚ, 0 ≤ n → n ≤ maxLatency →
      (PrintsWhole (formatTimeUs .exact) n width ↔
        ¬ (width = 8 ∧ (999995 ≤ n ∧ n < 1000000 ∨ 59999700000 ≤ n))) ∧
      (HasBits 64 n → (PrintsWhole (formatTimeUs .x87) n width ↔
        ¬ (width = 8 ∧ (999995 < n ∧ n < 1000000 ∨ 59999700000 < n))))) ∧
    ∀ n : ℚ, 0 ≤ n → n ≤ 10 ^ 12 →
      PrintsWhole (formatMetric .exact) n width ∧ PrintsWhole (formatMetric .x87) n width :=
  ⟨fun _ hn hmax => ⟨printsWhole_exact_iff hn hmax hwidth,
      fun hbits => printsWhole_x87_iff hbits hn hmax hwidth⟩,
    fun _ hn hmax => ⟨printsWhole_metric Rounding.exact_proper hn hmax hwidth,
      printsWhole_metric Rounding.x87_proper hn hmax hwidth⟩⟩

/-- A latency of one and a half seconds, in the narrowest column. -/
theorem printUnits_whole_iff_seconds : PrintsWhole (formatTimeUs .x87) 1500000 8 := by
  have hmax : (1500000 : ℚ) ≤ maxLatency := by norm_num [maxLatency]
  refine (((printUnits_whole_iff (Or.inl rfl)).1 1500000 (by norm_num) hmax).2
    (hasBits_natCast (n := 1500000) (by norm_num))).mpr ?_
  norm_num

/-- Four microseconds under a second are printed as a thousand minutes. -/
theorem printUnits_cut :
    formatTimeUs .x87 999996 = ascii ['1', '0', '0', '0', '.', '0', '0', 'm', 's'] ∧
    printUnits 999996 (formatTimeUs .x87) 8 = ascii ['1', '0', '0', '0', '.', '0', '0', 'm'] ∧
    ¬ PrintsWhole (formatTimeUs .x87) 999996 8 ∧ ¬ PrintsWhole (formatTimeUs .exact) 999996 8 := by
  have hmax : (999996 : ℚ) ≤ maxLatency := by norm_num [maxLatency]
  have hbits : HasBits 64 999996 := hasBits_natCast (n := 999996) (by norm_num)
  refine ⟨by decide +kernel, by decide +kernel, ?_, ?_⟩
  · rw [printsWhole_x87_iff hbits (by norm_num) hmax (Or.inl rfl)]
    norm_num
  · rw [printsWhole_exact_iff (by norm_num) hmax (Or.inl rfl)]
    norm_num

end Wrkx
