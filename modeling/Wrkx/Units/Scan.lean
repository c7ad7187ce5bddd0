import Mathlib.Data.List.TakeWhile
import Wrkx.Units.Columns

/-!
# Reading a number with a unit

`scan_units` reads its string with `sscanf`, which skips white space, takes a sign, saturates,
and looks at nothing after the unit. `CutInto` says how a string falls into the parts that
`sscanf` reads, and `Denotes` what a well-formed string means.

## Main results

- `cutInto_iff` — a string with digits falls into parts in one way
- `scanUnits_of_cut`, `scanUnits_eq_neg_one` — what is accepted, and what is refused
- `scan_units_iff` — which strings are read exactly or refused
-/

namespace Wrkx

open CString

variable {m : Units} {s : Bytes} {p : Pieces}

/-! ## The parts of a string -/

/-- The string falls into the parts `p`, each as long as `sscanf` makes it. -/
structure CutInto (s : Bytes) (p : Pieces) : Prop where
  text : s = p.space ++ (p.sign ++ (p.digits ++ (p.gap ++ (p.unit ++ p.rest))))
  space : ∀ c ∈ p.space, isSpace c = true
  sign : p.sign = [] ∨ ∃ c, isSign c = true ∧ p.sign = [c]
  digits_ne : p.digits ≠ []
  digits : ∀ c ∈ p.digits, isDigit c = true
  gap : ∀ c ∈ p.gap, isSpace c = true
  unit : ∀ c ∈ p.unit, isSpace c = false
  unit_head : p.gap = [] → StopsAt isDigit p.unit
  unit_end : p.unit.length = 2 ∨ p.unit.length < 2 ∧ StopsAt (fun c => !isSpace c) p.rest
  no_unit : p.unit = [] → p.rest = []

/-- The parts are those that the scanner finds, one after another. -/
theorem CutInto.pieces_eq (hc : CutInto s p) : pieces s = p := by
  obtain ⟨d, ds, hds⟩ := List.exists_cons_of_ne_nil hc.digits_ne
  have hd : isDigit d = true := hc.digits d (by simp [hds])
  have hsign : StopsAt isSpace (p.sign ++ (p.digits ++ (p.gap ++ (p.unit ++ p.rest)))) := by
    rcases hc.sign with hnil | ⟨c, hsign, hcons⟩
    · simp [hnil, hds, isSpace_eq_false_of_isDigit hd]
    · simp [hcons, not_isSpace_of_isSign hsign]
  have hword : StopsAt isSpace (p.unit ++ p.rest) := by
    cases hunit : p.unit with
    | nil => simp [hc.no_unit hunit]
    | cons u us => simpa using hc.unit u (by simp [hunit])
  have hgap : StopsAt isDigit (p.gap ++ (p.unit ++ p.rest)) := by
    cases hg : p.gap with
    | nil =>
      cases hunit : p.unit with
      | nil => simp [hc.no_unit hunit]
      | cons u us =>
        have := hc.unit_head hg
        rw [hunit] at this
        simpa using this
    | cons g gs => simpa using not_isDigit_of_isSpace (hc.gap g (by simp [hg]))
  have hunit : ((p.unit ++ p.rest).takeWhile fun c => !isSpace c).take 2 = p.unit := by
    have hnonspace : ∀ c ∈ p.unit, (!isSpace c) = true := fun c hmem => by
      simp [hc.unit c hmem]
    rcases hc.unit_end with htwo | ⟨hshort, hstop⟩
    · rw [List.takeWhile_append_of_pos hnonspace, List.take_left' htwo]
    · rw [takeWhile_span hnonspace hstop, List.take_of_length_le hshort.le]
  rw [hc.text]
  simp only [pieces, dropWhile_span hc.space hsign, takeWhile_span hc.space hsign,
    cutSign_append hc.sign hc.digits_ne hc.digits, takeWhile_span hc.digits hgap,
    dropWhile_span hc.digits hgap, takeWhile_span hc.gap hword, dropWhile_span hc.gap hword,
    hunit, List.drop_left]

/-- The first two characters of a word: what is left of the word, if any, follows them. -/
theorem take_two_spec {w : Bytes} (hstop : StopsAt isSpace w) {u : Bytes}
    (hu : u = (w.takeWhile fun c => !isSpace c).take 2) :
    u ++ w.drop u.length = w ∧ (∀ c ∈ u, isSpace c = false) ∧
      (u.length = 2 ∨ u.length < 2 ∧ StopsAt (fun c => !isSpace c) (w.drop u.length)) ∧
      (u = [] → w.drop u.length = []) := by
  have hprefix : u <+: w := hu ▸ (List.take_prefix 2 _).trans (List.takeWhile_prefix _)
  obtain ⟨t, ht⟩ := hprefix
  have hdrop : w.drop u.length = t := by rw [← ht, List.drop_left]
  refine ⟨hdrop.symm ▸ ht, ?_, ?_, ?_⟩
  · intro c hc
    rw [hu] at hc
    simpa using List.mem_takeWhile_imp (List.mem_of_mem_take hc)
  · rcases Nat.lt_or_ge (w.takeWhile fun c => !isSpace c).length 2 with hshort | hlong
    · rw [List.take_of_length_le hshort.le] at hu
      have hrest : w.drop u.length = w.dropWhile fun c => !isSpace c := by
        have hcat := List.takeWhile_append_dropWhile (p := fun c => !isSpace c) (l := w)
        rw [← hu] at hcat
        conv_lhs => rw [← hcat]
        rw [List.drop_left]
      rw [hrest]
      exact Or.inr ⟨hu ▸ hshort, stopsAt_dropWhile _ w⟩
    · left
      rw [hu, List.length_take]
      omega
  · intro hnil
    cases w with
    | nil => simp
    | cons c w =>
      have hc : isSpace c = false := by simpa using hstop
      simp [hc, hnil] at hu

theorem cutInto_pieces (hne : (pieces s).digits ≠ []) : CutInto s (pieces s) := by
  obtain ⟨a, ha⟩ : ∃ a, s.dropWhile isSpace = a := ⟨_, rfl⟩
  obtain ⟨c, hc⟩ : ∃ c, (cutSign a).2.dropWhile isDigit = c := ⟨_, rfl⟩
  obtain ⟨w, hw⟩ : ∃ w, c.dropWhile isSpace = w := ⟨_, rfl⟩
  obtain ⟨hsigned, hsign⟩ := cutSign_spec a
  obtain ⟨hunit, hnonspace, hend, hnone⟩ :=
    take_two_spec (hw ▸ stopsAt_dropWhile isSpace c) (u := _) rfl
  have hdigits := List.takeWhile_append_dropWhile (p := isDigit) (l := (cutSign a).2)
  have hgap := List.takeWhile_append_dropWhile (p := isSpace) (l := c)
  have hspace := List.takeWhile_append_dropWhile (p := isSpace) (l := s)
  rw [ha] at hspace
  rw [hc] at hdigits
  rw [hw] at hgap
  simp only [pieces, ha, hc, hw] at hne ⊢
  refine ⟨?_, ?_, hsign, hne, ?_, ?_, hnonspace, ?_, hend, hnone⟩
  · rw [hunit, hgap, hdigits, hsigned, hspace]
  · exact fun _ => List.mem_takeWhile_imp
  · exact fun _ => List.mem_takeWhile_imp
  · exact fun _ => List.mem_takeWhile_imp
  · -- without a gap the word starts where the digits ended
    intro hnogap
    dsimp only at hnogap ⊢
    rw [hnogap, List.nil_append] at hgap
    have hstop : StopsAt isDigit w := hgap ▸ hc ▸ stopsAt_dropWhile isDigit _
    intro x hx
    refine hstop x ?_
    rw [← hunit]
    exact List.mem_head?_append_of_mem_head? hx

/-- A string with digits falls into parts in one way. -/
theorem cutInto_iff : CutInto s p ↔ p = pieces s ∧ p.digits ≠ [] :=
  ⟨fun hc => ⟨hc.pieces_eq.symm, hc.digits_ne⟩, fun h => h.1 ▸ cutInto_pieces (h.1 ▸ h.2)⟩

/-! ## Unit tables -/

/-- The string names the `k`-th unit of the table in any case, or is left out for the base. -/
def KnownUnit (m : Units) (unit : Bytes) (k : ℕ) : Prop :=
  (unit = [] ∧ k = 0) ∨ ∃ name, m.names[k]? = some name ∧ unit.map toLower = name.map toLower

/-- What `scan_units` needs of a table. -/
structure Units.Scannable (m : Units) : Prop where
  lettered : m.Lettered
  distinct : (m.names.map fun name => name.map toLower).Nodup
  named : ∀ name ∈ m.units, name ≠ []
  scale_pos : 1 ≤ m.scale
  fits : m.scale ^ m.units.length < 2 ^ 64

theorem metricUnits_scannable : metricUnits.Scannable where
  lettered := lettered_of_mem (by simp [unitTables])
  distinct := by decide
  named := by decide
  scale_pos := by decide
  fits := by decide

theorem timeUnitsS_scannable : timeUnitsS.Scannable where
  lettered := lettered_of_mem (by simp [unitTables])
  distinct := by decide
  named := by decide
  scale_pos := by decide
  fits := by decide

/-- A string names at most one unit. -/
theorem Units.Scannable.known_unique (hm : m.Scannable) {unit : Bytes} {i j : ℕ}
    (hi : KnownUnit m unit i) (hj : KnownUnit m unit j) : i = j := by
  have hnil : ∀ k, KnownUnit m [] k → k = 0 := by
    rintro k (⟨-, rfl⟩ | ⟨name, hname, heq⟩)
    · rfl
    · cases k with
      | zero => rfl
      | succ k =>
        rw [Units.names, List.getElem?_cons_succ] at hname
        have hempty : name = [] := by simpa using heq.symm
        exact absurd hempty (hm.named name (List.mem_of_getElem? hname))
  rcases hi with ⟨rfl, rfl⟩ | ⟨name, hname, heq⟩
  · exact (hnil j hj).symm
  · rcases hj with ⟨rfl, rfl⟩ | ⟨name', hname', heq'⟩
    · exact hnil i (Or.inr ⟨name, hname, heq⟩)
    · have hlt : i < (m.names.map fun name => name.map toLower).length := by
        rw [List.length_map]
        by_contra hge
        rw [List.getElem?_eq_none (not_lt.mp hge)] at hname
        exact absurd hname (by simp)
      refine (List.getElem?_inj hlt hm.distinct).mp ?_
      rw [List.getElem?_map, List.getElem?_map, hname, hname', Option.map_some, Option.map_some,
        ← heq, ← heq']

theorem sameNCase_name (hm : m.Scannable) {unit name : Bytes} (hunit : unit.length ≤ 2)
    (hname : name ∈ m.names) :
    sameNCase unit name 3 = true ↔ unit.map toLower = name.map toLower :=
  sameNCase_iff (by omega) (by have := (hm.lettered name hname).1; omega)

/-- The loop over the table finds the scale of a unit that stands at `j` in what is left. -/
theorem unitScale_eq_some_iff (hm : m.Scannable) {unit : Bytes} (hunit : unit.length ≤ 2)
    {units : List Bytes} (hsub : ∀ name ∈ units, name ∈ m.names)
    (hdistinct : (units.map fun name => name.map toLower).Nodup) {i : ℕ}
    (hfits : m.scale ^ (i + units.length) < 2 ^ 64) {scale : ℕ} :
    unitScale m unit units (m.scale ^ i) = some scale ↔
      ∃ j name, units[j]? = some name ∧ unit.map toLower = name.map toLower ∧
        scale = m.scale ^ (i + j + 1) := by
  induction units generalizing i with
  | nil => simp [unitScale]
  | cons name units ih =>
    have hword : m.scale ^ i * m.scale % 2 ^ 64 = m.scale ^ (i + 1) := by
      rw [← pow_succ]
      refine Nat.mod_eq_of_lt (lt_of_le_of_lt ?_ hfits)
      exact Nat.pow_le_pow_right hm.scale_pos (by simp)
    have hsame := sameNCase_name hm hunit (hsub name (by simp))
    rw [List.map_cons, List.nodup_cons] at hdistinct
    rw [unitScale, hword]
    by_cases heq : unit.map toLower = name.map toLower
    · -- the unit is the first name, and no later one
      rw [if_pos (hsame.mpr heq)]
      constructor
      · intro h
        exact ⟨0, name, rfl, heq, (Option.some.inj h).symm⟩
      · rintro ⟨j, other, hother, hmatch, rfl⟩
        cases j with
        | zero => rfl
        | succ j =>
          rw [List.getElem?_cons_succ] at hother
          refine absurd (List.mem_map.mpr ⟨other, List.mem_of_getElem? hother, ?_⟩) hdistinct.1
          rw [← hmatch, heq]
    · rw [if_neg (fun h => heq (hsame.mp h)), ih (fun other h => hsub other (by simp [h]))
        hdistinct.2 (by rw [List.length_cons] at hfits; rwa [Nat.add_right_comm])]
      constructor
      · rintro ⟨j, other, hother, hmatch, rfl⟩
        exact ⟨j + 1, other, by simpa using hother, hmatch, by ring_nf⟩
      · rintro ⟨j, other, hother, hmatch, rfl⟩
        cases j with
        | zero =>
          rw [List.getElem?_cons_zero, Option.some.injEq] at hother
          exact absurd (hother ▸ hmatch) heq
        | succ j =>
          exact ⟨j, other, by simpa using hother, hmatch, by ring_nf⟩

/-- The loop of `scan_units` over the whole table. -/
theorem Units.Scannable.unitScale_units_iff (hm : m.Scannable) {unit : Bytes}
    (hunit : unit.length ≤ 2) {scale : ℕ} :
    unitScale m unit m.units 1 = some scale ↔
      ∃ j name, m.units[j]? = some name ∧ unit.map toLower = name.map toLower ∧
        scale = m.scale ^ (j + 1) := by
  have hdistinct := hm.distinct
  rw [Units.names, List.map_cons, List.nodup_cons] at hdistinct
  have hfits : m.scale ^ (0 + m.units.length) < 2 ^ 64 := by simpa using hm.fits
  have hsub : ∀ name ∈ m.units, name ∈ m.names := fun name h => by simp [Units.names, h]
  have hiff : unitScale m unit m.units (m.scale ^ 0) = some scale ↔ _ :=
    unitScale_eq_some_iff hm hunit hsub hdistinct.2 hfits
  simpa only [pow_zero, Nat.zero_add] using hiff

/-! ## What is accepted -/

/-- A string that falls into parts with a known unit is accepted, whatever stands around the
    number and the unit. -/
theorem scanUnits_of_cut (hm : m.Scannable) (hc : CutInto s p) {k : ℕ}
    (hk : KnownUnit m p.unit k) (n : ℕ) :
    scanUnits s n m = (0, unsignedWord p.sign p.digits * m.scale ^ k % 2 ^ 64) := by
  have hunit : p.unit.length ≤ 2 := by
    rcases hc.unit_end with h | ⟨h, -⟩ <;> omega
  have hbase := sameNCase_name hm hunit (show m.base ∈ m.names by simp [Units.names])
  have hitems : ¬ itemsScanned p < 1 := by
    rw [itemsScanned, if_neg hc.digits_ne]
    split <;> norm_num
  simp only [scanUnits, hc.pieces_eq, hitems, if_false]
  rcases Nat.eq_zero_or_pos k with rfl | hpos
  · -- without a unit, or with the base, the loop over the table is not entered
    have hskip : ¬ (itemsScanned p = 2 ∧ sameNCase p.unit m.base 3 = false) := by
      rintro ⟨htwo, hother⟩
      rcases hk with ⟨hnil, -⟩ | ⟨name, hname, heq⟩
      · rw [itemsScanned, if_neg hc.digits_ne, if_pos hnil] at htwo
        exact absurd htwo (by norm_num)
      · obtain rfl : m.base = name := by simpa [Units.names] using hname
        exact absurd (hbase.mpr heq) (by simp [hother])
    rw [if_neg hskip, pow_zero]
  · obtain ⟨j, rfl⟩ : ∃ j, k = j + 1 := ⟨k - 1, by omega⟩
    obtain ⟨-, hzero⟩ | ⟨name, hname, heq⟩ := hk
    · omega
    have hne : p.unit ≠ [] := by
      rintro hnil
      have := hm.known_unique (Or.inl ⟨hnil, rfl⟩) (Or.inr ⟨name, hname, heq⟩)
      omega
    have hother : sameNCase p.unit m.base 3 = false := by
      by_contra hsame
      have hfirst : KnownUnit m p.unit 0 :=
        Or.inr ⟨m.base, rfl, hbase.mp (by simpa using hsame)⟩
      have := hm.known_unique hfirst (Or.inr ⟨name, hname, heq⟩)
      omega
    have htwo : itemsScanned p = 2 := by rw [itemsScanned, if_neg hc.digits_ne, if_neg hne]
    have hscale := (hm.unitScale_units_iff hunit).mpr
      ⟨j, name, by simpa [Units.names] using hname, heq, rfl⟩
    simp only [htwo, hother, and_self, if_true, hscale]

/-- Any other string is refused. -/
theorem scanUnits_eq_neg_one (hm : m.Scannable)
    (hno : ¬ ∃ p k, CutInto s p ∧ KnownUnit m p.unit k) (n : ℕ) : scanUnits s n m = (-1, n) := by
  by_cases hne : (pieces s).digits = []
  · have hitems : itemsScanned (pieces s) < 1 := by simp [itemsScanned, hne]
    simp only [scanUnits, hitems, if_true]
  · have hc := cutInto_pieces hne
    have hunknown : ∀ k, ¬ KnownUnit m (pieces s).unit k := fun k hk => hno ⟨_, k, hc, hk⟩
    have hunit : (pieces s).unit.length ≤ 2 := by
      rcases hc.unit_end with h | ⟨h, -⟩ <;> omega
    have hunit_ne : (pieces s).unit ≠ [] := fun hnil => hunknown 0 (Or.inl ⟨hnil, rfl⟩)
    have htwo : itemsScanned (pieces s) = 2 := by
      rw [itemsScanned, if_neg hne, if_neg hunit_ne]
    have hother : sameNCase (pieces s).unit m.base 3 = false := by
      by_contra hsame
      have heq := (sameNCase_name hm hunit (show m.base ∈ m.names by simp [Units.names])).mp
        (by simpa using hsame)
      exact hunknown 0 (Or.inr ⟨m.base, rfl, heq⟩)
    have hnone : unitScale m (pieces s).unit m.units 1 = none := by
      by_contra hsome
      obtain ⟨scale, hscale⟩ := Option.ne_none_iff_exists'.mp hsome
      obtain ⟨j, name, hname, heq, -⟩ := (hm.unitScale_units_iff hunit).mp hscale
      exact hunknown (j + 1) (Or.inr ⟨name, by simpa [Units.names] using hname, heq⟩)
    simp [scanUnits, htwo, hother, hnone]

/-! ## What is read exactly -/

/-- The string is a run of decimal digits, followed by nothing or by a unit of the table, and
    stands for the number `v`. -/
def Denotes (m : Units) (s : Bytes) (v : ℕ) : Prop :=
  ∃ digits unit k, s = digits ++ unit ∧ digits ≠ [] ∧ (∀ c ∈ digits, isDigit c = true) ∧
    KnownUnit m unit k ∧ v = value 10 digits * m.scale ^ k

/-- `scan_units` stores what the string stands for, if this fits 64 bits; otherwise it fails
    and stores nothing. -/
def ReadsExactly (m : Units) (s : Bytes) (n : ℕ) : Prop :=
  (∃ v, Denotes m s v ∧ v < 2 ^ 64 ∧ scanUnits s n m = (0, v)) ∨
  ((¬ ∃ v, Denotes m s v ∧ v < 2 ^ 64) ∧ scanUnits s n m = (-1, n))

/-- The string is a number with a known unit but for white space before it, a sign, white
    space before the unit or anything after it, or it stands for a number of more than 64
    bits. -/
def Slips (m : Units) (s : Bytes) : Prop :=
  ∃ p k, CutInto s p ∧ KnownUnit m p.unit k ∧
    (p.space ≠ [] ∨ p.sign ≠ [] ∨ p.gap ≠ [] ∨ p.rest ≠ [] ∨
      2 ^ 64 ≤ value 10 p.digits * m.scale ^ k)

theorem KnownUnit.spec (hm : m.Scannable) {unit : Bytes} {k : ℕ} (hk : KnownUnit m unit k) :
    unit.length ≤ 2 ∧ ∀ c ∈ unit, isDigit c = false ∧ isSpace c = false := by
  rcases hk with ⟨rfl, -⟩ | ⟨name, hname, heq⟩
  · simp
  · obtain ⟨hshort, hletters⟩ := hm.lettered name (List.mem_of_getElem? hname)
    have hlength := congrArg List.length heq
    rw [List.length_map, List.length_map] at hlength
    refine ⟨hlength ▸ hshort, fun c hc => ?_⟩
    obtain ⟨d, hd, hlower⟩ := List.mem_map.mp (heq ▸ List.mem_map_of_mem hc)
    have := not_isDigit_of_isAlpha (hletters d hd)
    rw [← isDigit_toLower, ← isSpace_toLower] at this ⊢
    rwa [← hlower]

/-- A string that stands for a number falls into its digits and its unit. -/
theorem Denotes.cut (hm : m.Scannable) {v : ℕ} (hd : Denotes m s v) :
    ∃ p k, CutInto s p ∧ KnownUnit m p.unit k ∧ p.space = [] ∧ p.sign = [] ∧ p.gap = [] ∧
      p.rest = [] ∧ v = value 10 p.digits * m.scale ^ k := by
  obtain ⟨digits, unit, k, rfl, hne, hdigits, hk, rfl⟩ := hd
  obtain ⟨hshort, hclass⟩ := hk.spec hm
  refine ⟨⟨[], [], digits, [], unit, []⟩, k, ?_, hk, rfl, rfl, rfl, rfl, rfl⟩
  refine ⟨by simp, by simp, Or.inl rfl, hne, hdigits, by simp, fun c hc => (hclass c hc).2,
    fun _ c hc => (hclass c (List.mem_of_mem_head? hc)).1, ?_, fun _ => rfl⟩
  rcases Nat.lt_or_ge unit.length 2 with hlt | hge
  · exact Or.inr ⟨hlt, by simp⟩
  · exact Or.inl (le_antisymm hshort hge)

theorem CutInto.unique {q : Pieces} (hp : CutInto s p) (hq : CutInto s q) : p = q :=
  hp.pieces_eq.symm.trans hq.pieces_eq

/-- The parts of a string decide whether it has a slip. -/
theorem CutInto.not_slips_iff (hm : m.Scannable) (hc : CutInto s p) {k : ℕ}
    (hk : KnownUnit m p.unit k) :
    ¬ Slips m s ↔ p.space = [] ∧ p.sign = [] ∧ p.gap = [] ∧ p.rest = [] ∧
      value 10 p.digits * m.scale ^ k < 2 ^ 64 := by
  constructor
  · intro hclean
    by_contra hdirty
    refine hclean ⟨p, k, hc, hk, ?_⟩
    by_contra hnone
    push Not at hnone
    exact hdirty hnone
  · rintro ⟨hspace, hsign, hgap, hrest, hsmall⟩ ⟨q, j, hq, hj, hslip⟩
    obtain rfl := hc.unique hq
    obtain rfl := hm.known_unique hk hj
    rcases hslip with h | h | h | h | h
    · exact h hspace
    · exact h hsign
    · exact h hgap
    · exact h hrest
    · omega

theorem CutInto.readsExactly_iff (hm : m.Scannable) (hc : CutInto s p) {k : ℕ}
    (hk : KnownUnit m p.unit k) (n : ℕ) :
    ReadsExactly m s n ↔ p.space = [] ∧ p.sign = [] ∧ p.gap = [] ∧ p.rest = [] ∧
      value 10 p.digits * m.scale ^ k < 2 ^ 64 := by
  have hscan := scanUnits_of_cut hm hc hk n
  constructor
  · rintro (⟨v, hd, hv, -⟩ | ⟨-, hrefused⟩)
    · obtain ⟨q, j, hq, hj, hspace, hsign, hgap, hrest, rfl⟩ := hd.cut hm
      obtain rfl := hc.unique hq
      obtain rfl := hm.known_unique hk hj
      exact ⟨hspace, hsign, hgap, hrest, hv⟩
    · -- such a string is accepted
      rw [hscan] at hrefused
      exact absurd (congrArg Prod.fst hrefused) (by norm_num)
  · rintro ⟨hspace, hsign, hgap, hrest, hsmall⟩
    refine Or.inl ⟨value 10 p.digits * m.scale ^ k, ?_, hsmall, ?_⟩
    · refine ⟨p.digits, p.unit, k, ?_, hc.digits_ne, hc.digits, hk, rfl⟩
      simpa [hspace, hsign, hgap, hrest] using hc.text
    · -- the digits alone fit a word, and the product does not wrap
      have hword : unsignedWord p.sign p.digits = value 10 p.digits := by
        have hle : value 10 p.digits ≤ value 10 p.digits * m.scale ^ k :=
          Nat.le_mul_of_pos_right _ (Nat.pow_pos hm.scale_pos)
        rw [unsignedWord, if_neg (by omega), if_neg (by simp [hsign])]
      rw [hscan, hword, Nat.mod_eq_of_lt hsmall]

/-- `scan_units` reads exactly, or refuses, every string without a slip, and no other. -/
theorem readsExactly_iff (hm : m.Scannable) (s : Bytes) (n : ℕ) :
    ReadsExactly m s n ↔ ¬ Slips m s := by
  by_cases haccepted : ∃ p k, CutInto s p ∧ KnownUnit m p.unit k
  · obtain ⟨p, k, hc, hk⟩ := haccepted
    rw [hc.readsExactly_iff hm hk, hc.not_slips_iff hm hk]
  · have hrefused := scanUnits_eq_neg_one hm haccepted n
    refine iff_of_true (Or.inr ⟨?_, hrefused⟩) ?_
    · rintro ⟨v, hd, -⟩
      obtain ⟨p, k, hc, hk, -⟩ := hd.cut hm
      exact haccepted ⟨p, k, hc, hk⟩
    · rintro ⟨p, k, hc, hk, -⟩
      exact haccepted ⟨p, k, hc, hk⟩

/-- `scan_metric` and `scan_time` read exactly, or refuse, the strings without a slip. -/
theorem scan_units_iff (s : Bytes) (n : ℕ) :
    (ReadsExactly metricUnits s n ↔ ¬ Slips metricUnits s) ∧
      (ReadsExactly timeUnitsS s n ↔ ¬ Slips timeUnitsS s) :=
  ⟨readsExactly_iff metricUnits_scannable s n, readsExactly_iff timeUnitsS_scannable s n⟩

/-- A rate of `-1` is read as the largest word. -/
theorem scan_units_sign : scanUnits (ascii ['-', '1']) 0 metricUnits = (0, 2 ^ 64 - 1) ∧
    ¬ ReadsExactly metricUnits (ascii ['-', '1']) 0 := by
  have hscan : scanUnits (ascii ['-', '1']) 0 metricUnits = (0, 2 ^ 64 - 1) := by decide +kernel
  refine ⟨hscan, ?_⟩
  rw [readsExactly_iff metricUnits_scannable, not_not]
  have hc : CutInto (ascii ['-', '1']) (pieces (ascii ['-', '1'])) := cutInto_pieces (by decide)
  exact ⟨_, 0, hc, Or.inl ⟨by decide, rfl⟩, Or.inr (Or.inl (by decide))⟩

end Wrkx
