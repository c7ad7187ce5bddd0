import Mathlib.Data.Finset.Insert
import Mathlib.Data.List.Forall2
import Wrkx.Base.Word
import Wrkx.Units.Units

/-!
# CPU lists

`scan_affinity` cuts its string at commas with `strtok_r`, which merges empty items, and reads
every token with `strtol`, which stops silently at the first character that is no digit.

## Main results

- `affinityLoop_eq` — the loop over the tokens
- `tokens_intercalate` — the tokens of a list of items
- `scansExactly_iff` — which strings are scanned exactly
-/

namespace Wrkx

open CString Word

/-- `cpu_set_t`, with `CPU_SETSIZE` bits. -/
abbrev CpuSet := Finset ℕ

/-- `CPU_SETSIZE`. -/
def cpuSetSize : ℕ := 1024

/-- `CPU_ZERO`, then `CPU_SET`: a number beyond the size sets no bit. The macro reads the
    number as a `size_t`. -/
def cpuSet (val : ℤ) : CpuSet := if uint64 val < cpuSetSize then {uint64 val} else ∅

/-- The loop of `scan_affinity`, allowed `fuel` tokens; `none` when `strtol` sets `errno`. -/
def affinityLoop : ℕ → Bytes → List CpuSet → Option (List CpuSet)
  | 0, _, _ => none
  | fuel + 1, s, head =>
    match strtok 44 s with
    | none => some head
    | some (token, rest) =>
      if (strtol token).2 then none
      else affinityLoop fuel rest (head ++ [cpuSet (int32 (strtol token).1)])

/-- `scan_affinity`: the result, and `*as_head` afterwards. The head stays `NULL` when there is
    no token. -/
def scanAffinity (s : Bytes) (asHead : Option (List CpuSet)) : ℤ × Option (List CpuSet) :=
  match affinityLoop (s.length + 1) s [] with
  | none => (-1, asHead)
  | some sets => (0, if sets = [] then none else some sets)

/-! ## Tokens -/

/-- The tokens of a string, at most `fuel` of them. -/
def tokensUpTo : ℕ → Bytes → List Bytes
  | 0, _ => []
  | fuel + 1, s =>
    match strtok 44 s with
    | none => []
    | some (token, rest) => token :: tokensUpTo fuel rest

/-- The tokens that `strtok_r` cuts a string into. -/
def tokens (s : Bytes) : List Bytes := tokensUpTo (s.length + 1) s

/-- A token is cut off a string that gets shorter. -/
theorem strtok_length {s token rest : Bytes} (h : strtok 44 s = some (token, rest)) :
    rest.length < s.length := by
  simp only [strtok] at h
  split at h
  · exact absurd h (by simp)
  · rename_i hne
    simp only [Option.some.injEq, Prod.mk.injEq] at h
    obtain ⟨-, rfl⟩ := h
    have hle := (List.dropWhile_suffix (l := s) fun c => decide (c = 44)).length_le
    have hstop := stopsAt_dropWhile (fun c => decide (c = 44)) s
    generalize s.dropWhile (fun c => decide (c = 44)) = t at hne hle hstop
    cases t with
    | nil => exact absurd rfl hne
    | cons c t =>
      have hc : c ≠ 44 := by simpa using hstop
      have hrest := (List.dropWhile_suffix (l := t) fun c => decide (c ≠ 44)).length_le
      rw [List.dropWhile_cons_of_pos (by simpa using hc), List.length_drop]
      simp only [List.length_cons] at hle
      omega

/-- The loop fails when a token is out of range, and otherwise adds one set a token. -/
theorem affinityLoop_eq {fuel : ℕ} {s : Bytes} (hfuel : s.length < fuel) (head : List CpuSet) :
    affinityLoop fuel s head =
      if (tokensUpTo fuel s).any fun token => (strtol token).2 then none
      else some (head ++ (tokensUpTo fuel s).map fun token => cpuSet (int32 (strtol token).1)) := by
  induction fuel generalizing s head with
  | zero => omega
  | succ fuel ih =>
    rw [affinityLoop, tokensUpTo]
    cases hcut : strtok 44 s with
    | none => simp
    | some cut =>
      obtain ⟨token, rest⟩ := cut
      have hlt := strtok_length hcut
      by_cases herr : (strtol token).2 = true
      · simp [herr]
      · simp only [Bool.not_eq_true] at herr
        simp [herr, ih (show rest.length < fuel by omega)]

theorem strtok_append {token rest : Bytes} (hne : token ≠ []) (hclean : ∀ c ∈ token, c ≠ 44)
    (hrest : StopsAt (fun c => decide (c ≠ 44)) rest) :
    strtok 44 (token ++ rest) = some (token, rest.drop 1) := by
  have hkeep : (token ++ rest).dropWhile (fun c => decide (c = 44)) = token ++ rest := by
    obtain ⟨c, token, rfl⟩ := List.exists_cons_of_ne_nil hne
    exact dropWhile_eq_self (by simpa using hclean c (by simp))
  have hall : ∀ c ∈ token, decide (c ≠ 44) = true := fun c hc => by simpa using hclean c hc
  simp only [strtok, hkeep, List.append_eq_nil_iff, hne, false_and, if_false,
    takeWhile_span hall hrest, dropWhile_span hall hrest]

/-- The tokens of items that are neither empty nor contain a comma are the items. -/
theorem tokens_intercalate {items : List Bytes}
    (hitems : ∀ t ∈ items, t ≠ [] ∧ ∀ c ∈ t, c ≠ 44) {fuel : ℕ}
    (hfuel : ([44].intercalate items).length < fuel) :
    tokensUpTo fuel ([44].intercalate items) = items := by
  induction items generalizing fuel with
  | nil =>
    obtain ⟨fuel, rfl⟩ : ∃ f, fuel = f + 1 := ⟨fuel - 1, by omega⟩
    rfl
  | cons t items ih =>
    obtain ⟨fuel, rfl⟩ : ∃ f, fuel = f + 1 := ⟨fuel - 1, by omega⟩
    obtain ⟨hne, hclean⟩ := hitems t (by simp)
    cases items with
    | nil =>
      have hcut : strtok 44 (t ++ []) = some (t, []) := strtok_append hne hclean (by simp)
      have hnil : tokensUpTo fuel [] = [] := by cases fuel <;> rfl
      rw [List.append_nil] at hcut
      simp [tokensUpTo, hcut, hnil]
    | cons u items =>
      have hcut : strtok 44 (t ++ 44 :: [44].intercalate (u :: items)) =
          some (t, [44].intercalate (u :: items)) := strtok_append hne hclean (by simp)
      rw [List.intercalate_cons_cons, List.append_assoc, List.singleton_append] at hfuel ⊢
      simp only [List.length_append, List.length_cons] at hfuel
      have hrest : tokensUpTo fuel ([44].intercalate (u :: items)) = u :: items :=
        ih (fun v hv => hitems v (by simp [hv])) (by omega)
      simp only [tokensUpTo, hcut, hrest]

/-! ## Numerals -/

/-- The string is a number in C notation: decimal, octal after a `0` or hexadecimal after
    `0x`, with nothing around it. -/
def Numeral (t : Bytes) (v : ℕ) : Prop :=
  ∃ base body, numberBase t = (base, body) ∧ body ≠ [] ∧ (∀ c ∈ body, isDigitIn base c = true) ∧
    v = value base body

/-- How a number in C notation starts, and what its characters are. -/
theorem Numeral.chars {t : Bytes} {v : ℕ} (h : Numeral t v) :
    (∃ c rest, t = c :: rest ∧ isDigit c = true) ∧ ∀ c ∈ t, c ≠ 44 := by
  obtain ⟨base, body, hbase, hne, hbody, -⟩ := h
  have hcomma : ∀ b : ℕ, b ≤ 16 → isDigitIn b 44 = false := by
    intro b hb
    have : digitValue 44 = 36 := by decide
    simp only [isDigitIn, this, decide_eq_false_iff_not]
    omega
  have hclean : base ≤ 16 → ∀ c ∈ body, c ≠ 44 := by
    rintro hb c hc rfl
    exact absurd (hbody 44 hc) (by simp [hcomma base hb])
  revert hbase
  fun_cases numberBase t with
  | case1 x d s hhex =>
    -- `0x` stands before the digits
    intro hbase
    obtain ⟨rfl, rfl⟩ := Prod.mk.inj hbase
    refine ⟨⟨48, _, rfl, by decide⟩, ?_⟩
    intro c hc
    rcases List.mem_cons.mp hc with rfl | hc
    · decide
    · rcases List.mem_cons.mp hc with rfl | hc
      · rintro rfl
        exact absurd hhex.1 (by decide)
      · exact hclean le_rfl c hc
  | case2 x d s hoct =>
    intro hbase
    obtain ⟨rfl, rfl⟩ := Prod.mk.inj hbase
    exact ⟨⟨48, _, rfl, by decide⟩, hclean (by norm_num)⟩
  | case3 s hs =>
    intro hbase
    obtain ⟨rfl, rfl⟩ := Prod.mk.inj hbase
    exact ⟨⟨48, _, rfl, by decide⟩, hclean (by norm_num)⟩
  | case4 s hs hs' =>
    intro hbase
    obtain ⟨rfl, rfl⟩ := Prod.mk.inj hbase
    obtain ⟨c, rest, rfl⟩ := List.exists_cons_of_ne_nil hne
    exact ⟨⟨c, rest, rfl, isDigit_of_isDigitIn (hbody c (by simp))⟩, hclean (by norm_num)⟩

/-- `strtol` reads the whole of a number in C notation. -/
theorem Numeral.strtol {t : Bytes} {v : ℕ} (h : Numeral t v) (hv : v < 2 ^ 63) :
    strtol t = ((v : ℤ), false) := by
  obtain ⟨⟨c, rest, rfl, hc⟩, -⟩ := h.chars
  obtain ⟨base, body, hbase, -, hbody, rfl⟩ := h
  have hspace : (c :: rest).dropWhile isSpace = c :: rest := by
    refine dropWhile_eq_self ?_
    simpa using isSpace_eq_false_of_isDigit hc
  have hsign : cutSign (c :: rest) = ([], c :: rest) := by
    simp [cutSign, not_isSign_of_isDigit hc]
  have hdigits : body.takeWhile (isDigitIn base) = body := by
    have hspan : (body ++ []).takeWhile (isDigitIn base) = body :=
      takeWhile_span hbody (by simp)
    rwa [List.append_nil] at hspan
  have hlow : ¬ ((value base body : ℕ) : ℤ) < -2 ^ 63 := by omega
  have hhigh : ¬ (2 : ℤ) ^ 63 ≤ (value base body : ℕ) := by omega
  simp only [CString.strtol, hspace, hsign, hbase, hdigits, List.nil_eq, List.cons_ne_nil, if_false,
    hlow, hhigh]

/-! ## CPU lists -/

/-- The string is a comma-separated list of one or more numbers of CPUs. -/
def Lists (s : Bytes) (cpus : List ℕ) : Prop :=
  ∃ items, items ≠ [] ∧ s = [44].intercalate items ∧
    List.Forall₂ (fun t cpu => Numeral t cpu ∧ cpu < cpuSetSize) items cpus

/-- The string is scanned as the list it is, with one set of one CPU an item; any other string
    is refused and `*as_head` kept. -/
def ScansExactly (s : Bytes) (asHead : Option (List CpuSet)) : Prop :=
  (∃ cpus, Lists s cpus ∧ scanAffinity s asHead = (0, some (cpus.map fun cpu => {cpu}))) ∨
  ((¬ ∃ cpus, Lists s cpus) ∧ scanAffinity s asHead = (-1, asHead))

/-- A token of the string is a number that does not fit a `long`. -/
def Overflows (s : Bytes) : Prop := ∃ token ∈ tokens s, (strtol token).2 = true

theorem scanAffinity_eq (s : Bytes) (asHead : Option (List CpuSet)) :
    scanAffinity s asHead =
      if (tokens s).any fun token => (strtol token).2 then (-1, asHead)
      else (0, if tokens s = [] then none
        else some ((tokens s).map fun token => cpuSet (int32 (strtol token).1))) := by
  rw [scanAffinity, affinityLoop_eq (Nat.lt_succ_self _), ← tokens]
  split
  · rename_i hnone
    split at hnone
    · rename_i hany
      rw [if_pos hany]
    · exact absurd hnone (by simp)
  · rename_i sets hsome
    split at hsome
    · exact absurd hsome (by simp)
    · rename_i hany
      simp only [List.nil_append, Option.some.injEq] at hsome
      subst hsome
      rw [if_neg hany]
      simp only [List.map_eq_nil_iff]

theorem Lists.tokens_eq {s : Bytes} {cpus : List ℕ} (h : Lists s cpus) :
    tokens s ≠ [] ∧
      List.Forall₂ (fun t cpu => Numeral t cpu ∧ cpu < cpuSetSize) (tokens s) cpus := by
  obtain ⟨items, hne, rfl, hall⟩ := h
  have hitems : ∀ t ∈ items, t ≠ [] ∧ ∀ c ∈ t, c ≠ 44 := by
    intro t ht
    obtain ⟨i, hi, rfl⟩ := List.mem_iff_getElem.mp ht
    have hlen := hall.length_eq
    obtain ⟨⟨c, rest, heq, -⟩, hclean⟩ := (hall.get hi (by omega)).1.chars
    rw [List.get_eq_getElem] at heq hclean
    exact ⟨heq ▸ by simp, hclean⟩
  have heq : tokens ([44].intercalate items) = items :=
    tokens_intercalate hitems (Nat.lt_succ_self _)
  rw [heq]
  exact ⟨hne, hall⟩

theorem cpuSet_natCast {v : ℕ} (hv : v < cpuSetSize) : cpuSet (int32 v) = {v} := by
  have hword : uint64 (int32 v) = v := by
    rw [int32_natCast (hv.trans (by decide)), uint64_natCast (hv.trans (by decide))]
  rw [cpuSet, hword, if_pos hv]

/-- Every item of a list of CPUs is read as its number. -/
theorem strtol_of_forall₂ {items : List Bytes} {cpus : List ℕ}
    (hall : List.Forall₂ (fun t cpu => Numeral t cpu ∧ cpu < cpuSetSize) items cpus) :
    (∀ t ∈ items, (strtol t).2 = false) ∧
      (items.map fun t => cpuSet (int32 (strtol t).1)) = cpus.map fun cpu => {cpu} := by
  induction hall with
  | nil => simp
  | cons hcpu _ ih =>
    have hread := hcpu.1.strtol (hcpu.2.trans (by decide))
    exact ⟨List.forall_mem_cons.mpr ⟨by rw [hread], ih.1⟩, by
      rw [List.map_cons, List.map_cons, ih.2, hread, cpuSet_natCast hcpu.2]⟩

/-- A list of CPUs is scanned as one set of one CPU an item. -/
theorem Lists.scanAffinity {s : Bytes} {cpus : List ℕ} (h : Lists s cpus)
    (asHead : Option (List CpuSet)) :
    scanAffinity s asHead = (0, some (cpus.map fun cpu => {cpu})) := by
  obtain ⟨hne, hall⟩ := h.tokens_eq
  obtain ⟨hread, hmap⟩ := strtol_of_forall₂ hall
  have hany : ¬ (tokens s).any (fun t => (strtol t).2) = true := by
    simpa using hread
  rw [scanAffinity_eq, if_neg hany, if_neg hne, hmap]

/-- A string is scanned exactly if and only if it is a list of CPUs, or a token of it does not
    fit a `long`. -/
theorem scansExactly_iff (s : Bytes) (asHead : Option (List CpuSet)) :
    ScansExactly s asHead ↔ (∃ cpus, Lists s cpus) ∨ Overflows s := by
  by_cases hlist : ∃ cpus, Lists s cpus
  · obtain ⟨cpus, h⟩ := hlist
    exact iff_of_true (Or.inl ⟨cpus, h, h.scanAffinity asHead⟩) (Or.inl ⟨cpus, h⟩)
  · have hscan := scanAffinity_eq s asHead
    by_cases hover : Overflows s
    · have hany : (tokens s).any (fun t => (strtol t).2) = true := by
        simpa [Overflows] using hover
      rw [if_pos hany] at hscan
      exact iff_of_true (Or.inr ⟨hlist, hscan⟩) (Or.inr hover)
    · have hany : ¬ (tokens s).any (fun t => (strtol t).2) = true := by
        simpa [Overflows] using hover
      rw [if_neg hany] at hscan
      refine iff_of_false ?_ (not_or.mpr ⟨hlist, hover⟩)
      rintro (⟨cpus, h, -⟩ | ⟨-, hrefused⟩)
      · exact hlist ⟨cpus, h⟩
      · rw [hscan] at hrefused
        exact absurd (congrArg Prod.fst hrefused) (by norm_num)

end Wrkx
