import Mathlib.Data.Nat.Log
import Mathlib.Data.Nat.Bitwise
import Mathlib.Tactic.Ring

/-!
# Log-linear slots

Slots of a histogram whose resolution halves with every power of two. With `m` the
magnitude of half a bucket, bucket `0` holds `2 ^ (m + 1)` slots of width one and every
later bucket `b` holds `2 ^ m` slots of width `2 ^ b`. `bucket` and `sub` split a value,
`slot` numbers the slots consecutively, and `slotBucket`, `slotSub` and `slotValue` read a
slot number back.

## Main results

- `slot_slotValue` — the lowest value of a slot falls into that slot
- `slot_succ_of_lt`, `slot_succ_of_eq` — how the next slot is found from the previous one
- `slotValue_le_iff` — the lowest values of the slots and the slot numbers of the values
  determine each other's order
- `two_pow_bucket_mul_le` — the width of a slot is small against its values
-/

namespace LogLinear

/-- The bucket of a value: the number of binary digits it has beyond `m + 1`. -/
def bucket (m v : ℕ) : ℕ := (v ||| (2 ^ (m + 1) - 1)).log2 - m

/-- The position of a value inside its bucket, counted from the start of the range. -/
def sub (m v : ℕ) : ℕ := v / 2 ^ bucket m v

/-- The number of the slot of a value. -/
def slot (m v : ℕ) : ℕ := bucket m v * 2 ^ m + sub m v

/-- The bucket of a slot number. -/
def slotBucket (m i : ℕ) : ℕ := i / 2 ^ m - 1

/-- The position of a slot number inside its bucket. -/
def slotSub (m i : ℕ) : ℕ := i - slotBucket m i * 2 ^ m

/-- The lowest value of a slot. -/
def slotValue (m i : ℕ) : ℕ := slotSub m i * 2 ^ slotBucket m i

theorem or_mask_ne_zero (m v : ℕ) : v ||| (2 ^ (m + 1) - 1) ≠ 0 := by
  have hmask : 2 ^ (m + 1) - 1 ≤ v ||| (2 ^ (m + 1) - 1) := Nat.right_le_or
  have hpow : 2 ≤ 2 ^ (m + 1) := by
    rw [pow_succ]
    have := Nat.one_le_two_pow (n := m)
    omega
  omega

/-- The binary digits of a value together with the mask, beyond `m`. -/
theorem le_bucket_iff {m v b : ℕ} (hb : 0 < b) : b ≤ bucket m v ↔ 2 ^ (m + b) ≤ v := by
  have hne := or_mask_ne_zero m v
  have hsplit : b ≤ bucket m v ↔ m + b ≤ (v ||| (2 ^ (m + 1) - 1)).log2 := by
    simp only [bucket]
    omega
  rw [hsplit, Nat.le_log2 hne]
  constructor
  · intro h
    by_contra hlt
    have hmask : 2 ^ (m + 1) - 1 < 2 ^ (m + b) := by
      have := Nat.pow_le_pow_right (n := 2) (by norm_num) (show m + 1 ≤ m + b by omega)
      have := Nat.one_le_two_pow (n := m + 1)
      omega
    exact absurd h (not_le.mpr (Nat.or_lt_two_pow (not_le.mp hlt) hmask))
  · intro h
    exact h.trans Nat.left_le_or

theorem lt_of_bucket {m v : ℕ} : v < 2 ^ (m + bucket m v + 1) := by
  by_contra h
  have : bucket m v + 1 ≤ bucket m v :=
    (le_bucket_iff (Nat.succ_pos _)).mpr (by simpa [Nat.add_assoc] using not_lt.mp h)
  omega

/-- A bucket number is pinned by the digits of the value. -/
theorem bucket_eq {m v b : ℕ} (hlow : b = 0 ∨ 2 ^ (m + b) ≤ v) (hhigh : v < 2 ^ (m + b + 1)) :
    bucket m v = b := by
  have hle : b ≤ bucket m v := by
    rcases hlow with rfl | hlow
    · exact Nat.zero_le _
    · rcases Nat.eq_zero_or_pos b with rfl | hb
      · exact Nat.zero_le _
      · exact (le_bucket_iff hb).mpr hlow
  have hge : ¬ b + 1 ≤ bucket m v := by
    rw [le_bucket_iff (Nat.succ_pos b)]
    simpa [Nat.add_assoc] using hhigh
  omega

theorem sub_lt (m v : ℕ) : sub m v < 2 ^ (m + 1) := by
  rw [sub, Nat.div_lt_iff_lt_mul (Nat.two_pow_pos _), ← pow_add]
  simpa [Nat.add_right_comm] using lt_of_bucket (m := m) (v := v)

/-- Past the first bucket only the upper half of the positions is in use. -/
theorem le_sub {m v : ℕ} (h : bucket m v ≠ 0) : 2 ^ m ≤ sub m v := by
  rw [sub, Nat.le_div_iff_mul_le (Nat.two_pow_pos _), ← pow_add]
  exact (le_bucket_iff (Nat.pos_of_ne_zero h)).mp le_rfl

/-- A value below `2 ^ (m + n)` lies in one of the first `n` buckets. -/
theorem bucket_lt {m v n : ℕ} (hn : 0 < n) (h : v < 2 ^ (m + n)) : bucket m v < n := by
  by_contra hge
  exact absurd ((le_bucket_iff hn).mp (not_lt.mp hge)) (not_le.mpr h)

/-- The slot number of a value below `2 ^ (m + n)` is below `(n + 1) * 2 ^ m`. -/
theorem slot_lt {m v n : ℕ} (hn : 0 < n) (h : v < 2 ^ (m + n)) : slot m v < (n + 1) * 2 ^ m := by
  have hb := bucket_lt hn h
  have hs := sub_lt m v
  have hmul : bucket m v * 2 ^ m ≤ (n - 1) * 2 ^ m := Nat.mul_le_mul_right _ (by omega)
  obtain ⟨k, rfl⟩ : ∃ k, n = k + 1 := ⟨n - 1, by omega⟩
  simp only [Nat.add_sub_cancel] at hmul
  calc slot m v < k * 2 ^ m + 2 ^ (m + 1) := by simp only [slot]; omega
    _ = (k + 1 + 1) * 2 ^ m := by ring

/-- A slot number is its bucket times half a bucket, plus its position. -/
theorem slotBucket_mul_add (m i : ℕ) : slotBucket m i * 2 ^ m + slotSub m i = i := by
  have : slotBucket m i * 2 ^ m ≤ i :=
    (Nat.mul_le_mul_right _ (Nat.sub_le _ _)).trans (Nat.div_mul_le_self i _)
  simp only [slotSub]
  omega

theorem slotSub_lt (m i : ℕ) : slotSub m i < 2 ^ (m + 1) := by
  have hpos := Nat.two_pow_pos m
  have hdiv := Nat.div_add_mod i (2 ^ m)
  have hmod := Nat.mod_lt i hpos
  have hdouble : 2 ^ (m + 1) = 2 ^ m * 2 := pow_succ _ _
  rw [slotSub, slotBucket, Nat.sub_mul, one_mul, Nat.mul_comm (i / 2 ^ m)]
  omega

theorem le_slotSub {m i : ℕ} (h : slotBucket m i ≠ 0) : 2 ^ m ≤ slotSub m i := by
  have hdiv := Nat.div_add_mod i (2 ^ m)
  have hone : 2 ≤ i / 2 ^ m := by simp only [slotBucket] at h; omega
  have hle : 2 ^ m * 1 ≤ 2 ^ m * (i / 2 ^ m) := Nat.mul_le_mul_left _ (by omega)
  rw [slotSub, slotBucket, Nat.sub_mul, one_mul, Nat.mul_comm (i / 2 ^ m)]
  omega

theorem slotValue_lt (m i : ℕ) : slotValue m i < 2 ^ (m + slotBucket m i + 1) := by
  have h := Nat.mul_lt_mul_of_pos_right (slotSub_lt m i) (Nat.two_pow_pos (slotBucket m i))
  rw [← pow_add] at h
  simpa only [slotValue, Nat.add_right_comm m _ 1] using h

theorem bucket_slotValue (m i : ℕ) : bucket m (slotValue m i) = slotBucket m i := by
  refine bucket_eq ?_ (slotValue_lt m i)
  by_cases hz : slotBucket m i = 0
  · exact Or.inl hz
  · right
    rw [pow_add]
    exact Nat.mul_le_mul_right _ (le_slotSub hz)

theorem sub_slotValue (m i : ℕ) : sub m (slotValue m i) = slotSub m i := by
  rw [sub, bucket_slotValue, slotValue, Nat.mul_div_cancel _ (Nat.two_pow_pos _)]

/-- The lowest value of a slot falls into that slot. -/
theorem slot_slotValue (m i : ℕ) : slot m (slotValue m i) = i := by
  rw [slot, bucket_slotValue, sub_slotValue, slotBucket_mul_add]

/-- The bucket of a slot number is the one whose positions reach it. -/
theorem slotBucket_eq {m i b s : ℕ} (hi : b * 2 ^ m + s = i) (hlow : b = 0 ∨ 2 ^ m ≤ s)
    (hhigh : s < 2 ^ (m + 1)) : slotBucket m i = b ∧ slotSub m i = s := by
  have hpos := Nat.two_pow_pos m
  rw [pow_succ] at hhigh
  have hb : slotBucket m i = b := by
    rcases hlow with rfl | hlow
    · have : i / 2 ^ m < 2 := by
        rw [Nat.div_lt_iff_lt_mul hpos]
        omega
      simp only [slotBucket]
      omega
    · have : i / 2 ^ m = b + 1 := by
        rw [Nat.div_eq_iff hpos]
        constructor
        · rw [Nat.add_mul]; omega
        · rw [Nat.add_mul, Nat.add_sub_assoc (by omega)]; omega
      simp only [slotBucket]
      omega
  refine ⟨hb, ?_⟩
  have := slotBucket_mul_add m i
  rw [hb] at this
  omega

/-- Inside a bucket the next slot has the next position. -/
theorem slot_succ_of_lt {m i : ℕ} (h : slotSub m i + 1 < 2 ^ (m + 1)) :
    slotBucket m (i + 1) = slotBucket m i ∧ slotSub m (i + 1) = slotSub m i + 1 := by
  refine slotBucket_eq ?_ ?_ h
  · rw [← Nat.add_assoc, slotBucket_mul_add]
  · by_cases hz : slotBucket m i = 0
    · exact Or.inl hz
    · exact Or.inr ((le_slotSub hz).trans (Nat.le_succ _))

/-- At the end of a bucket the next slot is the middle position of the next bucket. -/
theorem slot_succ_of_eq {m i : ℕ} (h : slotSub m i + 1 = 2 ^ (m + 1)) :
    slotBucket m (i + 1) = slotBucket m i + 1 ∧ slotSub m (i + 1) = 2 ^ m := by
  refine slotBucket_eq ?_ (Or.inr le_rfl) (Nat.pow_lt_pow_right (by norm_num) (Nat.lt_succ_self m))
  have hi := slotBucket_mul_add m i
  rw [pow_succ] at h
  rw [Nat.add_mul, one_mul]
  omega

theorem slotBucket_lt {m i n : ℕ} (hn : 0 < n) (h : i < (n + 1) * 2 ^ m) : slotBucket m i < n := by
  have : i / 2 ^ m < n + 1 := (Nat.div_lt_iff_lt_mul (Nat.two_pow_pos m)).mpr h
  simp only [slotBucket]
  omega

theorem le_slotBucket {m i n : ℕ} (h : (n + 1) * 2 ^ m ≤ i) : n ≤ slotBucket m i := by
  have hdiv := (Nat.le_div_iff_mul_le (Nat.two_pow_pos m)).mpr h
  simp only [slotBucket]
  omega

/-! ## Slots as intervals -/

theorem slotBucket_slot (m v : ℕ) :
    slotBucket m (slot m v) = bucket m v ∧ slotSub m (slot m v) = sub m v := by
  refine slotBucket_eq rfl ?_ (sub_lt m v)
  by_cases hz : bucket m v = 0
  · exact Or.inl hz
  · exact Or.inr (le_sub hz)

theorem slotValue_slot (m v : ℕ) : slotValue m (slot m v) = sub m v * 2 ^ bucket m v := by
  obtain ⟨hb, hs⟩ := slotBucket_slot m v
  rw [slotValue, hb, hs]

/-- The slots tile the numbers: each starts where the one before it ends. -/
theorem slotValue_succ (m i : ℕ) : slotValue m (i + 1) = slotValue m i + 2 ^ slotBucket m i := by
  rcases Nat.lt_or_ge (slotSub m i + 1) (2 ^ (m + 1)) with hlt | hge
  · obtain ⟨hb, hs⟩ := slot_succ_of_lt hlt
    rw [slotValue, slotValue, hb, hs, Nat.add_mul, one_mul]
  · -- the upper half of a bucket has as many slots as the next bucket below its middle
    have heq : slotSub m i + 1 = 2 ^ (m + 1) := le_antisymm (slotSub_lt m i) hge
    obtain ⟨hb, hs⟩ := slot_succ_of_eq heq
    calc slotValue m (i + 1) = 2 ^ m * 2 ^ (slotBucket m i + 1) := by rw [slotValue, hb, hs]
      _ = 2 ^ (m + 1) * 2 ^ slotBucket m i := by ring
      _ = (slotSub m i + 1) * 2 ^ slotBucket m i := by rw [heq]
      _ = slotValue m i + 2 ^ slotBucket m i := by rw [Nat.add_mul, one_mul, slotValue]

theorem slotValue_strictMono (m : ℕ) : StrictMono (slotValue m) := by
  refine strictMono_nat_of_lt_succ fun i => ?_
  rw [slotValue_succ]
  exact Nat.lt_add_of_pos_right (Nat.two_pow_pos _)

theorem slotValue_slot_le (m v : ℕ) : slotValue m (slot m v) ≤ v := by
  rw [slotValue_slot]
  exact Nat.div_mul_le_self v _

theorem lt_slotValue_slot_succ (m v : ℕ) : v < slotValue m (slot m v + 1) := by
  rw [slotValue_succ, slotValue_slot, (slotBucket_slot m v).1]
  have hmod := Nat.mod_lt v (Nat.two_pow_pos (bucket m v))
  have hdiv := Nat.div_add_mod' v (2 ^ bucket m v)
  rw [sub]
  omega

/-- The lowest values of the slots and the slot numbers of the values determine each
    other's order. -/
theorem slotValue_le_iff {m i v : ℕ} : slotValue m i ≤ v ↔ i ≤ slot m v := by
  constructor
  · intro h
    by_contra hlt
    have hmono := (slotValue_strictMono m).monotone (show slot m v + 1 ≤ i by omega)
    have := lt_slotValue_slot_succ m v
    omega
  · intro h
    exact ((slotValue_strictMono m).monotone h).trans (slotValue_slot_le m v)

theorem slot_mono (m : ℕ) : Monotone (slot m) := fun v _ h =>
  slotValue_le_iff.mp ((slotValue_slot_le m v).trans h)

/-- A slot is the interval between its lowest value and that of the next slot. -/
theorem slot_eq_iff {m i v : ℕ} : slot m v = i ↔ slotValue m i ≤ v ∧ v < slotValue m (i + 1) := by
  rw [slotValue_le_iff, ← not_le, slotValue_le_iff]
  omega

/-- Beyond the first bucket the width of a slot is small against its values. -/
theorem two_pow_bucket_mul_le {m v : ℕ} (h : bucket m v ≠ 0) : 2 ^ bucket m v * 2 ^ m ≤ v := by
  calc 2 ^ bucket m v * 2 ^ m ≤ 2 ^ bucket m v * sub m v := Nat.mul_le_mul_left _ (le_sub h)
    _ ≤ v := Nat.mul_div_le v _

theorem bucket_eq_zero {m v : ℕ} (h : v < 2 ^ (m + 1)) : bucket m v = 0 :=
  bucket_eq (Or.inl rfl) h

end LogLinear
