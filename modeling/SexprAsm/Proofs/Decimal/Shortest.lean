import SexprAsm.Proofs.Decimal.Nearest
import SexprAsm.Value

/-!
# The shortest decimal reads back

The search for the shortest decimal compares with whole numbers; here its tests are put as
comparisons of rationals. Whatever the search finds lies among the rationals that round to the
magnitude, and so does the exact value it falls back to, so that rounding the decimal gives the
magnitude again (`ofScientific_of_value`).
-/

namespace SexprAsm.Decimal

/-- The rational that a decimal stands for. -/
def Scientific.value (d : Scientific) : ℚ := d.digits * 10 ^ d.exponent

/-! ## The tests of the search -/

/-- The two sides of a scaled comparison have a common denominator. -/
theorem exists_scale (a : Nat) (i : Int) (n : Nat) (j : Int) : ∃ scale : ℚ, 0 < scale ∧
    ((a * wholePower 10 i * wholePower 2 (-j) : Nat) : ℚ) = a * 10 ^ i * scale ∧
    ((n * wholePower 2 j * wholePower 10 (-i) : Nat) : ℚ) = n * 2 ^ j * scale := by
  have hten := wholePower_div (show 0 < 10 by decide) i
  have htwo := wholePower_div (show 0 < 2 by decide) j
  have hi : (0 : ℚ) < wholePower 10 (-i) := by exact_mod_cast wholePower_pos (by decide) (-i)
  have hj : (0 : ℚ) < wholePower 2 (-j) := by exact_mod_cast wholePower_pos (by decide) (-j)
  rw [Nat.cast_ofNat] at hten htwo
  refine ⟨wholePower 10 (-i) * wholePower 2 (-j), by positivity, ?_, ?_⟩
  · rw [← hten]
    push_cast
    field_simp
  · rw [← htwo]
    push_cast
    field_simp

theorem compareScaled_eq_lt {a n : Nat} {i j : Int} :
    compareScaled a i n j = .lt ↔ (a : ℚ) * 10 ^ i < n * 2 ^ j := by
  obtain ⟨scale, hpos, ha, hn⟩ := exists_scale a i n j
  rw [compareScaled, compare_lt_iff_lt, ← Nat.cast_lt (α := ℚ), ha, hn,
    mul_lt_mul_iff_left₀ hpos]

theorem compareScaled_eq_gt {a n : Nat} {i j : Int} :
    compareScaled a i n j = .gt ↔ (n : ℚ) * 2 ^ j < a * 10 ^ i := by
  obtain ⟨scale, hpos, ha, hn⟩ := exists_scale a i n j
  rw [compareScaled, compare_gt_iff_gt, ← Nat.cast_lt (α := ℚ), ha, hn,
    mul_lt_mul_iff_left₀ hpos]

theorem compareScaled_eq_eq {a n : Nat} {i j : Int} :
    compareScaled a i n j = .eq ↔ (a : ℚ) * 10 ^ i = n * 2 ^ j := by
  obtain ⟨scale, hpos, ha, hn⟩ := exists_scale a i n j
  rw [compareScaled, compare_eq_iff_eq, ← Nat.cast_inj (R := ℚ), ha, hn,
    mul_left_inj' hpos.ne']

namespace Magnitude

variable {x : Magnitude}

/-- The test of a decimal asks whether it lies between the midpoints. -/
theorem readBy_iff {d : Scientific} : x.readBy d = true ↔ x.Reads d.value := by
  simp only [readBy, Reads, Scientific.value, Bool.and_eq_true, Bool.or_eq_true, beq_iff_eq,
    compareScaled_eq_lt, compareScaled_eq_gt, compareScaled_eq_eq]
  rw [eq_comm (a := (d.digits : ℚ) * 10 ^ d.exponent)
    (b := ((4 * x.significand - (if x.narrowBelow then 1 else 2) : Nat) : ℚ) * _)]

theorem reads_of_onGrid? {place : Int} {d : Scientific} (h : x.onGrid? place = some d) :
    x.Reads d.value := by
  rw [← readBy_iff]
  simp only [onGrid?] at h
  split at h
  next hbelow =>
    split at h
    next habove => exact Option.some.inj h ▸ habove.1
    next => exact Option.some.inj h ▸ hbelow
  next =>
    split at h
    next habove => exact Option.some.inj h ▸ habove
    next => cases h

theorem value_exact : x.exact.value = x.significand * 2 ^ x.exponent := by
  have htwo (e : Int) (he : 0 ≤ e) : (wholePower 2 e : ℚ) = 2 ^ e := by
    obtain ⟨n, rfl⟩ := Int.eq_ofNat_of_zero_le he
    simp [wholePower]
  rw [exact, Scientific.value]
  split
  next h =>
    push_cast
    rw [htwo _ h]
    simp
  next h =>
    obtain ⟨n, hn⟩ := Int.eq_ofNat_of_zero_le (show 0 ≤ -x.exponent by omega)
    obtain hneg : x.exponent = -(n : Int) := by omega
    simp only [hneg, wholePower, neg_neg, Int.toNat_natCast, zpow_neg, zpow_natCast]
    push_cast
    rw [Nat.pow_eq, Nat.cast_pow, Nat.cast_ofNat, show (10 : ℚ) = 5 * 2 by norm_num, mul_pow]
    field_simp

theorem reads_exact (hpos : 0 < x.significand) : x.Reads x.exact.value := by
  have hstep : (0 : ℚ) < 2 ^ (x.exponent - 2) := by positivity
  rw [value_exact, two_zpow_add_two]
  have hlow : ((4 * x.significand - (if x.narrowBelow then 1 else 2) : Nat) : ℚ) <
      4 * x.significand := by
    have : 4 * x.significand - (if x.narrowBelow then 1 else 2) < 4 * x.significand := by
      split <;> omega
    exact_mod_cast this
  refine ⟨Or.inl ?_, Or.inl ?_⟩
  · nlinarith
  · push_cast
    nlinarith

/-- The decimal that the search ends with lies between the midpoints. -/
theorem reads_shortest (hpos : 0 < x.significand) : x.Reads x.shortest.value := by
  rw [shortest]
  cases hfind : (List.range digitLimit).findSome? fun (n : Nat) => x.onGrid? (x.leadingPlace - n) with
  | none => exact reads_exact hpos
  | some d =>
    obtain ⟨n, -, hn⟩ := List.exists_of_findSome?_eq_some hfind
    exact reads_of_onGrid? hn

/-- What rounds to a positive magnitude is positive. -/
theorem digits_pos (hpos : 0 < x.significand) {d : Scientific} (h : x.Reads d.value) :
    0 < d.digits := by
  have hunit : (0 : ℚ) < 2 ^ x.exponent := by positivity
  have hlow := (h.roundsTo hpos).bounds.1
  rw [le_div_iff₀ hunit] at hlow
  have hone : (1 : ℚ) ≤ x.significand := by exact_mod_cast hpos
  by_contra hzero
  rw [Scientific.value, Nat.eq_zero_of_not_pos hzero, Nat.cast_zero, zero_mul] at hlow
  nlinarith

end Magnitude

/-! ## Rounding a decimal -/

theorem digitCount_spec {n : Nat} (hpos : 0 < n) :
    (10 : ℚ) ^ ((digitCount n : Int) - 1) ≤ n ∧ (n : ℚ) < 10 ^ (digitCount n : Int) := by
  have hcount : 0 < digitCount n := Nat.length_toDigits_pos
  have hlt : n < 10 ^ digitCount n :=
    (Nat.length_toDigits_le_iff (by decide) hcount).mp (Nat.le_refl _)
  have hle : 10 ^ (digitCount n - 1) ≤ n := by
    by_contra hbelow
    rcases Nat.eq_zero_or_pos (digitCount n - 1) with hzero | hone
    · rw [hzero] at hbelow
      omega
    · have := (Nat.length_toDigits_le_iff (b := 10) (by decide) hone).mpr (Nat.lt_of_not_le hbelow)
      rw [← digitCount] at this
      omega
  constructor
  · rw [show (digitCount n : Int) - 1 = ((digitCount n - 1 : Nat) : Int) by omega, zpow_natCast]
    exact_mod_cast hle
  · rw [zpow_natCast]
    exact_mod_cast hlt

/-- The place of the leading digit bounds a decimal from both sides. -/
theorem Scientific.value_bounds {d : Scientific} (hpos : 0 < d.digits) :
    (10 : ℚ) ^ ((digitCount d.digits : Int) + d.exponent - 1) ≤ d.value ∧
      d.value < 10 ^ ((digitCount d.digits : Int) + d.exponent) := by
  obtain ⟨hle, hlt⟩ := digitCount_spec hpos
  have hunit : (0 : ℚ) < 10 ^ d.exponent := by positivity
  rw [Scientific.value]
  constructor
  · rw [show (digitCount d.digits : Int) + d.exponent - 1 =
      ((digitCount d.digits : Int) - 1) + d.exponent by omega, zpow_add₀ (by norm_num)]
    gcongr
  · rw [zpow_add₀ (by norm_num)]
    gcongr

/-- The magnitudes of a format are far from the places that are not looked at. -/
structure BinaryFormat.Near (f : BinaryFormat) : Prop where
  least : -1100 ≤ f.leastExponent
  greatest : f.leastExponent + f.fractionBits + (2 ^ f.exponentBits : Nat) ≤ 1100

theorem near_format (k : FloatKind) : k.format.Near := by
  cases k <;> exact ⟨by decide, by decide⟩

/-- What rounds to a positive magnitude is bounded by the exponents of the format. -/
theorem BinaryFormat.Near.bounds {f : BinaryFormat} (hnear : f.Near) {x : Magnitude} {bits : Nat}
    (hfits : x.Fits f bits) (hpos : 0 < x.significand) {q : ℚ} (h : x.Reads q) :
    (2 : ℚ) ^ (-1101 : Int) ≤ q ∧ q < 2 ^ (1100 : Int) := by
  have hunit : (0 : ℚ) < 2 ^ x.exponent := by positivity
  obtain ⟨hlow, hhigh⟩ := (h.roundsTo hpos).bounds
  rw [le_div_iff₀ hunit] at hlow
  rw [div_le_iff₀ hunit] at hhigh
  have hone : (1 : ℚ) ≤ x.significand := by exact_mod_cast hpos
  have hleast := hnear.least
  have hgreatest := hnear.greatest
  have hge := hfits.exponent_ge
  constructor
  · have hexp : (2 : ℚ) ^ (-1101 + 1 : Int) ≤ 2 ^ x.exponent :=
      zpow_le_zpow_right₀ (by norm_num) (by omega)
    rw [two_zpow_succ] at hexp
    nlinarith
  · -- The exponent field is not all ones.
    have hexponent : (f.fractionBits : Int) + x.exponent + 1 ≤ 1100 := by
      have hfinite := hfits.finite
      rw [hfits.bits_eq, infinityBits, Nat.pow_eq, Nat.pow_eq] at hfinite
      have hlt : (x.exponent - f.leastExponent).toNat < 2 ^ f.exponentBits - 1 :=
        Nat.lt_of_mul_lt_mul_right (Nat.lt_of_le_of_lt (Nat.le_add_right _ _) hfinite)
      omega
    have hexp : (2 : ℚ) ^ ((f.fractionBits : Int) + x.exponent + 1) ≤ 2 ^ (1100 : Int) :=
      zpow_le_zpow_right₀ (by norm_num) hexponent
    rw [two_zpow_succ, zpow_add₀ (by norm_num), zpow_natCast] at hexp
    have hcast : (x.significand : ℚ) + 1 ≤ 2 * 2 ^ f.fractionBits := by
      exact_mod_cast hfits.significand_lt
    nlinarith

/-- The places that are not looked at are beyond the exponents of both formats. -/
theorem two_zpow_lt_ten_zpow : (2 : ℚ) ^ (1101 : Int) < 10 ^ farPlace := by
  have h : (2 : ℚ) ^ (1101 : Int) < (2 ^ (3 : Int)) ^ (400 : Int) := by
    rw [← zpow_mul]
    exact zpow_lt_zpow_right₀ (by norm_num) (by norm_num)
  exact h.trans_le (zpow_le_zpow_left₀ (by norm_num) (by norm_num) (by norm_num [farPlace]))

/-- Rounding a decimal that lies between the midpoints gives the bits of the magnitude. -/
theorem BinaryFormat.ofScientific_of_reads {f : BinaryFormat} (hnear : f.Near) {x : Magnitude}
    {bits : Nat} (hfits : x.Fits f bits) (hpos : 0 < x.significand) {d : Scientific}
    (h : x.Reads d.value) : f.ofScientific d = bits := by
  obtain ⟨hlow, hhigh⟩ := hnear.bounds hfits hpos h
  have hdigits := Magnitude.digits_pos hpos h
  obtain ⟨hge, hlt⟩ := d.value_bounds hdigits
  have hfar := two_zpow_lt_ten_zpow
  have hbelow : ¬ (digitCount d.digits : Int) + d.exponent < -farPlace := by
    intro hplace
    have hle : (10 : ℚ) ^ ((digitCount d.digits : Int) + d.exponent) ≤ 10 ^ (-farPlace) :=
      zpow_le_zpow_right₀ (by norm_num) (by omega)
    have hinv : (10 : ℚ) ^ (-farPlace) < 2 ^ (-1101 : Int) := by
      rw [zpow_neg, zpow_neg]
      exact inv_strictAnti₀ (by positivity) hfar
    linarith
  have habove : ¬ farPlace < (digitCount d.digits : Int) + d.exponent := by
    intro hplace
    have hle : (10 : ℚ) ^ farPlace ≤ 10 ^ ((digitCount d.digits : Int) + d.exponent - 1) :=
      zpow_le_zpow_right₀ (by norm_num) (by omega)
    have hpow : (2 : ℚ) ^ (1100 : Int) ≤ 2 ^ (1101 : Int) :=
      zpow_le_zpow_right₀ (by norm_num) (by norm_num)
    exact lt_irrefl _ ((((hhigh.trans_le hpow).trans hfar).trans_le hle).trans_le hge)
  simp only [ofScientific]
  rw [if_neg (by omega), if_neg habove]
  refine nearest_of_reads hfits hpos (Nat.mul_pos hdigits (wholePower_pos (by decide) _))
    (wholePower_pos (by decide) _) ?_
  have hpower := wholePower_div (show 0 < 10 by decide) d.exponent
  rw [Nat.cast_ofNat] at hpower
  rwa [Nat.cast_mul, mul_div_assoc, hpower]

/-- Any decimal with the value of the shortest one is rounded to the bits of the magnitude. -/
theorem BinaryFormat.ofScientific_of_value {f : BinaryFormat} (hnear : f.Near) {x : Magnitude}
    {bits : Nat} (hfits : x.Fits f bits) (hpos : 0 < x.significand) {d : Scientific}
    (h : d.value = x.shortest.value) : f.ofScientific d = bits :=
  ofScientific_of_reads hnear hfits hpos (h ▸ Magnitude.reads_shortest hpos)

end SexprAsm.Decimal
