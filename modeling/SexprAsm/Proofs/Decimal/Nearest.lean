import Mathlib.Algebra.Order.Field.Power
import Mathlib.Data.Rat.Cast.Order
import Mathlib.Tactic.FieldSimp
import Mathlib.Tactic.Linarith
import Mathlib.Tactic.NormNum
import Mathlib.Tactic.Positivity
import Mathlib.Tactic.Ring
import SexprAsm.Decimal.Shortest

/-!
# Rounding to the nearest magnitude

The rounding works with numerators and denominators; here it is described with rational numbers.
`Magnitude.Reads` is the interval of the rationals that round to a magnitude: up to the midpoints
to its neighbours, which belong to it when the significand is even. Every rational of the interval
is rounded to the bits of the magnitude (`nearest_of_reads`).
-/

namespace SexprAsm.Decimal

/-! ## Powers

Powers with negative exponents are kept as a numerator and a denominator. The quotient of the two
is the power. -/

theorem wholePower_pos {base : Nat} (h : 0 < base) (e : Int) : 0 < wholePower base e :=
  Nat.pow_pos h

/-- The two whole powers are the numerator and the denominator of the power. -/
theorem wholePower_div {base : Nat} (h : 0 < base) (e : Int) :
    (wholePower base e : ℚ) / wholePower base (-e) = (base : ℚ) ^ e := by
  have hbase : (base : ℚ) ≠ 0 := by positivity
  rcases Int.le_total 0 e with he | he
  · obtain ⟨n, rfl⟩ := Int.eq_ofNat_of_zero_le he
    simp [wholePower]
  · obtain ⟨n, hn⟩ := Int.eq_ofNat_of_zero_le (Int.neg_nonneg.mpr he)
    obtain rfl : e = -(n : Int) := by omega
    simp [wholePower]

theorem lt_of_zpow_lt {a b : Int} (h : (2 : ℚ) ^ a < 2 ^ b) : a < b :=
  (zpow_lt_zpow_iff_right₀ (by norm_num)).mp h

/-- A power of two three places up, as a multiple of one two places down. -/
theorem two_zpow_add_two (e : Int) : (2 : ℚ) ^ e = 4 * 2 ^ (e - 2) := by
  rw [zpow_sub₀ (by norm_num)]
  norm_num
  ring

theorem two_zpow_succ (e : Int) : (2 : ℚ) ^ (e + 1) = 2 * 2 ^ e := by
  rw [zpow_add_one₀ (by norm_num)]
  ring

/-! ## Exponents

The exponent is found by comparing lengths in bits, which is off by one at most, and then
corrected. -/

theorem log2Ratio_spec {num den : Nat} (hnum : 0 < num) (hden : 0 < den) :
    (2 : ℚ) ^ log2Ratio num den ≤ num / den ∧ (num : ℚ) / den < 2 ^ (log2Ratio num den + 1) := by
  have hd : (0 : ℚ) < den := by positivity
  have hnumLow : (2 : ℚ) ^ (num.log2 : Int) ≤ num := by
    rw [zpow_natCast]
    exact_mod_cast Nat.log2_self_le hnum.ne'
  have hnumHigh : (num : ℚ) < 2 ^ ((num.log2 : Int) + 1) := by
    exact_mod_cast Nat.lt_log2_self (n := num)
  have hdenLow : (2 : ℚ) ^ (den.log2 : Int) ≤ den := by
    rw [zpow_natCast]
    exact_mod_cast Nat.log2_self_le hden.ne'
  have hdenHigh : (den : ℚ) < 2 ^ ((den.log2 : Int) + 1) := by
    exact_mod_cast Nat.lt_log2_self (n := den)
  have htwo : (2 : ℚ) ≠ 0 := by norm_num
  set e : Int := (num.log2 : Int) - den.log2 with he
  have hhigh : (num : ℚ) / den < 2 ^ (e + 1) := by
    rw [div_lt_iff₀ hd]
    calc (num : ℚ) < 2 ^ ((num.log2 : Int) + 1) := hnumHigh
      _ = 2 ^ (e + 1) * 2 ^ (den.log2 : Int) := by rw [← zpow_add₀ htwo]; congr 1; omega
      _ ≤ 2 ^ (e + 1) * den := by gcongr
  have hlow : (2 : ℚ) ^ (e - 1) < num / den := by
    rw [lt_div_iff₀ hd]
    calc (2 : ℚ) ^ (e - 1) * den < 2 ^ (e - 1) * 2 ^ ((den.log2 : Int) + 1) := by gcongr
      _ = 2 ^ (num.log2 : Int) := by rw [← zpow_add₀ htwo]; congr 1; omega
      _ ≤ num := hnumLow
  have htest : den * wholePower 2 e ≤ num * wholePower 2 (-e) ↔ (2 : ℚ) ^ e ≤ num / den := by
    have hpos : (0 : ℚ) < wholePower 2 (-e) := by exact_mod_cast wholePower_pos (by decide) (-e)
    have hpower := wholePower_div (show 0 < 2 by decide) e
    rw [Nat.cast_ofNat] at hpower
    rw [← hpower, div_le_div_iff₀ hpos hd, Nat.mul_comm den]
    norm_cast
  rw [log2Ratio]
  split
  next h => exact ⟨htest.mp h, hhigh⟩
  next h =>
    rw [htest, not_le] at h
    exact ⟨hlow.le, by simpa using h⟩

/-! ## Significands

Rounding to the nearest number, ties to even, is said of rationals here, and is what the division
with remainder computes. -/

/-- The rational is at most half a step from `n`, and at half a step only if `n` is even. -/
def RoundsTo (q : ℚ) (n : Nat) : Prop :=
  ((n : ℚ) - 1 / 2 < q ∨ (n % 2 = 0 ∧ (n : ℚ) - 1 / 2 = q)) ∧
    (q < n + 1 / 2 ∨ (n % 2 = 0 ∧ q = n + 1 / 2))

theorem RoundsTo.bounds {q : ℚ} {n : Nat} (h : RoundsTo q n) :
    (n : ℚ) - 1 / 2 ≤ q ∧ q ≤ n + 1 / 2 :=
  ⟨h.1.elim le_of_lt fun h => h.2.le, h.2.elim le_of_lt fun h => h.2.le⟩

theorem roundHalfEven_eq {num den n : Nat} (hden : 0 < den) (h : RoundsTo (num / den) n) :
    roundHalfEven num den = n := by
  have hd : (0 : ℚ) < den := by positivity
  obtain ⟨hlow, hhigh⟩ := h
  -- The bounds, cleared of fractions.
  have hlow' : 2 * n * den < 2 * num + den ∨ (n % 2 = 0 ∧ 2 * n * den = 2 * num + den) := by
    refine hlow.imp (fun h => ?_) (And.imp_right fun h => ?_)
    · rw [lt_div_iff₀ hd] at h
      have : (2 * n * den : ℚ) < 2 * num + den := by linarith
      exact_mod_cast this
    · rw [eq_div_iff hd.ne'] at h
      have : (2 * n * den : ℚ) = 2 * num + den := by linarith
      exact_mod_cast this
  have hhigh' : 2 * num < 2 * n * den + den ∨ (n % 2 = 0 ∧ 2 * num = 2 * n * den + den) := by
    refine hhigh.imp (fun h => ?_) (And.imp_right fun h => ?_)
    · rw [div_lt_iff₀ hd] at h
      have : (2 * num : ℚ) < 2 * n * den + den := by linarith
      exact_mod_cast this
    · rw [div_eq_iff hd.ne'] at h
      have : (2 * num : ℚ) = 2 * n * den + den := by linarith
      exact_mod_cast this
  have hassoc : 2 * n * den = 2 * (n * den) := Nat.mul_assoc 2 n den
  rw [hassoc] at hlow' hhigh'
  have hparts (m r : Nat) (hr : r < den) : (m * den + r) / den = m ∧ (m * den + r) % den = r := by
    rw [Nat.mul_comm, Nat.mul_add_div hden, Nat.mul_add_mod, Nat.div_eq_of_lt hr,
      Nat.mod_eq_of_lt hr]
    exact ⟨rfl, rfl⟩
  by_cases hle : n * den ≤ num
  · -- The quotient is `n`, and the remainder at most half.
    obtain ⟨r, rfl⟩ := Nat.exists_eq_add_of_le hle
    obtain ⟨hdiv, hmod⟩ := hparts n r (by omega)
    simp only [roundHalfEven, hdiv, hmod]
    rw [if_neg (by omega)]
  · -- The quotient is one less, and the remainder at least half.
    obtain ⟨m, rfl⟩ : ∃ m, n = m + 1 := by
      cases n with
      | zero => simp at hle
      | succ m => exact ⟨m, rfl⟩
    have hsucc : (m + 1) * den = m * den + den := Nat.succ_mul m den
    rw [hsucc] at hle hlow' hhigh'
    obtain ⟨r, rfl⟩ := Nat.exists_eq_add_of_le (show m * den ≤ num by omega)
    obtain ⟨hdiv, hmod⟩ := hparts m r (by omega)
    simp only [roundHalfEven, hdiv, hmod]
    rw [if_pos (by omega)]

/-! ## Magnitudes

A rational between the midpoints around a magnitude is scaled so that the significand is next to
it. Below a power of two the steps are half as wide, which is the case that is looked at apart. -/

/-- The magnitude that magnitude bits of a format stand for. -/
structure Magnitude.Fits (f : BinaryFormat) (x : Magnitude) (bits : Nat) : Prop where
  exponent_ge : f.leastExponent ≤ x.exponent
  bits_eq : bits = (x.exponent - f.leastExponent).toNat * 2 ^ f.fractionBits + x.significand
  significand_lt : x.significand < 2 * 2 ^ f.fractionBits
  normal : f.leastExponent < x.exponent → 2 ^ f.fractionBits ≤ x.significand
  narrow : x.narrowBelow = true ↔
    x.significand = 2 ^ f.fractionBits ∧ f.leastExponent < x.exponent
  finite : bits < f.infinityBits

theorem BinaryFormat.fits_of_read {f : BinaryFormat} {bits : Nat} {negative : Bool} {x : Magnitude}
    (h : f.read bits = .finite negative x) :
    negative = decide (f.signBit ≤ bits) ∧ x.Fits f (bits % f.signBit) := by
  have hpos : 0 < 2 ^ f.fractionBits := Nat.pow_pos (by decide)
  generalize hm : bits % f.signBit = m at h ⊢
  have hlt : m < f.signBit := hm ▸ Nat.mod_lt _ (Nat.pow_pos (by decide))
  have hfield : m / 2 ^ f.fractionBits < 2 ^ f.exponentBits := by
    rw [Nat.div_lt_iff_lt_mul hpos, ← Nat.pow_add]
    exact hlt
  have hparts := Nat.div_add_mod' m (2 ^ f.fractionBits)
  have hfraction := Nat.mod_lt m hpos
  simp only [BinaryFormat.read, Nat.pow_eq, hm] at h
  generalize m / 2 ^ f.fractionBits = field at h hfield hparts
  generalize m % 2 ^ f.fractionBits = fraction at h hparts hfraction
  split at h
  · split at h <;> cases h
  next hall =>
    have hfinite : m < f.infinityBits := by
      have hle : field + 1 ≤ 2 ^ f.exponentBits - 1 := by omega
      calc m < (field + 1) * 2 ^ f.fractionBits := by rw [Nat.succ_mul]; omega
        _ ≤ (2 ^ f.exponentBits - 1) * 2 ^ f.fractionBits := Nat.mul_le_mul_right _ hle
    -- Without the hidden bit the exponent is the least one; with it, the field counts from one.
    split at h
    next hzero =>
      obtain ⟨rfl, rfl⟩ := Reading.finite.inj h
      refine ⟨rfl, Int.le_refl _, ?_, ?_, fun hlt => absurd hlt (Int.lt_irrefl _), ?_, hfinite⟩
      · simp [← hparts, hzero]
      · dsimp only
        omega
      · simp
    next hzero =>
      obtain ⟨rfl, rfl⟩ := Reading.finite.inj h
      obtain ⟨field, rfl⟩ := Nat.exists_eq_succ_of_ne_zero hzero
      refine ⟨rfl, ?_, ?_, ?_, fun _ => Nat.le_add_right _ _, ?_, hfinite⟩
      · dsimp only
        omega
      · have hsub : (f.leastExponent + ((field.succ - 1 : Nat) : Int) - f.leastExponent).toNat =
            field := by omega
        dsimp only
        rw [hsub, ← hparts, Nat.succ_mul]
        omega
      · dsimp only
        omega
      · simp

theorem BinaryFormat.magnitude_of_infinite {f : BinaryFormat} {bits : Nat} {negative : Bool}
    (h : f.read bits = .infinite negative) :
    negative = decide (f.signBit ≤ bits) ∧ bits % f.signBit = f.infinityBits := by
  have hparts := Nat.div_add_mod' (bits % f.signBit) (2 ^ f.fractionBits)
  simp only [BinaryFormat.read, Nat.pow_eq] at h
  split at h
  next hfield =>
    split at h
    next hfraction =>
      refine ⟨(Reading.infinite.inj h).symm, ?_⟩
      rw [← hparts, hfield, hfraction, Nat.add_zero]
      rfl
    next => cases h
  next => split at h <;> cases h

/-- The rationals that round to a magnitude. -/
def Magnitude.Reads (x : Magnitude) (q : ℚ) : Prop :=
  let low : Nat := 4 * x.significand - (if x.narrowBelow then 1 else 2)
  let high : Nat := 4 * x.significand + 2
  let step : ℚ := 2 ^ (x.exponent - 2)
  (low * step < q ∨ (x.significand % 2 = 0 ∧ low * step = q)) ∧
    (q < high * step ∨ (x.significand % 2 = 0 ∧ q = high * step))

/-- The bits of a rounding, once its exponent is known. -/
theorem BinaryFormat.nearest_of_exponent {f : BinaryFormat} {num den n : Nat} {e : Int}
    (hden : 0 < den) (he : max (log2Ratio num den - f.fractionBits) f.leastExponent = e)
    (h : RoundsTo (num / den / 2 ^ e) n) :
    f.nearest num den =
      min ((e - f.leastExponent).toNat * 2 ^ f.fractionBits + n) f.infinityBits := by
  have hwhole : 0 < wholePower 2 e := wholePower_pos (by decide) e
  have hround : roundHalfEven (num * wholePower 2 (-e)) (den * wholePower 2 e) = n := by
    refine roundHalfEven_eq (Nat.mul_pos hden hwhole) ?_
    have hpower := wholePower_div (show 0 < 2 by decide) e
    rw [Nat.cast_ofNat] at hpower
    rw [← hpower, div_div_div_eq] at h
    push_cast
    rwa [mul_comm (den : ℚ)] at h ⊢
  simp only [BinaryFormat.nearest, he, hround]
  rfl

/-- Between the midpoints, counted in steps of the magnitude. -/
theorem Magnitude.Reads.roundsTo {x : Magnitude} {q : ℚ} (h : x.Reads q)
    (hpos : 0 < x.significand) : RoundsTo (q / 2 ^ x.exponent) x.significand := by
  have hstep : (0 : ℚ) < 2 ^ (x.exponent - 2) := by positivity
  have hunit : (0 : ℚ) < 2 ^ x.exponent := by positivity
  obtain ⟨hlow, hhigh⟩ := h
  rw [two_zpow_add_two x.exponent] at hunit ⊢
  generalize (2 : ℚ) ^ (x.exponent - 2) = step at hstep hunit hlow hhigh ⊢
  have hcast : ((4 * x.significand - (if x.narrowBelow then 1 else 2) : Nat) : ℚ) =
      4 * x.significand - (if x.narrowBelow then 1 else 2) := by
    rw [Nat.cast_sub (by split <;> omega)]
    push_cast
    rfl
  rw [hcast] at hlow
  push_cast at hhigh
  refine ⟨?_, ?_⟩
  · rw [lt_div_iff₀ hunit, eq_div_iff hunit.ne']
    cases hnarrow : x.narrowBelow with
    | true =>
      simp only [hnarrow, if_true] at hlow
      refine Or.inl ?_
      rcases hlow with h | ⟨-, h⟩ <;> nlinarith
    | false =>
      simp only [hnarrow, Bool.false_eq_true, if_false] at hlow
      refine hlow.imp (fun h => ?_) (And.imp_right fun h => ?_) <;> linarith
  · rw [div_lt_iff₀ hunit, div_eq_iff hunit.ne']
    refine hhigh.imp (fun h => ?_) (And.imp_right fun h => ?_) <;> linarith

/-- Just below a power of two the steps are half as wide, and the midpoint rounds up to it. -/
theorem Magnitude.Reads.roundsTo_half {x : Magnitude} {q : ℚ} (h : x.Reads q)
    (hpos : 0 < x.significand) (hnarrow : x.narrowBelow = true)
    (hbelow : q < x.significand * 2 ^ x.exponent) :
    RoundsTo (q / 2 ^ (x.exponent - 1)) (2 * x.significand) := by
  have hhalf : (2 : ℚ) ^ (x.exponent - 1) = 2 * 2 ^ (x.exponent - 2) := by
    rw [← two_zpow_succ]
    congr 1
    omega
  have hstep : (0 : ℚ) < 2 ^ (x.exponent - 2) := by positivity
  obtain ⟨hlow, -⟩ := h
  rw [two_zpow_add_two x.exponent] at hbelow
  rw [hhalf]
  simp only [hnarrow, if_true, Nat.cast_sub (show 1 ≤ 4 * x.significand by omega)] at hlow
  push_cast at hlow
  generalize (2 : ℚ) ^ (x.exponent - 2) = step at hstep hlow hbelow ⊢
  have hunit : 0 < 2 * step := by linarith
  refine ⟨?_, Or.inl ?_⟩
  · rw [lt_div_iff₀ hunit, eq_div_iff hunit.ne']
    push_cast
    refine hlow.imp (fun h => ?_) (fun h => ⟨by omega, ?_⟩)
    · linarith
    · linarith [h.2]
  · rw [div_lt_iff₀ hunit]
    push_cast
    linarith

/-- A rational between the midpoints is rounded to the bits of the magnitude. -/
theorem BinaryFormat.nearest_of_reads {f : BinaryFormat} {x : Magnitude} {bits num den : Nat}
    (hfits : x.Fits f bits) (hpos : 0 < x.significand) (hnum : 0 < num) (hden : 0 < den)
    (h : x.Reads (num / den)) : f.nearest num den = bits := by
  obtain ⟨hlog, hlog'⟩ := log2Ratio_spec hnum hden
  have hnarrow := hfits.narrow
  have hlt := hfits.significand_lt
  have hge := hfits.exponent_ge
  have hfraction : (2 : ℚ) ^ ((f.fractionBits : Int) + x.exponent) =
      2 ^ f.fractionBits * 2 ^ x.exponent := by
    rw [zpow_add₀ (by norm_num), zpow_natCast]
  have hunit : (0 : ℚ) < 2 ^ x.exponent := by positivity
  have hround := h.roundsTo hpos
  obtain ⟨hlow, hhigh⟩ := hround.bounds
  rw [le_div_iff₀ hunit] at hlow
  rw [div_le_iff₀ hunit] at hhigh
  -- The value is below twice the least normal significand, which bounds its exponent.
  have hupper : log2Ratio num den < f.fractionBits + x.exponent + 1 := by
    refine lt_of_zpow_lt (hlog.trans_lt ?_)
    rw [two_zpow_succ, hfraction]
    have hcast : (x.significand : ℚ) + 1 ≤ 2 * 2 ^ f.fractionBits := by exact_mod_cast hlt
    nlinarith
  by_cases hhalf : x.significand = 2 ^ f.fractionBits ∧ f.leastExponent < x.exponent ∧
      (num : ℚ) / den < x.significand * 2 ^ x.exponent
  · obtain ⟨hleast, hnormal, hbelow⟩ := hhalf
    have hcast : (x.significand : ℚ) = 2 ^ f.fractionBits := by exact_mod_cast hleast
    have hlt' : log2Ratio num den < f.fractionBits + x.exponent := by
      refine lt_of_zpow_lt (hlog.trans_lt ?_)
      rwa [hfraction, ← hcast]
    have hgt : (f.fractionBits : Int) + x.exponent < log2Ratio num den + 1 + 1 := by
      refine lt_of_zpow_lt ?_
      rw [two_zpow_succ, hfraction, ← hcast]
      have hone : (1 : ℚ) ≤ x.significand := by exact_mod_cast hpos
      nlinarith
    have hexponent : max (log2Ratio num den - f.fractionBits) f.leastExponent = x.exponent - 1 := by
      omega
    rw [nearest_of_exponent hden hexponent
      (h.roundsTo_half hpos (hnarrow.mpr ⟨hleast, hnormal⟩) hbelow)]
    -- The carry moves to the next exponent.
    obtain ⟨n, hn⟩ := Int.eq_ofNat_of_zero_le (show 0 ≤ x.exponent - 1 - f.leastExponent by omega)
    have hn' : x.exponent - f.leastExponent = ((n + 1 : Nat) : Int) := by omega
    have hbits : bits = n * 2 ^ f.fractionBits + 2 * x.significand := by
      rw [hfits.bits_eq, hn', Int.toNat_natCast, Nat.succ_mul, hleast]
      omega
    rw [hn, Int.toNat_natCast, ← hbits, Nat.min_eq_left hfits.finite.le]
  · have hexponent : max (log2Ratio num den - f.fractionBits) f.leastExponent = x.exponent := by
      rcases Int.lt_or_eq_of_le hge with hnormal | hleast
      swap
      · omega
      have hle := hfits.normal hnormal
      have habove : (2 : ℚ) ^ f.fractionBits * 2 ^ x.exponent ≤ num / den := by
        rcases Nat.eq_or_lt_of_le hle with heq | hlt'
        · have hcast : (2 : ℚ) ^ f.fractionBits = x.significand := by exact_mod_cast heq
          rw [hcast]
          by_contra hbelow
          exact hhalf ⟨heq.symm, hnormal, not_le.mp hbelow⟩
        · have hcast : (2 : ℚ) ^ f.fractionBits + 1 ≤ x.significand := by exact_mod_cast hlt'
          nlinarith
      have hgt : (f.fractionBits : Int) + x.exponent < log2Ratio num den + 1 := by
        refine lt_of_zpow_lt ?_
        rw [hfraction]
        exact habove.trans_lt hlog'
      omega
    rw [nearest_of_exponent hden hexponent hround, ← hfits.bits_eq,
      Nat.min_eq_left hfits.finite.le]

end SexprAsm.Decimal
