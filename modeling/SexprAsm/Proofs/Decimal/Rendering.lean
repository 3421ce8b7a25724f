import SexprAsm.Proofs.Value.Numerals

/-!
# The text of a decimal

A decimal is written with the digits that are left of it after its trailing zeros, around a point
or with a power of ten. Either way the text stands for the same rational.

Main statement: `Scientific.spells_render`.
-/

namespace SexprAsm.Decimal

open Text Numeral

namespace Scientific

/-- The digits of a decimal that are written, with the zeros that are not. -/
theorem exists_significant {d : Scientific} (hpos : 0 < d.digits) :
    ∃ zeros, Nat.toDigits 10 d.digits = d.significant ++ List.replicate zeros '0' ∧
      d.significant ≠ [] := by
  let reversed := (Nat.toDigits 10 d.digits).reverse
  have hsplit := List.takeWhile_append_dropWhile (p := (· == '0')) (l := reversed)
  have htake : reversed.takeWhile (· == '0') =
      List.replicate (reversed.takeWhile (· == '0')).length '0' := by
    refine List.eq_replicate_iff.mpr ⟨rfl, fun c hc => ?_⟩
    simpa using List.mem_takeWhile_imp hc
  have hdigits : Nat.toDigits 10 d.digits =
      d.significant ++ List.replicate (reversed.takeWhile (· == '0')).length '0' := by
    have hreverse := congrArg List.reverse hsplit
    rw [List.reverse_append, List.reverse_reverse, htake, List.reverse_replicate] at hreverse
    rw [← hreverse, significant]
  refine ⟨_, hdigits, fun hnil => ?_⟩
  -- Zeros alone spell zero.
  have hzero := congrArg (ofDigits 10) hdigits
  rw [ofDigits_toDigits, hnil, List.nil_append, ofDigits_zeros] at hzero
  omega

/-- The written digits, counted from the place of the first one, give the value. -/
theorem significant_spec {d : Scientific} (hpos : 0 < d.digits) :
    Unpadded d.significant ∧ d.significant.head? ≠ some '0' ∧
      d.value =
        ofDigits 10 d.significant * 10 ^ (d.leadingPlace + 1 - d.significant.length) := by
  obtain ⟨zeros, hdigits, hsome⟩ := exists_significant hpos
  have hhead : d.significant.head? ≠ some '0' := by
    have h := head?_toDigits hpos
    rw [hdigits, List.head?_append_of_ne_nil _ hsome] at h
    exact h
  refine ⟨⟨hsome, fun c hc => ?_, Or.inr hhead⟩, hhead, ?_⟩
  · exact isDigit_of_mem_toDigits d.digits c (hdigits ▸ List.mem_append_left _ hc)
  · have hvalue := ofDigits_toDigits d.digits
    rw [hdigits, ofDigits_append, ofDigits_zeros, List.length_replicate, Nat.add_zero] at hvalue
    have hplace : d.leadingPlace + 1 - d.significant.length = (zeros : Int) + d.exponent := by
      rw [leadingPlace, digitCount, hdigits, List.length_append, List.length_replicate]
      omega
    rw [value, hplace, zpow_add₀ (by norm_num), zpow_natCast, ← hvalue]
    push_cast
    ring

variable {digits : List Char}

/-- Zeros between the point and the first digit. -/
theorem spells_below_point (hdigits : Unpadded digits) {lead : Int} (hlead : lead < 0) :
    Spells ('0' :: '.' :: (List.replicate (-lead - 1).toNat '0' ++ digits))
      (ofDigits 10 digits * 10 ^ (lead + 1 - digits.length)) := by
  have hpart : ∀ c ∈ List.replicate (-lead - 1).toNat '0' ++ digits, isDigit 10 c := by
    intro c hc
    rcases List.mem_append.mp hc with hc | hc
    · rw [List.eq_of_mem_replicate hc]
      decide
    · exact hdigits.isDigit c hc
  have hsome : List.replicate (-lead - 1).toNat '0' ++ digits ≠ [] := by simp [hdigits.ne_nil]
  have hzero : Unpadded ['0'] := ⟨by simp, List.all_iff_forall_prop.mp (by decide), Or.inl rfl⟩
  have hspells := @Spells.mk _ _ none hzero hpart (Or.inl hsome)
  have htext : pointText (List.replicate (-lead - 1).toNat '0' ++ digits) =
      '.' :: (List.replicate (-lead - 1).toNat '0' ++ digits) := by
    rw [pointText, if_neg (by simpa using hsome)]
  have hnumber : ofDigits 10 (['0'] ++ (List.replicate (-lead - 1).toNat '0' ++ digits)) =
      ofDigits 10 digits := by
    rw [← List.append_assoc, show ['0'] ++ List.replicate (-lead - 1).toNat '0' =
      List.replicate ((-lead - 1).toNat + 1) '0' from rfl, ofDigits_append, ofDigits_zeros,
      Nat.zero_mul, Nat.zero_add]
  have hexponent : (none : Option Int).getD 0 -
      ((List.replicate (-lead - 1).toNat '0' ++ digits).length : Nat) =
        lead + 1 - digits.length := by
    rw [List.length_append, List.length_replicate, Option.getD_none]
    omega
  rw [htext, hnumber, hexponent] at hspells
  simpa [powerText, value] using hspells

/-- Zeros between the last digit and the point. -/
theorem spells_above_point (hdigits : Unpadded digits) (hhead : digits.head? ≠ some '0')
    (zeros : Nat) :
    Spells (digits ++ List.replicate zeros '0' ++ ['.', '0'])
      (ofDigits 10 digits * 10 ^ zeros) := by
  have hwhole : Unpadded (digits ++ List.replicate zeros '0') := by
    refine ⟨by simp [hdigits.ne_nil], fun c hc => ?_, Or.inr ?_⟩
    · rcases List.mem_append.mp hc with hc | hc
      · exact hdigits.isDigit c hc
      · rw [List.eq_of_mem_replicate hc]
        decide
    · rwa [List.head?_append_of_ne_nil _ hdigits.ne_nil]
  have hspells := @Spells.mk _ ['0'] none hwhole
    (List.all_iff_forall_prop.mp (by decide)) (Or.inl (by simp))
  have hnumber : ofDigits 10 (digits ++ List.replicate zeros '0' ++ ['0']) =
      ofDigits 10 digits * 10 ^ (zeros + 1) := by
    rw [List.append_assoc, show List.replicate zeros '0' ++ ['0'] =
      List.replicate (zeros + 1) '0' from List.replicate_succ'.symm, ofDigits_append,
      ofDigits_zeros, List.length_replicate, Nat.add_zero]
  have hvalue : value ⟨ofDigits 10 digits * 10 ^ (zeros + 1), -1⟩ =
      ofDigits 10 digits * 10 ^ zeros := by
    rw [value]
    push_cast
    rw [pow_succ, zpow_neg_one]
    field_simp
  rw [hnumber] at hspells
  rw [← hvalue]
  exact hspells

/-- A point between two digits. -/
theorem spells_between (hdigits : Unpadded digits) (hhead : digits.head? ≠ some '0') {whole : Nat}
    (hpos : 0 < whole) (hlt : whole < digits.length) :
    Spells (digits.take whole ++ '.' :: digits.drop whole)
      (ofDigits 10 digits * 10 ^ ((whole : Int) - digits.length)) := by
  have hpart : ∀ c ∈ digits.drop whole, isDigit 10 c :=
    fun c hc => hdigits.isDigit c (List.mem_of_mem_drop hc)
  have hsome : digits.drop whole ≠ [] := by
    rw [ne_eq, List.drop_eq_nil_iff]
    omega
  have htake : Unpadded (digits.take whole) := by
    refine ⟨?_, fun c hc => hdigits.isDigit c (List.mem_of_mem_take hc), Or.inr ?_⟩
    · rw [ne_eq, List.take_eq_nil_iff]
      simp [hdigits.ne_nil, Nat.ne_of_gt hpos]
    · rwa [List.head?_take, if_neg (Nat.ne_of_gt hpos)]
  have hspells := @Spells.mk _ _ none htake hpart (Or.inl hsome)
  have hexponent : (none : Option Int).getD 0 - ((digits.drop whole).length : Nat) =
      (whole : Int) - digits.length := by
    rw [List.length_drop, Option.getD_none]
    omega
  have htext : pointText (digits.drop whole) = '.' :: digits.drop whole := by
    rw [pointText, if_neg (by simpa using hsome)]
  rw [htext, List.take_append_drop, hexponent] at hspells
  simpa [powerText, value] using hspells

/-- Digits with a point after the one at `lead`, or with zeros up to the point. -/
theorem spells_positional (hdigits : Unpadded digits) (hhead : digits.head? ≠ some '0')
    (lead : Int) :
    Spells (positional digits lead) (ofDigits 10 digits * 10 ^ (lead + 1 - digits.length)) := by
  rw [positional]
  by_cases hlead : lead < 0
  · rw [if_pos hlead]
    exact spells_below_point hdigits hlead
  · rw [if_neg hlead]
    dsimp only
    obtain ⟨n, rfl⟩ := Int.eq_ofNat_of_zero_le (Int.not_lt.mp hlead)
    rw [Int.toNat_natCast]
    by_cases hlong : n + 1 < digits.length
    · have hfraction : (digits.drop (n + 1)).isEmpty = false := by
        rw [Bool.eq_false_iff, ne_eq, List.isEmpty_iff, List.drop_eq_nil_iff]
        omega
      rw [show n + 1 - digits.length = 0 by omega, List.replicate_zero, List.append_nil, hfraction]
      exact spells_between hdigits hhead (Nat.succ_pos n) hlong
    · have hshort : digits.length ≤ n + 1 := Nat.not_lt.mp hlong
      rw [List.take_of_length_le hshort, List.drop_of_length_le hshort]
      have hexponent : (n : Int) + 1 - digits.length = ((n + 1 - digits.length : Nat) : Int) := by
        omega
      rw [hexponent, zpow_natCast]
      exact spells_above_point hdigits hhead _

/-- One digit before the point, and a power of ten. -/
theorem spells_exponential (hdigits : Unpadded digits) (hhead : digits.head? ≠ some '0')
    (lead : Int) :
    Spells (exponential digits lead) (ofDigits 10 digits * 10 ^ (lead + 1 - digits.length)) := by
  obtain ⟨c, rest, rfl⟩ := List.exists_cons_of_ne_nil hdigits.ne_nil
  obtain ⟨hc, hrest⟩ := List.forall_mem_cons.mp hdigits.isDigit
  have hwhole : Unpadded [c] := ⟨by simp, by simpa using hc, Or.inr (by simpa using hhead)⟩
  have hspells := Spells.mk hwhole hrest (Or.inr (Option.isSome_some (a := lead)))
  have hexponent : lead + 1 - ((c :: rest).length : Nat) = lead - rest.length := by
    rw [List.length_cons]
    omega
  rw [hexponent]
  simpa [exponential, pointText, powerText, value] using hspells

/-- The text of a decimal stands for its value. -/
theorem spells_render {d : Scientific} (hpos : 0 < d.digits) : Spells d.render d.value := by
  obtain ⟨hdigits, hhead, hvalue⟩ := significant_spec hpos
  rw [hvalue, render]
  split
  · exact spells_positional hdigits hhead _
  · exact spells_exponential hdigits hhead _

end Scientific

end SexprAsm.Decimal
