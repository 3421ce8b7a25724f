import SexprAsm.Proofs.Decimal.Shortest
import SexprAsm.Proofs.Text.Digits
import SexprAsm.Value.Spelling

/-!
# Numbers read back from their spelling

An integer is spelled by its sign, its digits and the letters of its kind; a floating-point number
by its sign, the shortest decimal and the letters of its kind. Both are split again into the same
parts: the digits are not padded with zeros, so that no number is taken for a bit pattern, and a
decimal has a point or a power of ten, so that it is not taken for an integer.

Main statements: `ofNumber?_int` and `ofNumber?_finite`.
-/

namespace SexprAsm

open Text Grammar Decimal

namespace Numeral

/-! ## The parts of a number -/

/-- The sign of a number as it is spelled. -/
def signText (negative : Bool) : List Char := if negative then ['-'] else []

variable (negative : Bool) {whole rest : List Char}

theorem isDigit_ne {c d : Char} (hc : isDigit 10 c) (hd : isDigit 10 d = false) : c ≠ d := by
  rintro rfl
  rw [hd] at hc
  cases hc

theorem sign_append (hwhole : Unpadded whole) (rest : List Char) :
    sign (signText negative ++ (whole ++ rest)) = (negative, whole ++ rest) := by
  obtain ⟨c, cs, rfl⟩ := List.exists_cons_of_ne_nil hwhole.ne_nil
  have hc := hwhole.isDigit c List.mem_cons_self
  have hminus : c ≠ '-' := isDigit_ne hc (by decide)
  have hplus : c ≠ '+' := isDigit_ne hc (by decide)
  cases negative with
  | true => rfl
  | false => simp [signText, sign, hminus, hplus]

theorem digits?_append {base : Nat} {run : List Char} (hrun : ∀ c ∈ run, isDigit base c)
    (hsome : run ≠ []) (hrest : ¬ DigitNext base rest) :
    digits? base (run ++ rest) = some (run, rest) := by
  obtain ⟨htake, hdrop⟩ := takeWhile_digits hrun hrest
  rw [digits?, htake, hdrop, if_neg (by simpa using hsome)]

/-- Digits that are not padded are not taken for a bit pattern. -/
theorem pattern_eq_none (hwhole : Unpadded whole) (hrest : ¬ DigitNext 10 rest)
    (hx : rest.head? ≠ some 'x') :
    hexadecimal? (signText negative ++ (whole ++ rest)) = none ∧
      octal? (signText negative ++ (whole ++ rest)) = none := by
  cases negative with
  | true => exact ⟨rfl, rfl⟩
  | false =>
    rw [signText, if_neg (by decide), List.nil_append]
    rcases hwhole.head with rfl | hhead
    · -- A zero alone is followed by no digit.
      have hnone : digits? 8 rest = none := by
        have hnext : ¬ DigitNext 8 rest := by
          rintro ⟨c, hc, hdigit⟩
          exact hrest ⟨c, hc, isDigit_mono (by decide) hdigit⟩
        rw [digits?, show rest = [] ++ rest from rfl,
          (takeWhile_digits (by simp) hnext).1]
        rfl
      refine ⟨?_, by simp [octal?, pattern?, hnone]⟩
      cases rest with
      | nil => rfl
      | cons c rest =>
        have hc : c ≠ 'x' := by simpa using hx
        simp [hexadecimal?, hc]
    · obtain ⟨c, cs, rfl⟩ := List.exists_cons_of_ne_nil hwhole.ne_nil
      have hc : c ≠ '0' := by simpa using hhead
      simp [hexadecimal?, octal?, hc]

theorem integer?_append (hwhole : Unpadded whole) (hrest : ¬ DigitNext 10 rest) :
    integer? (signText negative ++ (whole ++ rest)) =
      (Suffix.ofLetters? rest).map fun suffix =>
        (.integer negative (ofDigits 10 whole), suffix) := by
  simp only [integer?, sign_append negative hwhole, digits?_append hwhole.isDigit hwhole.ne_nil hrest,
    Option.bind_eq_bind, Option.bind_some]
  cases Suffix.ofLetters? rest <;> rfl

/-- Digits and the letters of a kind are an integer. -/
theorem split?_integer (hwhole : Unpadded whole) (hrest : ¬ DigitNext 10 rest)
    (hx : rest.head? ≠ some 'x') {suffix : Suffix} (hsuffix : Suffix.ofLetters? rest = some suffix) :
    split? (signText negative ++ (whole ++ rest)) =
      some (.integer negative (ofDigits 10 whole), suffix) := by
  obtain ⟨hhex, hoctal⟩ := pattern_eq_none negative hwhole hrest hx
  rw [split?, hhex, hoctal, integer?_append negative hwhole hrest, hsuffix]
  rfl

/-! ## Integers -/

theorem toList_toString_int (n : Int) :
    (toString n).toList = signText (decide (n < 0)) ++ Nat.toDigits 10 n.natAbs := by
  rw [Int.toString_eq_repr, Int.repr_eq_if, signText]
  by_cases h : 0 ≤ n
  · rw [if_pos h, if_neg (by simpa using h), Nat.toList_repr, List.nil_append,
      show n.toNat = n.natAbs by omega]
  · rw [if_neg h, if_pos (by simpa using h), String.toList_append, Nat.toList_repr,
      show (-n).toNat = n.natAbs by omega]
    rfl

/-- What follows the digits of a number of some kind: none of it is read as part of the number. -/
structure Letters (letters : List Char) (suffix : Suffix) : Prop where
  suffix : Suffix.ofLetters? letters = some suffix
  digit : ¬ DigitNext 10 letters
  noX : letters.head? ≠ some 'x'
  lower : ∀ c ∈ letters, c.toLower = c

/-- The suffix that asks for an integer kind as it is spelled. -/
def intSuffix (k : IntKind) : Suffix := if k = .int32 then .plain else .int k

theorem not_digitNext_cons {c : Char} {cs : List Char} (h : isDigit 10 c = false) :
    ¬ DigitNext 10 (c :: cs) := by
  rintro ⟨d, hd, hdigit⟩
  obtain rfl : c = d := by simpa using hd
  rw [h] at hdigit
  cases hdigit

theorem not_digitNext_nil : ¬ DigitNext 10 [] := by
  rintro ⟨c, hc, -⟩
  cases hc

theorem letters_int (k : IntKind) : Letters k.suffix.toList (intSuffix k) := by
  cases k
  case int32 => exact ⟨rfl, not_digitNext_nil, by decide, List.all_iff_forall_prop.mp (by decide)⟩
  all_goals
    exact ⟨rfl, not_digitNext_cons (by decide), by decide, List.all_iff_forall_prop.mp (by decide)⟩

theorem ofInt?_toInt (k : IntKind) (bits : BitVec k.width) :
    k.ofInt? (k.toInt bits) = some bits := by
  rw [IntKind.ofInt?, IntKind.toInt, IntKind.least, IntKind.greatest]
  by_cases h : k.signed = true
  · have hlow := BitVec.le_toInt bits
    have hhigh := BitVec.toInt_lt (x := bits)
    rw [if_pos h, if_pos h, if_pos h, BitVec.ofInt_toInt, if_pos]
    push_cast [Nat.pow_eq]
    omega
  · have hlt := bits.isLt
    rw [if_neg h, if_neg h, if_neg h, BitVec.ofInt_natCast, BitVec.ofNat_toNat,
      BitVec.setWidth_eq, if_pos]
    rw [Nat.pow_eq]
    omega

theorem signedInt?_toInt (k : IntKind) (bits : BitVec k.width) :
    signedInt? k (decide (k.toInt bits < 0)) (k.toInt bits).natAbs = some (.int k bits) := by
  have hunsigned : (decide (k.toInt bits < 0) && !k.signed) = false := by
    rw [IntKind.toInt]
    cases k.signed <;> simp
  have habs : (if decide (k.toInt bits < 0) then -((k.toInt bits).natAbs : Int)
      else ((k.toInt bits).natAbs : Int)) = k.toInt bits := by
    by_cases h : k.toInt bits < 0
    · rw [if_pos (by simpa using h)]
      omega
    · rw [if_neg (by simpa using h)]
      omega
  rw [signedInt?, hunsigned, habs, ofInt?_toInt]
  rfl

theorem value?_integer (k : IntKind) (n : Nat) :
    (Numeral.integer negative n).value? (intSuffix k) = signedInt? k negative n := by
  cases k <;> rfl

/-! ## Fractions -/

/-- The digits after the point, with the point. -/
def pointText (part : List Char) : List Char := if part.isEmpty then [] else '.' :: part

/-- The power of ten, with its mark. -/
def powerText : Option Int → List Char
  | none => []
  | some power => 'e' :: (toString power).toList

/-- A text is a decimal fraction that stands for a rational. -/
inductive Spells : List Char → ℚ → Prop where
  | mk {whole part : List Char} {power : Option Int} (hwhole : Unpadded whole)
      (hpart : ∀ c ∈ part, isDigit 10 c) (hmark : part ≠ [] ∨ power.isSome) :
      Spells (whole ++ (pointText part ++ powerText power))
        (Scientific.value ⟨ofDigits 10 (whole ++ part), power.getD 0 - part.length⟩)

/-- What follows the digits of a fraction: no digit, no point and no mark of a power. -/
structure FloatLetters (letters : List Char) (suffix : Suffix) : Prop
    extends Letters letters suffix where
  noPoint : letters.head? ≠ some '.'
  noPower : letters.head? ≠ some 'e'

variable {letters : List Char} {suffix : Suffix}

theorem power?_append (hletters : FloatLetters letters suffix) (power : Option Int) :
    power? (powerText power ++ letters) = some (power.getD 0, letters) := by
  cases power with
  | none =>
    rw [powerText, List.nil_append, Option.getD_none, power?]
    rintro cs rfl
    exact absurd rfl hletters.noPower
  | some n =>
    have hsign := sign_append (decide (n < 0)) (unpadded_toDigits n.natAbs) letters
    have hdigits := digits?_append (isDigit_of_mem_toDigits n.natAbs) Nat.toDigits_ne_nil
      hletters.digit
    have hvalue : (if decide (n < 0) = true then -(n.natAbs : Int) else n.natAbs) = n := by
      by_cases h : n < 0
      · rw [if_pos (by simpa using h)]
        omega
      · rw [if_neg (by simpa using h)]
        omega
    rw [powerText, List.cons_append, toList_toString_int, List.append_assoc]
    simp only [power?, hsign, hdigits, Option.bind_eq_bind, Option.bind_some, ofDigits_toDigits,
      hvalue, Option.getD_some]
    rfl

theorem not_digitNext_power (hletters : FloatLetters letters suffix) (power : Option Int) :
    ¬ DigitNext 10 (powerText power ++ letters) := by
  cases power with
  | none => exact hletters.digit
  | some n => exact not_digitNext_cons (by decide)

theorem point?_append (hletters : FloatLetters letters suffix) {part : List Char}
    (hwhole : Unpadded whole) (hpart : ∀ c ∈ part, isDigit 10 c) (power : Option Int) :
    point? (whole ++ (pointText part ++ (powerText power ++ letters))) =
      some (whole, part, powerText power ++ letters) := by
  have hpower := not_digitNext_power hletters power
  cases part with
  | nil =>
    obtain ⟨htake, hdrop⟩ := takeWhile_digits hwhole.isDigit hpower
    have hpoint : (powerText power ++ letters).head? ≠ some '.' := by
      cases power with
      | none => exact hletters.noPoint
      | some n => simp [powerText]
    rw [pointText, if_pos (by rfl), List.nil_append, point?, htake, hdrop]
    split
    next rest hrest => simp [hrest] at hpoint
    next => rw [if_neg (by simpa using hwhole.ne_nil)]
  | cons d part =>
    have hdot : ¬ DigitNext 10 ('.' :: (d :: part ++ (powerText power ++ letters))) :=
      not_digitNext_cons (by decide)
    obtain ⟨htake, hdrop⟩ := takeWhile_digits hwhole.isDigit hdot
    rw [pointText, if_neg (by simp), List.cons_append, point?, htake, hdrop]
    simp only [digits?_append hpart (by simp) hpower, Option.map_some]

/-- A fraction is not taken for a number of another form. -/
theorem split?_of_spells {text : List Char} {q : ℚ} (h : Spells text q)
    (hletters : FloatLetters letters suffix) :
    ∃ d : Scientific, split? (signText negative ++ (text ++ letters)) =
      some (.fraction negative d, suffix) ∧ d.value = q := by
  cases h with
  | @mk whole part power hwhole hpart hmark =>
    refine ⟨_, ?_, rfl⟩
    have hassoc : whole ++ (pointText part ++ powerText power) ++ letters =
        whole ++ (pointText part ++ (powerText power ++ letters)) := by simp
    -- The first character after the digits is a point or the mark of a power.
    obtain ⟨c, rest, hrest, hc⟩ : ∃ c rest,
        pointText part ++ (powerText power ++ letters) = c :: rest ∧ (c = '.' ∨ c = 'e') := by
      cases part with
      | cons d part => exact ⟨'.', _, rfl, Or.inl rfl⟩
      | nil =>
        obtain ⟨n, rfl⟩ := Option.isSome_iff_exists.mp (hmark.resolve_left (by simp))
        exact ⟨'e', _, rfl, Or.inr rfl⟩
    have hdigit : ¬ DigitNext 10 (c :: rest) := by
      rcases hc with rfl | rfl <;> exact not_digitNext_cons (by decide)
    have hx : (c :: rest).head? ≠ some 'x' := by
      rcases hc with rfl | rfl <;> simp
    have hnone : Suffix.ofLetters? (c :: rest) = none := by
      rcases hc with rfl | rfl <;> rfl
    obtain ⟨hhex, hoctal⟩ := pattern_eq_none negative hwhole hdigit hx
    have hinteger := integer?_append negative hwhole hdigit
    rw [hnone, Option.map_none] at hinteger
    rw [hassoc]
    rw [← hrest] at hhex hoctal hinteger
    rw [split?, hhex, hoctal, hinteger]
    simp only [fraction?, sign_append negative hwhole, point?_append hletters hwhole hpart,
      power?_append hletters, hletters.suffix, Option.bind_eq_bind, Option.bind_some]
    rfl

end Numeral

end SexprAsm
