import SexprAsm.Proofs.Decimal.Rendering
import SexprAsm.Proofs.Reader.Items

/-!
# Values read back from their spelling

The token of every value is a head of the grammar, with whatever blanks around it, and stands for
the value again. There are two exceptions: a type is spelled by its name and read as text, and
every NaN is spelled alike (`Value.reread`).

Main statement: `Value.head_spelling`.
-/

namespace SexprAsm

open Text Grammar Decimal Numeral

/-! ## Heads with blanks around them

What is printed stands between other things, with blanks around it. `HeadText` says that it is a
head then, too, and with which tag. A token without special characters is one as it stands. -/

/-- A text is a head with the given tag, also with blanks around it, and shows where it begins. -/
structure HeadText (text : List Char) (tag : Value) : Prop where
  visible : ∃ c rest, text = c :: rest ∧ ¬ isIgnorable c ∧ c ≠ '\\' ∧ c ≠ ';'
  head : ∀ before after : List Char, (∀ c ∈ before, isIgnorable c) → (∀ c ∈ after, isIgnorable c) →
    Head (before ++ text ++ after) tag

theorem bare_of_plain {cs : List Char} (h : ∀ c ∈ cs, c ∉ structural) : Bare cs cs := by
  induction cs with
  | nil => exact .nil
  | cons c cs ih =>
    obtain ⟨hc, hcs⟩ := List.forall_mem_cons.mp h
    exact .plain hc (ih hcs)

theorem bare_of_ignorable {cs : List Char} (h : ∀ c ∈ cs, isIgnorable c) : Bare cs cs :=
  bare_of_plain fun c hc => Reader.not_mem_structural_of_isIgnorable (h c hc)

theorem gap_of_ignorable {cs : List Char} (h : ∀ c ∈ cs, isIgnorable c) : Gap cs := by
  induction cs with
  | nil => exact .nil
  | cons c cs ih =>
    obtain ⟨hc, hcs⟩ := List.forall_mem_cons.mp h
    exact .blank hc (ih hcs)

/-- Trimming takes the blanks off a text that has none itself. -/
theorem trimBy_surrounded {p : Char → Bool} {before text after : List Char}
    (hbefore : ∀ c ∈ before, p c) (hafter : ∀ c ∈ after, p c) (htext : ∀ c ∈ text, ¬ p c) :
    trimBy p (before ++ text ++ after) = text := by
  have hstop (cs : List Char) (h : ∀ c ∈ cs, ¬ p c) (tail : List Char) (hsome : cs ≠ []) :
      (cs ++ tail).dropWhile p = cs ++ tail := by
    obtain ⟨c, cs, rfl⟩ := List.exists_cons_of_ne_nil hsome
    have hc : p c = false := by simpa using h c List.mem_cons_self
    simp [hc]
  rw [trimBy, List.append_assoc, List.dropWhile_append_of_pos hbefore]
  rcases List.eq_nil_or_concat text with rfl | hconcat
  · rw [List.nil_append, List.dropWhile_eq_nil_iff.mpr hafter]
    rfl
  · have hsome : text ≠ [] := by
      obtain ⟨init, last, rfl⟩ := hconcat
      simp
    rw [hstop text htext after hsome, List.reverse_append,
      List.dropWhile_append_of_pos (by simpa using hafter)]
    have hreverse := hstop text.reverse (by simpa using htext) [] (by simpa using hsome)
    rw [List.append_nil] at hreverse
    rw [hreverse, List.reverse_reverse]

/-- A token without structural and ignorable characters. -/
theorem HeadText.bare {text : List Char} (hsome : text ≠ [])
    (hplain : ∀ c ∈ text, c ∉ structural ∧ ¬ isIgnorable c) :
    HeadText text (Value.ofToken (String.ofList text)) where
  visible := by
    obtain ⟨c, rest, rfl⟩ := List.exists_cons_of_ne_nil hsome
    obtain ⟨hstructural, hignorable⟩ := hplain c List.mem_cons_self
    refine ⟨c, rest, rfl, hignorable, ?_, ?_⟩ <;> rintro rfl <;>
      exact hstructural (by decide)
  head before after hbefore hafter := by
    have htrim := trimBy_surrounded hbefore hafter fun c hc => (hplain c hc).2
    have hbare : Bare (before ++ text ++ after) (before ++ text ++ after) := by
      refine bare_of_plain fun c hc => ?_
      rcases List.mem_append.mp hc with hc | hc
      · rcases List.mem_append.mp hc with hc | hc
        · exact Reader.not_mem_structural_of_isIgnorable (hbefore c hc)
        · exact (hplain c hc).1
      · exact Reader.not_mem_structural_of_isIgnorable (hafter c hc)
    have hhead := Head.bare hbare
    rwa [bareValue, htrim, if_neg (by simpa using hsome)] at hhead

/-! ## Quoted texts

Each character is escaped by itself, and what its escape looks like may depend on the character
behind it. By induction on the text, the escapes are the body of a quoted head. -/

/-- The escape of a character begins with a backslash, or is the character itself. -/
theorem escapeChar_cases (c : Char) (following : List Char) :
    (∃ rest, escapeChar c following = '\\' :: rest) ∨ escapeChar c following = [c] := by
  rw [escapeChar]
  repeat' split
  all_goals first | exact Or.inl ⟨_, rfl⟩ | exact Or.inr rfl

/-- Escaping leads no digit to the front. -/
theorem digitNext_of_escape {cs : List Char} (h : DigitNext 8 (escape cs)) : DigitNext 8 cs := by
  obtain ⟨d, hd, hdigit⟩ := h
  cases cs with
  | nil => cases hd
  | cons c cs =>
    rw [escape] at hd
    rcases escapeChar_cases c cs with ⟨rest, hescape⟩ | hescape
    · rw [hescape] at hd
      obtain rfl : '\\' = d := by simpa using hd
      exact absurd hdigit (by decide)
    · rw [hescape] at hd
      exact ⟨d, by simpa using hd, hdigit⟩

theorem namedEscape?_of_escapeLetter? {c letter : Char} (h : escapeLetter? c = some letter) :
    namedEscape? letter = some c := by
  unfold escapeLetter? at h
  split at h
  case h_9 => cases h
  all_goals
    obtain rfl := Option.some.inj h
    rfl

/-- Two hexadecimal digits spell a small character. -/
theorem piece_hexDigits {quote c : Char} {rest : List Char} (h : c.toNat < 256) :
    Piece quote rest ['\\', 'x', hexDigit (c.toNat / 16), hexDigit (c.toNat % 16)] [c] := by
  have hdigit : ∀ n < 16, digit? 16 (hexDigit n) = some n := by decide
  have hhigh := hdigit (c.toNat / 16) (by omega)
  have hlow := hdigit (c.toNat % 16) (by omega)
  have hvalue : ofDigits 16 [hexDigit (c.toNat / 16), hexDigit (c.toNat % 16)] = c.toNat := by
    simp only [ofDigits, List.foldl_cons, List.foldl_nil, hhigh, hlow, Option.getD_some]
    omega
  have hpiece := @Piece.hex quote rest 'x' 2 [hexDigit (c.toNat / 16), hexDigit (c.toNat % 16)] rfl
    rfl (by simp [isDigit, hhigh, hlow]) (by rw [hvalue]; exact c.valid)
  rwa [hvalue, Char.ofNat_toNat] at hpiece

/-- The escape of a character stands for it, whatever follows. -/
theorem piece_escapeChar (c : Char) (following : List Char) :
    Piece '"' (escape following) (escapeChar c following) [c] := by
  rw [escapeChar]
  split
  next hc => rcases hc with rfl | rfl <;> exact .other (by decide) (by decide) (by decide)
  next hc =>
    rw [not_or] at hc
    split
    next hnull =>
      subst hnull
      split
      next => exact .hex rfl rfl (List.all_iff_forall_prop.mp (by decide)) (by decide)
      next hnext =>
        refine @Piece.octal _ _ ['0'] (by simp) (by simp) (List.all_iff_forall_prop.mp (by decide))
          (Or.inr fun h => hnext ?_)
        obtain ⟨d, hd, hdigit⟩ := digitNext_of_escape h
        rw [hd]
        exact hdigit
    next =>
      split
      next letter hletter => exact .named (namedEscape?_of_escapeLetter? hletter)
      next =>
        split
        next hcontrol =>
          refine piece_hexDigits ?_
          simp only [isControl, Bool.or_eq_true, Bool.and_eq_true, decide_eq_true_eq] at hcontrol
          omega
        next => exact .plain hc.1 hc.2

theorem body_escape (cs : List Char) : Body '"' (escape cs) cs := by
  induction cs with
  | nil => exact .nil
  | cons c cs ih => exact .cons (piece_escapeChar c cs) ih

theorem HeadText.quoted (text : String) : HeadText (quote text).toList (.string text) where
  visible := ⟨'"', _, by rw [quote, String.toList_ofList]; rfl, by decide, by decide, by decide⟩
  head before after hbefore hafter := by
    have hblank : Blank before := ⟨before, bare_of_ignorable hbefore, hbefore⟩
    have hhead := Head.quoted hblank (Or.inl rfl) (body_escape text.toList)
      (gap_of_ignorable hafter)
    rw [String.ofList_toList] at hhead
    rw [quote, String.toList_ofList]
    simpa using hhead

/-! ## Tokens

A spelling of a number consists of characters that have no other use, and is split into the
number that it spells. What begins like a number is no keyword. -/

/-- The characters of numbers and of the letters after them. -/
def numberChars : List Char := "0123456789-.ebsulf".toList

theorem numberChars_spec : ∀ c ∈ numberChars,
    c ∉ structural ∧ ¬ isIgnorable c ∧ c.toLower = c :=
  -- decided along the list: the quantifier as such would be decided over all characters
  List.all_iff_forall_prop.mp (by decide)

/-- A number begins with a digit, after its sign. -/
def startsNumber : List Char → Bool
  | '-' :: c :: _ => isDigit 10 c
  | c :: _ => isDigit 10 c
  | [] => false

theorem ofKeyword?_eq_none {token : String} (h : startsNumber token.toList = true) :
    Value.ofKeyword? token = none := by
  unfold Value.ofKeyword?
  split
  case h_13 => rfl
  all_goals revert h; decide

/-- A keyword is a token for its literal. -/
theorem HeadText.keyword {token : String} {v : Value} (hword : Value.ofWord? token = some v)
    (hsome : token.toList ≠ [])
    (hplain : ∀ c ∈ token.toList, c ∉ structural ∧ ¬ isIgnorable c) : HeadText token.toList v := by
  have htoken : Value.ofToken token = v := by
    rw [Value.ofToken, hword]
    rfl
  have hhead := HeadText.bare hsome hplain
  rwa [String.ofList_toList, htoken] at hhead

/-- A text of the characters of numbers that is split into a number is a token for it. -/
theorem HeadText.number {text : List Char} {numeral : Numeral} {suffix : Suffix} {v : Value}
    (hchars : ∀ c ∈ text, c ∈ numberChars) (hstarts : startsNumber text = true)
    (hsplit : split? text = some (numeral, suffix)) (hvalue : numeral.value? suffix = some v) :
    HeadText text v := by
  have hlower : asciiLower (String.ofList text) = String.ofList text := by
    rw [asciiLower, String.toList_ofList, List.map_congr_left
      fun c hc => (numberChars_spec c (hchars c hc)).2.2, List.map_id']
  have htoken : Value.ofToken (String.ofList text) = v := by
    have hword : Value.ofWord? (String.ofList text) = none := by
      rw [Value.ofWord?, hlower]
      exact ofKeyword?_eq_none (by rwa [String.toList_ofList])
    have hnumber : Value.ofNumber? (String.ofList text) = some v := by
      rw [Value.ofNumber?, hlower, String.toList_ofList, hsplit]
      exact hvalue
    rw [Value.ofToken, hword, hnumber]
    rfl
  have hsome : text ≠ [] := by
    rintro rfl
    cases hstarts
  have hhead := HeadText.bare hsome fun c hc =>
    ⟨(numberChars_spec c (hchars c hc)).1, (numberChars_spec c (hchars c hc)).2.1⟩
  rwa [htoken] at hhead

theorem startsNumber_append (negative : Bool) {whole : List Char} (hwhole : Unpadded whole)
    (rest : List Char) : startsNumber (signText negative ++ (whole ++ rest)) = true := by
  obtain ⟨c, cs, rfl⟩ := List.exists_cons_of_ne_nil hwhole.ne_nil
  have hc := hwhole.isDigit c List.mem_cons_self
  have hminus : c ≠ '-' := isDigit_ne hc (by decide)
  cases negative with
  | true => exact hc
  | false => simpa [signText, startsNumber, hminus] using hc

/-! ### Characters of numbers -/

theorem mem_numberChars_of_isDigit {c : Char} (h : isDigit 10 c) : c ∈ numberChars := by
  have hall : ∀ c ∈ "0123456789".toList, c ∈ numberChars :=
    List.all_iff_forall_prop.mp (by decide)
  exact hall c (mem_of_isDigit h)

theorem mem_numberChars_of_sign {negative : Bool} {c : Char} (h : c ∈ signText negative) :
    c ∈ numberChars := by
  cases negative with
  | true =>
    obtain rfl : c = '-' := by simpa [signText] using h
    decide
  | false => cases h

theorem mem_numberChars_of_toString {n : Int} {c : Char} (h : c ∈ (toString n).toList) :
    c ∈ numberChars := by
  rw [toList_toString_int] at h
  rcases List.mem_append.mp h with h | h
  · exact mem_numberChars_of_sign h
  · exact mem_numberChars_of_isDigit (isDigit_of_mem_toDigits _ c h)

theorem Numeral.Spells.mem_numberChars {text : List Char} {q : ℚ} (h : Spells text q) {c : Char}
    (hc : c ∈ text) : c ∈ numberChars := by
  cases h with
  | @mk whole part power hwhole hpart _ =>
    rcases List.mem_append.mp hc with hc | hc
    · exact mem_numberChars_of_isDigit (hwhole.isDigit c hc)
    rcases List.mem_append.mp hc with hc | hc
    · rw [pointText] at hc
      split at hc
      · cases hc
      · rcases List.mem_cons.mp hc with rfl | hc
        · decide
        · exact mem_numberChars_of_isDigit (hpart c hc)
    · cases power with
      | none => cases hc
      | some n =>
        rcases List.mem_cons.mp hc with rfl | hc
        · decide
        · exact mem_numberChars_of_toString hc

theorem Numeral.Spells.startsNumber {text : List Char} {q : ℚ} (h : Spells text q)
    (negative : Bool) (letters : List Char) :
    startsNumber (signText negative ++ (text ++ letters)) = true := by
  cases h with
  | mk hwhole _ _ =>
    rw [List.append_assoc]
    exact startsNumber_append negative hwhole _

/-! ## Values

One lemma for each kind of value. For floating point the text spells some rational, and rounding
this rational gives the bits again. -/

namespace Value

/-- What a value is read back as: a type as its name, a NaN as the one that a literal denotes. -/
def reread : Value → Value
  | typeName name => string name
  | float k bits =>
    match k.format.read bits.toNat with
    | .nan => ofMagnitude k false k.format.nanBits
    | .infinite _ | .finite _ _ => float k bits
  | v => v

theorem head_quoteIfNeeded (text : String) : HeadText (quoteIfNeeded text).toList (string text) := by
  rw [quoteIfNeeded]
  split
  next => exact .quoted text
  next h =>
    simp only [needsQuotes, Bool.or_eq_true, not_or, Bool.not_eq_true, Option.isSome_eq_false_iff,
      Option.isNone_iff_eq_none, List.any_eq_false] at h
    obtain ⟨⟨⟨hempty, hword⟩, hnumber⟩, hplain⟩ := h
    have htoken : ofToken text = string text := by
      rw [ofToken, hword, hnumber]
      rfl
    have hsome : text.toList ≠ [] := by
      rw [ne_eq, String.toList_eq_nil_iff]
      rintro rfl
      cases hempty
    have hhead := HeadText.bare hsome fun c hc => by
      simpa using hplain c hc
    rwa [String.ofList_toList, htoken] at hhead

theorem head_int (k : IntKind) (bits : BitVec k.width) :
    HeadText (spelling (.int k bits)).toList (.int k bits) := by
  have hletters := letters_int k
  have htext : (spelling (.int k bits)).toList =
      signText (decide (k.toInt bits < 0)) ++
        (Nat.toDigits 10 (k.toInt bits).natAbs ++ k.suffix.toList) := by
    rw [spelling, String.toList_append, toList_toString_int, List.append_assoc]
  have hsplit := split?_integer (decide (k.toInt bits < 0))
    (unpadded_toDigits (k.toInt bits).natAbs) hletters.digit hletters.noX hletters.suffix
  rw [← htext, ofDigits_toDigits] at hsplit
  refine HeadText.number (fun c hc => ?_) ?_ hsplit ?_
  · have hall : ∀ c ∈ k.suffix.toList, c ∈ numberChars := by
      cases k <;> exact List.all_iff_forall_prop.mp (by decide)
    rw [spelling, String.toList_append] at hc
    rcases List.mem_append.mp hc with hc | hc
    · exact mem_numberChars_of_toString hc
    · exact hall c hc
  · rw [htext]
    exact startsNumber_append _ (unpadded_toDigits _) _
  · rw [value?_integer, signedInt?_toInt]

/-- The sign and the magnitude bits make up the bit pattern. -/
theorem ofMagnitude_mod (k : FloatKind) (bits : BitVec k.width) :
    ofMagnitude k (decide (k.format.signBit ≤ bits.toNat)) (bits.toNat % k.format.signBit) =
      .float k bits := by
  have hlt : bits.toNat < 2 * k.format.signBit := by
    have hwidth : 2 ^ k.width = 2 * k.format.signBit := by cases k <;> rfl
    rw [← hwidth]
    exact bits.isLt
  have hbits : k.format.withSign (decide (k.format.signBit ≤ bits.toNat))
      (bits.toNat % k.format.signBit) = bits.toNat := by
    rw [BinaryFormat.withSign]
    by_cases h : k.format.signBit ≤ bits.toNat
    · rw [if_pos (by simpa using h), Nat.mod_eq_sub_mod h, Nat.mod_eq_of_lt (by omega)]
      omega
    · rw [if_neg (by simpa using h), Nat.mod_eq_of_lt (by omega)]
  rw [ofMagnitude, hbits, BitVec.ofNat_toNat, BitVec.setWidth_eq]

/-- The suffix that asks for a floating-point kind as it is spelled. -/
def floatSuffix : FloatKind → Suffix
  | .single => .float .single
  | .double => .plain

theorem letters_float (k : FloatKind) : FloatLetters k.suffix.toList (floatSuffix k) := by
  cases k with
  | single =>
    exact ⟨⟨rfl, not_digitNext_cons (by decide), by decide, List.all_iff_forall_prop.mp (by decide)⟩,
      by decide, by decide⟩
  | double =>
    exact ⟨⟨rfl, not_digitNext_nil, by decide, List.all_iff_forall_prop.mp (by decide)⟩,
      by decide, by decide⟩

/-- The text of a magnitude stands for a rational that is rounded to its bits. -/
theorem exists_spells_render (k : FloatKind) {x : Magnitude} {bits : Nat}
    (hfits : x.Fits k.format bits) :
    ∃ q, Spells x.render q ∧ ∀ d : Scientific, d.value = q → k.format.ofScientific d = bits := by
  rw [Magnitude.render]
  split
  next hzero =>
    -- Zero has the least exponent, and no digits to round.
    have hbits : bits = 0 := by
      have hleast : x.exponent = k.format.leastExponent := by
        by_contra hne
        have hle := hfits.normal (lt_of_le_of_ne hfits.exponent_ge (Ne.symm hne))
        have hpos : 0 < 2 ^ k.format.fractionBits := Nat.pow_pos (by decide)
        omega
      rw [hfits.bits_eq, hleast, hzero]
      simp
    have hspells := @Spells.mk ['0'] ['0'] none
      ⟨by simp, List.all_iff_forall_prop.mp (by decide), Or.inl rfl⟩
      (List.all_iff_forall_prop.mp (by decide)) (Or.inl (by simp))
    refine ⟨_, hspells, fun d hd => ?_⟩
    have hdigits : d.digits = 0 := by
      have hnumber : ofDigits 10 ['0', '0'] = 0 := by decide
      rw [Scientific.value, Scientific.value, List.cons_append, List.nil_append, hnumber,
        Nat.cast_zero, zero_mul, mul_eq_zero, Nat.cast_eq_zero] at hd
      exact hd.resolve_right (by positivity)
    rw [BinaryFormat.ofScientific, if_pos (Or.inl hdigits), hbits]
  next hzero =>
    have hpos : 0 < x.significand := Nat.pos_of_ne_zero hzero
    have hdigits := Magnitude.digits_pos hpos (Magnitude.reads_shortest hpos)
    refine ⟨_, Scientific.spells_render hdigits, fun d hd => ?_⟩
    exact BinaryFormat.ofScientific_of_value (near_format k) hfits hpos hd

theorem head_finite (k : FloatKind) {bits : BitVec k.width} {negative : Bool} {x : Magnitude}
    (h : k.format.read bits.toNat = .finite negative x) :
    HeadText (spelling (.float k bits)).toList (.float k bits) := by
  obtain ⟨rfl, hfits⟩ := BinaryFormat.fits_of_read h
  obtain ⟨q, hspells, hround⟩ := exists_spells_render k hfits
  have hletters := letters_float k
  have htext : (spelling (.float k bits)).toList =
      signText (decide (k.format.signBit ≤ bits.toNat)) ++ (x.render ++ k.suffix.toList) := by
    rw [spelling, floatSpelling, h, String.toList_append, String.toList_ofList,
      List.append_assoc]
    rfl
  obtain ⟨d, hsplit, hd⟩ := split?_of_spells (decide (k.format.signBit ≤ bits.toNat)) hspells
    hletters
  rw [← htext] at hsplit
  refine HeadText.number (fun c hc => ?_) ?_ hsplit ?_
  · have hall : ∀ c ∈ k.suffix.toList, c ∈ numberChars := by
      cases k <;> exact List.all_iff_forall_prop.mp (by decide)
    rw [htext] at hc
    rcases List.mem_append.mp hc with hc | hc
    · exact mem_numberChars_of_sign hc
    rcases List.mem_append.mp hc with hc | hc
    · exact hspells.mem_numberChars hc
    · exact hall c hc
  · rw [htext]
    exact hspells.startsNumber _ _
  · rw [← ofMagnitude_mod, ← hround d hd]
    cases k <;> rfl

theorem head_float (k : FloatKind) (bits : BitVec k.width) :
    HeadText (spelling (.float k bits)).toList (reread (.float k bits)) := by
  rw [reread]
  split
  next h =>
    rw [spelling, floatSpelling, h]
    cases k <;> exact .keyword rfl (by decide) (List.all_iff_forall_prop.mp (by decide))
  next negative h =>
    obtain ⟨hnegative, hmagnitude⟩ := BinaryFormat.magnitude_of_infinite h
    rw [spelling, floatSpelling, h, ← ofMagnitude_mod, ← hnegative, hmagnitude]
    cases k <;> cases negative <;>
      exact .keyword rfl (by decide) (List.all_iff_forall_prop.mp (by decide))
  next h => exact head_finite k h

/-- The spelling of every value is a head for what the value is read back as. -/
theorem head_spelling (v : Value) : HeadText v.spelling.toList v.reread := by
  cases v with
  | null => exact .keyword rfl (by decide) (List.all_iff_forall_prop.mp (by decide))
  | bool b => cases b <;> exact .keyword rfl (by decide) (List.all_iff_forall_prop.mp (by decide))
  | int k bits => exact head_int k bits
  | float k bits => exact head_float k bits
  | string text => exact head_quoteIfNeeded text
  | typeName name => exact head_quoteIfNeeded name

end Value

end SexprAsm
