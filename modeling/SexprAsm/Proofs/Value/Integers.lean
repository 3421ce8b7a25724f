import SexprAsm.Proofs.Value.Numerals

/-!
# Integer literals are read exactly

Which tokens are integers, and which integers they are, said without the reader of literals. A
token is looked at in lower case. It is a bit pattern (`PatternText`), in hexadecimal or octal
digits, or a decimal integer (`IntegerText`), each with the letters of a kind. A pattern may look
like an integer, and is a pattern then.

Each form of a number is first inverted (`pattern?_eq_some_iff`, `integer?_eq_some_iff`), so that
what is read and what is not follow from the same lemma.

Main statement: `Value.ofToken_exact`.
-/

namespace SexprAsm

open Text Grammar

/-! ## Integer tokens

The statements are about texts, so what an integer token is is said here without the reader: by
relations on lists of characters, which name the mark, the digits and the letters. -/

/-- The letters that ask for an integer kind; no letters ask for the signed kind of 32 bits. -/
def IntKind.letters : IntKind → List (List Char)
  | int8 => [['s', 'b'], ['b', 's']]
  | uint8 => [['b']]
  | int16 => [['s']]
  | uint16 => [['u', 's'], ['s', 'u']]
  | int32 => [[]]
  | uint32 => [['u']]
  | int64 => [['l']]
  | uint64 => [['u', 'l'], ['l', 'u']]

/-- The integer that a number stands for as a bit pattern, in two's complement if the kind has a
sign. -/
def IntKind.wrapped (k : IntKind) (n : Nat) : Int :=
  if k.signed ∧ 2 ^ (k.width - 1) ≤ n then n - 2 ^ k.width else n

/-- A number with its sign is in the range of a kind. A minus sign is in no range without a sign. -/
def IntKind.Admits (k : IntKind) (negative : Bool) (n : Nat) : Prop :=
  if k.signed then (if negative then n ≤ 2 ^ (k.width - 1) else n < 2 ^ (k.width - 1))
  else negative = false ∧ n < 2 ^ k.width

namespace Numeral

/-- A run of digits in lower case, and the number it spells. -/
inductive Digits (base : Nat) : List Char → Nat → Prop where
  | nil : Digits base [] 0
  | snoc {cs : List Char} {n d : Nat} (h : Digits base cs n) (hd : d < base) :
      Digits base (cs ++ [d.digitChar]) (n * base + d)

/-- No digit of the base comes first. -/
def NoDigit (base : Nat) (cs : List Char) : Prop := ∀ d < base, cs.head? ≠ some d.digitChar

/-- A mark and the longest run of digits of a base after it spell a bit pattern of a kind. -/
inductive PatternText : List Char → IntKind → Nat → Prop where
  | hexadecimal {digits letters : List Char} {k : IntKind} {n : Nat} (hsome : digits ≠ [])
      (hdigits : Digits 16 digits n) (hend : NoDigit 16 letters) (hletters : letters ∈ k.letters) :
      PatternText ('0' :: 'x' :: (digits ++ letters)) k n
  | octal {digits letters : List Char} {k : IntKind} {n : Nat} (hsome : digits ≠ [])
      (hdigits : Digits 8 digits n) (hend : NoDigit 8 letters) (hletters : letters ∈ k.letters) :
      PatternText ('0' :: (digits ++ letters)) k n

/-- The signs in front of a number, with whether they make it negative. -/
def signs : List (List Char × Bool) := [([], false), (['+'], false), (['-'], true)]

/-- An optional sign and decimal digits spell an integer of a kind. -/
inductive IntegerText : List Char → IntKind → Bool → Nat → Prop where
  | mk {mark digits letters : List Char} {k : IntKind} {negative : Bool} {n : Nat}
      (hmark : (mark, negative) ∈ signs) (hsome : digits ≠ []) (hdigits : Digits 10 digits n)
      (hletters : letters ∈ k.letters) : IntegerText (mark ++ (digits ++ letters)) k negative n

/-! ## Digits in lower case

The reader takes the value of each digit, in either case. On a text in lower case every digit is
written in one way, so a run of digits can be turned into the text again. -/

theorem toLower_toLower (c : Char) : c.toLower.toLower = c.toLower := by
  by_cases h : c.val ≥ 'A'.val ∧ c.val ≤ 'Z'.val
  · have hall : ∀ n < 128, (Char.ofNat n).toLower.toLower = (Char.ofNat n).toLower := by decide
    have hlt : c.toNat < 128 := Nat.lt_of_le_of_lt h.2 (by decide)
    rw [← Char.ofNat_toNat c]
    exact hall c.toNat hlt
  · have hself : c.toLower = c := dif_neg h
    rw [hself, hself]

theorem toNat_lt_of_digit? {base d : Nat} {c : Char} (h : digit? base c = some d) :
    c.toNat < 128 := by
  obtain ⟨hvalue, -⟩ := Option.filter_eq_some_iff.mp h
  have hle {top : Char} (hrange : c ≤ top) (htop : top.toNat < 128) : c.toNat < 128 :=
    Nat.lt_of_le_of_lt hrange htop
  split at hvalue
  next hrange => exact hle hrange.2 (by decide)
  next =>
    split at hvalue
    next hrange => exact hle hrange.2 (by decide)
    next =>
      split at hvalue
      next hrange => exact hle hrange.2 (by decide)
      next => cases hvalue

/-- A digit in lower case is written in one way. -/
theorem digit?_eq_some_iff {base d : Nat} {c : Char} (hbase : base ≤ 16) (hlower : c.toLower = c) :
    digit? base c = some d ↔ d < base ∧ c = d.digitChar := by
  constructor
  · intro h
    obtain ⟨hvalue, hlt⟩ := Option.filter_eq_some_iff.mp h
    have hlt : d < base := by simpa using hlt
    have hd : digit? 16 c = some d :=
      Option.filter_eq_some_iff.mpr ⟨hvalue, decide_eq_true (by omega)⟩
    have hall : ∀ n < 128, (Char.ofNat n).toLower = Char.ofNat n →
        (digit? 16 (Char.ofNat n)).all fun d => Char.ofNat n = d.digitChar := by decide
    have hchar := hall c.toNat (toNat_lt_of_digit? h)
    rw [Char.ofNat_toNat, hd] at hchar
    exact ⟨hlt, by simpa using hchar hlower⟩
  · rintro ⟨hlt, rfl⟩
    have hall : ∀ d < 16, digit? 16 d.digitChar = some d := by decide
    obtain ⟨hvalue, -⟩ := Option.filter_eq_some_iff.mp (hall d (by omega))
    exact Option.filter_eq_some_iff.mpr ⟨hvalue, decide_eq_true hlt⟩

theorem digits_iff {base n : Nat} {cs : List Char} (hbase : base ≤ 16)
    (hlower : ∀ c ∈ cs, c.toLower = c) :
    Digits base cs n ↔ (∀ c ∈ cs, isDigit base c) ∧ ofDigits base cs = n := by
  constructor
  · intro h
    induction h with
    | nil => exact ⟨by simp, rfl⟩
    | @snoc cs n d _ hd ih =>
      obtain ⟨hcs, hc⟩ := List.forall_mem_append.mp hlower
      obtain ⟨hdigits, hvalue⟩ := ih hcs
      have hdigit := (digit?_eq_some_iff hbase (hc _ List.mem_cons_self)).mpr ⟨hd, rfl⟩
      refine ⟨List.forall_mem_append.mpr ⟨hdigits, ?_⟩, ?_⟩
      · rintro c hmem
        obtain rfl := List.mem_singleton.mp hmem
        exact Option.isSome_iff_exists.mpr ⟨d, hdigit⟩
      · rw [ofDigits_append, hvalue, ofDigits_singleton, hdigit]
        simp
  · rintro ⟨hdigits, rfl⟩
    induction cs using List.reverseRecOn with
    | nil => exact .nil
    | append_singleton cs c ih =>
      obtain ⟨hcs, hc⟩ := List.forall_mem_append.mp hlower
      obtain ⟨hfront, hlast⟩ := List.forall_mem_append.mp hdigits
      obtain ⟨d, hd⟩ := Option.isSome_iff_exists.mp (hlast c List.mem_cons_self)
      obtain ⟨hlt, rfl⟩ := (digit?_eq_some_iff hbase (hc c List.mem_cons_self)).mp hd
      rw [ofDigits_append, ofDigits_singleton, hd]
      simpa using Digits.snoc (ih hcs hfront) hlt

theorem noDigit_iff {base : Nat} {cs : List Char} (hbase : base ≤ 16)
    (hlower : ∀ c ∈ cs, c.toLower = c) : NoDigit base cs ↔ ¬ DigitNext base cs := by
  constructor
  · rintro hno ⟨c, hc, hdigit⟩
    obtain ⟨d, hd⟩ := Option.isSome_iff_exists.mp hdigit
    obtain ⟨hlt, rfl⟩ := (digit?_eq_some_iff hbase (hlower c (List.mem_of_mem_head? hc))).mp hd
    exact hno d hlt hc
  · intro hno d hlt hhead
    have hd := (digit?_eq_some_iff hbase (hlower _ (List.mem_of_mem_head? hhead))).mpr ⟨hlt, rfl⟩
    exact hno ⟨_, hhead, Option.isSome_iff_exists.mpr ⟨d, hd⟩⟩

/-! ## The letters of a kind

A suffix that asks for an integer has the letters of its kind. None of the letters is a digit, so
it is settled where the digits end. -/

/-- The mark of a hexadecimal pattern and the letters of a fraction: no integer has one of them. -/
def foreignLetters : List Char := ['x', 'f', 'd', 'm']

end Numeral

/-- The integer kind that a suffix asks for. -/
def Suffix.kind? : Suffix → Option IntKind
  | plain => some .int32
  | int k => some k
  | float _ => none

/-- The letters of a suffix are those of its kind, or a single letter if it asks for no integer. -/
theorem Suffix.letters_of_ofLetters? {letters : List Char} {suffix : Suffix}
    (h : ofLetters? letters = some suffix) :
    (∃ k, suffix.kind? = some k ∧ letters ∈ k.letters) ∨
      suffix.kind? = none ∧ ∃ c, letters = [c] ∧ c ∈ Numeral.foreignLetters := by
  unfold ofLetters? at h
  split at h
  all_goals cases h
  all_goals first | exact Or.inl ⟨_, rfl, by decide⟩ | exact Or.inr ⟨rfl, _, rfl, by decide⟩

theorem Suffix.asks_iff {letters : List Char} {k : IntKind} :
    (∃ suffix, ofLetters? letters = some suffix ∧ suffix.kind? = some k) ↔ letters ∈ k.letters := by
  constructor
  · rintro ⟨suffix, hletters, hkind⟩
    obtain ⟨k', hk', hmem⟩ | ⟨hnone, -⟩ := letters_of_ofLetters? hletters
    · obtain rfl : k' = k := Option.some.inj (hk'.symm.trans hkind)
      exact hmem
    · rw [hnone] at hkind
      cases hkind
  · intro h
    cases k <;> simp only [IntKind.letters, List.mem_cons, List.not_mem_nil, or_false] at h <;>
      rcases h with rfl | rfl <;> exact ⟨_, rfl, rfl⟩

theorem Suffix.letters_of_kind?_eq_none {letters : List Char} {suffix : Suffix}
    (h : ofLetters? letters = some suffix) (hkind : suffix.kind? = none) :
    ∃ c, letters = [c] ∧ c ∈ Numeral.foreignLetters := by
  obtain ⟨k, hk, -⟩ | ⟨-, hletters⟩ := letters_of_ofLetters? h
  · rw [hkind] at hk
    cases hk
  · exact hletters

namespace Numeral

/-- The letters of a kind are no digits. -/
theorem not_digitNext_letters {base : Nat} {letters : List Char} {k : IntKind}
    (hbase : base ≤ 10) (h : letters ∈ k.letters) : ¬ DigitNext base letters := by
  have hten : ¬ DigitNext 10 letters := by
    cases k <;> simp only [IntKind.letters, List.mem_cons, List.not_mem_nil, or_false] at h <;>
      rcases h with rfl | rfl <;>
      first | exact not_digitNext_nil | exact not_digitNext_cons (by decide)
  rintro ⟨c, hc, hdigit⟩
  exact hten ⟨c, hc, isDigit_mono hbase hdigit⟩

/-! ## The forms of a number inverted

The reader tries one form after the other. Each of these lemmas says which texts a form takes,
and that no text has two forms where that matters. -/

theorem digits?_eq_some_iff {base : Nat} {cs run rest : List Char} :
    digits? base cs = some (run, rest) ↔
      cs = run ++ rest ∧ run ≠ [] ∧ (∀ c ∈ run, isDigit base c) ∧ ¬ DigitNext base rest := by
  constructor
  · intro h
    rw [digits?] at h
    split at h
    next => cases h
    next hsome =>
      obtain ⟨rfl, rfl⟩ := Prod.mk.inj (Option.some.inj h)
      refine ⟨List.takeWhile_append_dropWhile.symm, by simpa using hsome,
        fun c hc => List.mem_takeWhile_imp hc, ?_⟩
      rintro ⟨c, hc, hdigit⟩
      have hstop := List.head?_dropWhile_not (isDigit base) cs
      rw [show (cs.dropWhile (isDigit base)).head? = some c from hc] at hstop
      simp [hdigit] at hstop
  · rintro ⟨rfl, hsome, hrun, hrest⟩
    exact digits?_append hrun hsome hrest

theorem pattern?_eq_some_iff {base : Nat} {cs : List Char} {numeral : Numeral} {suffix : Suffix} :
    pattern? base cs = some (numeral, suffix) ↔ ∃ run rest, digits? base cs = some (run, rest) ∧
      Suffix.ofLetters? rest = some suffix ∧ numeral = .pattern (ofDigits base run) := by
  simp only [pattern?, Option.bind_eq_bind, Option.bind_eq_some_iff, Option.pure_def,
    Option.some.injEq, Prod.mk.injEq, Prod.exists]
  constructor
  · rintro ⟨run, rest, hdigits, _, hsuffix, rfl, rfl⟩
    exact ⟨run, rest, hdigits, hsuffix, rfl⟩
  · rintro ⟨run, rest, hdigits, hsuffix, rfl⟩
    exact ⟨run, rest, hdigits, suffix, hsuffix, rfl, rfl⟩

theorem hexadecimal?_eq_some_iff {cs : List Char} {x : Numeral × Suffix} :
    hexadecimal? cs = some x ↔ ∃ rest, cs = '0' :: 'x' :: rest ∧ pattern? 16 rest = some x := by
  constructor
  · intro h
    unfold hexadecimal? at h
    split at h
    next rest => exact ⟨rest, rfl, h⟩
    next => cases h
  · rintro ⟨rest, rfl, h⟩
    exact h

theorem octal?_eq_some_iff {cs : List Char} {x : Numeral × Suffix} :
    octal? cs = some x ↔ ∃ rest, cs = '0' :: rest ∧ pattern? 8 rest = some x := by
  constructor
  · intro h
    unfold octal? at h
    split at h
    next rest => exact ⟨rest, rfl, h⟩
    next => cases h
  · rintro ⟨rest, rfl, h⟩
    exact h

/-- The mark `x` is no octal digit, so no text has both forms of a bit pattern. -/
theorem hexadecimal?_eq_none {cs : List Char} {x : Numeral × Suffix} (h : octal? cs = some x) :
    hexadecimal? cs = none := by
  obtain ⟨rest, rfl, hoctal⟩ := octal?_eq_some_iff.mp h
  obtain ⟨run, letters, hdigits, -, -⟩ := pattern?_eq_some_iff.mp hoctal
  obtain ⟨rfl, hsome, hrun, -⟩ := digits?_eq_some_iff.mp hdigits
  obtain ⟨c, run, rfl⟩ := List.exists_cons_of_ne_nil hsome
  have hx : c ≠ 'x' := by
    rintro rfl
    exact absurd (hrun 'x' List.mem_cons_self) (by decide)
  simp [hexadecimal?, hx]

/-- A text begins with a sign, which may be empty. -/
theorem exists_sign (cs : List Char) : ∃ mark, (mark, (sign cs).1) ∈ signs ∧
    cs = mark ++ (sign cs).2 := by
  unfold sign
  split
  · exact ⟨['-'], by simp [signs], rfl⟩
  · exact ⟨['+'], by simp [signs], rfl⟩
  · exact ⟨[], by simp [signs], rfl⟩

/-- The sign before a digit is taken off. -/
theorem sign_of_mem {mark rest : List Char} {negative : Bool} (hmark : (mark, negative) ∈ signs)
    (hdigit : DigitNext 10 rest) : sign (mark ++ rest) = (negative, rest) := by
  obtain ⟨c, hc, hdigit⟩ := hdigit
  obtain ⟨rest, rfl⟩ : ∃ tail, rest = c :: tail := by
    cases rest with
    | nil => cases hc
    | cons d tail => exact ⟨tail, by rw [show d = c by simpa using hc]⟩
  have hminus : c ≠ '-' := isDigit_ne hdigit (by decide)
  have hplus : c ≠ '+' := isDigit_ne hdigit (by decide)
  simp only [signs, List.mem_cons, Prod.mk.injEq, List.not_mem_nil, or_false] at hmark
  rcases hmark with ⟨rfl, rfl⟩ | ⟨rfl, rfl⟩ | ⟨rfl, rfl⟩
  · simp [sign, hminus, hplus]
  · rfl
  · rfl

theorem integer?_eq_some_iff {cs : List Char} {numeral : Numeral} {suffix : Suffix} :
    integer? cs = some (numeral, suffix) ↔ ∃ run rest, digits? 10 (sign cs).2 = some (run, rest) ∧
      Suffix.ofLetters? rest = some suffix ∧ numeral = .integer (sign cs).1 (ofDigits 10 run) := by
  simp only [integer?, Option.bind_eq_bind, Option.bind_eq_some_iff, Option.pure_def,
    Option.some.injEq, Prod.mk.injEq, Prod.exists]
  constructor
  · rintro ⟨run, rest, hdigits, _, hsuffix, rfl, rfl⟩
    exact ⟨run, rest, hdigits, hsuffix, rfl⟩
  · rintro ⟨run, rest, hdigits, hsuffix, rfl⟩
    exact ⟨run, rest, hdigits, suffix, hsuffix, rfl, rfl⟩

theorem fraction_of_fraction? {cs : List Char} {numeral : Numeral} {suffix : Suffix}
    (h : fraction? cs = some (numeral, suffix)) : ∃ negative d, numeral = .fraction negative d := by
  simp only [fraction?, Option.bind_eq_bind, Option.bind_eq_some_iff, Option.pure_def,
    Option.some.injEq, Prod.mk.injEq, Prod.exists] at h
  obtain ⟨whole, part, rest, -, power, rest, -, suffix, -, rfl, -⟩ := h
  exact ⟨_, _, rfl⟩

/-! ## What is read as an integer

The two relations on texts are what the forms take, with the letters of an integer kind behind
them. -/

variable {text : List Char} {k : IntKind} {negative : Bool} {n : Nat}

/-- Digits of a base and the letters of a kind, as they are read. -/
theorem pattern?_iff {base : Nat} {cs : List Char} (hbase : base ≤ 16)
    (hlower : ∀ c ∈ cs, c.toLower = c) :
    (∃ suffix, suffix.kind? = some k ∧ pattern? base cs = some (.pattern n, suffix)) ↔
      ∃ digits letters, cs = digits ++ letters ∧ digits ≠ [] ∧ Digits base digits n ∧
        NoDigit base letters ∧ letters ∈ k.letters := by
  constructor
  · rintro ⟨suffix, hkind, hpattern⟩
    obtain ⟨digits, letters, hdigits, hsuffix, hnumeral⟩ := pattern?_eq_some_iff.mp hpattern
    obtain ⟨rfl, hsome, hrun, hend⟩ := digits?_eq_some_iff.mp hdigits
    obtain ⟨hfront, hback⟩ := List.forall_mem_append.mp hlower
    refine ⟨digits, letters, rfl, hsome, (digits_iff hbase hfront).mpr ⟨hrun, ?_⟩,
      (noDigit_iff hbase hback).mpr hend, Suffix.asks_iff.mp ⟨suffix, hsuffix, hkind⟩⟩
    exact (Numeral.pattern.inj hnumeral).symm
  · rintro ⟨digits, letters, rfl, hsome, hdigits, hend, hletters⟩
    obtain ⟨hfront, hback⟩ := List.forall_mem_append.mp hlower
    obtain ⟨hrun, rfl⟩ := (digits_iff hbase hfront).mp hdigits
    obtain ⟨suffix, hsuffix, hkind⟩ := Suffix.asks_iff.mpr hletters
    have hnext := (noDigit_iff hbase hback).mp hend
    exact ⟨suffix, hkind, pattern?_eq_some_iff.mpr
      ⟨digits, letters, digits?_eq_some_iff.mpr ⟨rfl, hsome, hrun, hnext⟩, hsuffix, rfl⟩⟩

theorem patternText_iff (hlower : ∀ c ∈ text, c.toLower = c) :
    PatternText text k n ↔ ∃ suffix, suffix.kind? = some k ∧
      (hexadecimal? text = some (.pattern n, suffix) ∨
        octal? text = some (.pattern n, suffix)) := by
  constructor
  · intro h
    cases h with
    | @hexadecimal digits letters k n hsome hdigits hend hletters =>
      have htail : ∀ c ∈ digits ++ letters, c.toLower = c := fun c hc =>
        hlower c (List.mem_cons_of_mem _ (List.mem_cons_of_mem _ hc))
      obtain ⟨suffix, hkind, hpattern⟩ := (pattern?_iff (by decide) htail).mpr
        ⟨digits, letters, rfl, hsome, hdigits, hend, hletters⟩
      exact ⟨suffix, hkind, Or.inl (hexadecimal?_eq_some_iff.mpr ⟨_, rfl, hpattern⟩)⟩
    | @octal digits letters k n hsome hdigits hend hletters =>
      have htail : ∀ c ∈ digits ++ letters, c.toLower = c := fun c hc =>
        hlower c (List.mem_cons_of_mem _ hc)
      obtain ⟨suffix, hkind, hpattern⟩ := (pattern?_iff (by decide) htail).mpr
        ⟨digits, letters, rfl, hsome, hdigits, hend, hletters⟩
      exact ⟨suffix, hkind, Or.inr (octal?_eq_some_iff.mpr ⟨_, rfl, hpattern⟩)⟩
  · rintro ⟨suffix, hkind, h | h⟩
    · obtain ⟨rest, rfl, hpattern⟩ := hexadecimal?_eq_some_iff.mp h
      have htail : ∀ c ∈ rest, c.toLower = c := fun c hc =>
        hlower c (List.mem_cons_of_mem _ (List.mem_cons_of_mem _ hc))
      obtain ⟨digits, letters, rfl, hsome, hdigits, hend, hletters⟩ :=
        (pattern?_iff (by decide) htail).mp ⟨suffix, hkind, hpattern⟩
      exact .hexadecimal hsome hdigits hend hletters
    · obtain ⟨rest, rfl, hpattern⟩ := octal?_eq_some_iff.mp h
      have htail : ∀ c ∈ rest, c.toLower = c := fun c hc => hlower c (List.mem_cons_of_mem _ hc)
      obtain ⟨digits, letters, rfl, hsome, hdigits, hend, hletters⟩ :=
        (pattern?_iff (by decide) htail).mp ⟨suffix, hkind, hpattern⟩
      exact .octal hsome hdigits hend hletters

theorem integerText_iff (hlower : ∀ c ∈ text, c.toLower = c) :
    IntegerText text k negative n ↔ ∃ suffix, suffix.kind? = some k ∧
      integer? text = some (.integer negative n, suffix) := by
  constructor
  · rintro (@⟨mark, digits, letters, _, _, _, hmark, hsome, hdigits, hletters⟩)
    obtain ⟨-, hunsigned⟩ := List.forall_mem_append.mp hlower
    obtain ⟨hfront, -⟩ := List.forall_mem_append.mp hunsigned
    obtain ⟨hrun, rfl⟩ := (digits_iff (by decide) hfront).mp hdigits
    obtain ⟨suffix, hsuffix, hkind⟩ := Suffix.asks_iff.mpr hletters
    have hnext : DigitNext 10 (digits ++ letters) := by
      obtain ⟨c, cs, rfl⟩ := List.exists_cons_of_ne_nil hsome
      exact ⟨c, rfl, hrun c List.mem_cons_self⟩
    have hsign := sign_of_mem hmark hnext
    refine ⟨suffix, hkind, integer?_eq_some_iff.mpr ⟨digits, letters, ?_, hsuffix, by rw [hsign]⟩⟩
    rw [hsign]
    exact digits?_eq_some_iff.mpr ⟨rfl, hsome, hrun, not_digitNext_letters (by decide) hletters⟩
  · rintro ⟨suffix, hkind, h⟩
    obtain ⟨digits, letters, hdigits, hsuffix, hnumeral⟩ := integer?_eq_some_iff.mp h
    obtain ⟨rfl, rfl⟩ := Numeral.integer.inj hnumeral
    obtain ⟨hrest, hsome, hrun, -⟩ := digits?_eq_some_iff.mp hdigits
    obtain ⟨mark, hmark, htext⟩ := exists_sign text
    rw [hrest] at htext
    have hfront : ∀ c ∈ digits, c.toLower = c := fun c hc => hlower c (by
      rw [htext]
      exact List.mem_append_right _ (List.mem_append_left _ hc))
    have hback : letters ∈ k.letters := Suffix.asks_iff.mp ⟨suffix, hsuffix, hkind⟩
    have hinteger := IntegerText.mk hmark hsome
      ((digits_iff (by decide) hfront).mpr ⟨hrun, rfl⟩) hback
    rwa [← htext] at hinteger

/-! ## Values of integer kinds

A pattern is taken bit by bit, and an integer by its value, if it is in the range of its kind
(`admits_iff`). Both are read back from the bits as the integer that the token names. -/

theorem value?_pattern {suffix : Suffix} (h : suffix.kind? = some k) (n : Nat) :
    (Numeral.pattern n).value? suffix = (k.ofPattern? n).map (.int k) := by
  cases suffix <;> cases h <;> rfl

theorem value?_integer_of_kind {suffix : Suffix} (h : suffix.kind? = some k) (negative : Bool)
    (n : Nat) : (Numeral.integer negative n).value? suffix = signedInt? k negative n := by
  cases suffix <;> cases h <;> rfl

theorem width_pos (k : IntKind) : 0 < k.width := by cases k <;> decide

/-- A number that is read as an integer has the letters of its kind. -/
theorem kind?_of_value? {numeral : Numeral} {suffix : Suffix} {bits : BitVec k.width}
    (h : numeral.value? suffix = some (.int k bits)) : suffix.kind? = some k := by
  have hmap {k' : IntKind} {o : Option (BitVec k'.width)}
      (h : o.map (Value.int k') = some (.int k bits)) : k' = k := by
    obtain ⟨_, -, heq⟩ := Option.map_eq_some_iff.mp h
    cases heq
    rfl
  have hsigned {k' : IntKind} {negative : Bool} {n : Nat}
      (h : signedInt? k' negative n = some (.int k bits)) : k' = k := by
    rw [signedInt?] at h
    split at h
    · cases h
    · exact hmap h
  cases numeral <;> cases suffix <;> rw [Suffix.kind?]
  case pattern.plain => rw [hmap h]
  case pattern.int => rw [hmap h]
  case integer.plain => rw [hsigned h]
  case integer.int => rw [hsigned h]
  all_goals cases h

theorem toInt_ofNat (h : n < 2 ^ k.width) :
    k.toInt (BitVec.ofNat k.width n) = k.wrapped n := by
  have hbits : (BitVec.ofNat k.width n).toNat = n := by
    rw [BitVec.toNat_ofNat, Nat.mod_eq_of_lt h]
  have hhalf : 2 ^ k.width = 2 * 2 ^ (k.width - 1) :=
    (mul_pow_sub_one (Nat.ne_of_gt (width_pos k)) 2).symm
  rw [IntKind.toInt, IntKind.wrapped, BitVec.toInt_eq_toNat_cond, hbits]
  by_cases hsigned : k.signed = true
  · rw [if_pos hsigned]
    by_cases htop : 2 ^ (k.width - 1) ≤ n
    · rw [if_neg (by omega), if_pos ⟨hsigned, htop⟩]
      push_cast
      rfl
    · rw [if_pos (by omega), if_neg fun h => htop h.2]
  · rw [if_neg hsigned, if_neg fun h => hsigned h.1]

theorem toInt_ofInt {m : Int} (hlow : k.least ≤ m) (hhigh : m ≤ k.greatest) :
    k.toInt (BitVec.ofInt k.width m) = m := by
  rw [IntKind.least] at hlow
  rw [IntKind.greatest] at hhigh
  rw [IntKind.toInt]
  by_cases hsigned : k.signed = true
  · rw [if_pos hsigned] at hlow hhigh ⊢
    push_cast [Nat.pow_eq] at hlow hhigh
    exact BitVec.toInt_ofInt_eq_self (width_pos k) hlow (by omega)
  · rw [if_neg hsigned] at hlow hhigh ⊢
    push_cast [Nat.pow_eq] at hhigh
    have hmod : m % ((2 ^ k.width : Nat) : Int) = m :=
      Int.emod_eq_of_lt hlow (by push_cast; omega)
    rw [BitVec.toNat_ofInt, hmod, Int.toNat_of_nonneg hlow]

/-- The integer of a sign and a number. -/
def signedInt (negative : Bool) (n : Nat) : Int := if negative then -n else n

theorem admits_iff : k.Admits negative n ↔ (negative && !k.signed) = false ∧
    k.least ≤ signedInt negative n ∧ signedInt negative n ≤ k.greatest := by
  have hpos : 0 < 2 ^ k.width := Nat.two_pow_pos _
  have hpos' : 0 < 2 ^ (k.width - 1) := Nat.two_pow_pos _
  rw [IntKind.Admits, IntKind.least, IntKind.greatest, signedInt]
  push_cast [Nat.pow_eq]
  zify at hpos hpos'
  cases k.signed <;> cases negative
  case false.true => simp
  all_goals
    simp only [Bool.false_eq_true, if_true, if_false, Bool.not_true, Bool.not_false, Bool.and_true,
      Bool.and_false, true_and]
    zify
    omega

theorem signedInt?_of_admits (h : k.Admits negative n) :
    ∃ bits, signedInt? k negative n = some (.int k bits) ∧ k.toInt bits = signedInt negative n := by
  obtain ⟨hsign, hlow, hhigh⟩ := admits_iff.mp h
  refine ⟨BitVec.ofInt k.width (signedInt negative n), ?_, toInt_ofInt hlow hhigh⟩
  rw [signedInt?, if_neg (by rw [hsign]; decide), ← signedInt, IntKind.ofInt?, if_pos ⟨hlow, hhigh⟩]
  rfl

theorem signedInt?_of_not_admits (h : ¬ k.Admits negative n) : signedInt? k negative n = none := by
  rw [signedInt?]
  split
  next => rfl
  next hsign =>
    rw [← signedInt, IntKind.ofInt?, if_neg]
    · rfl
    · exact fun hrange => h (admits_iff.mpr ⟨by simpa using hsign, hrange⟩)

/-! ## Tokens

A keyword has no digit, while every integer has one, so a token that may be an integer goes to
the reader of numbers. -/

/-- No keyword has a digit. -/
theorem all_of_ofKeyword? {word : String} {v : Value} (h : Value.ofKeyword? word = some v) :
    word.toList.all fun c => !isDigit 10 c := by
  unfold Value.ofKeyword? at h
  split at h
  case h_13 => cases h
  all_goals decide

/-- A keyword is no integer. -/
theorem ofKeyword?_ne_int {word : String} {bits : BitVec k.width} :
    Value.ofKeyword? word ≠ some (.int k bits) := by
  unfold Value.ofKeyword?
  split <;> simp [Value.ofMagnitude]

theorem PatternText.exists_digit (h : PatternText text k n) : ∃ c ∈ text, isDigit 10 c := by
  cases h <;> exact ⟨'0', List.mem_cons_self, by decide⟩

theorem Digits.exists_of_mem {base : Nat} {cs : List Char} (h : Digits base cs n) {c : Char}
    (hc : c ∈ cs) : ∃ d < base, c = d.digitChar := by
  induction h with
  | nil => cases hc
  | @snoc cs n d _ hd ih =>
    rcases List.mem_append.mp hc with hc | hc
    · exact ih hc
    · exact ⟨d, hd, List.mem_singleton.mp hc⟩

theorem IntegerText.not_mem (h : IntegerText text k negative n) :
    ∀ c ∈ text, c ∉ foreignLetters := by
  obtain @⟨mark, digits, letters, _, _, _, hmark, -, hdigits, hletters⟩ := h
  have hsigns : ∀ x ∈ signs, ∀ c ∈ x.1, c ∉ foreignLetters := by simp [signs, foreignLetters]
  have hdigit : ∀ d < 10, d.digitChar ∉ foreignLetters := by decide
  have hkind : ∀ letters ∈ k.letters, ∀ c ∈ letters, c ∉ foreignLetters := by
    cases k <;> simp [IntKind.letters, foreignLetters]
  refine List.forall_mem_append.mpr ⟨hsigns _ hmark, List.forall_mem_append.mpr
    ⟨fun c hc => ?_, hkind _ hletters⟩⟩
  obtain ⟨d, hd, rfl⟩ := hdigits.exists_of_mem hc
  exact hdigit d hd

theorem IntegerText.exists_digit (h : IntegerText text k negative n) :
    ∃ c ∈ text, isDigit 10 c := by
  obtain @⟨mark, digits, letters, _, _, _, -, hsome, hdigits, -⟩ := h
  cases hdigits with
  | nil => exact absurd rfl hsome
  | @snoc cs n d _ hd =>
    exact ⟨d.digitChar, by simp, isDigit_digitChar hd⟩

/-- A text with the form of an integer is a pattern of an integer kind, or else an integer. -/
theorem split?_integerText (hlower : ∀ c ∈ text, c.toLower = c)
    (hpattern : ∀ k n, ¬ PatternText text k n) (h : IntegerText text k negative n) :
    ∃ suffix, suffix.kind? = some k ∧ split? text = some (.integer negative n, suffix) := by
  have hhex : hexadecimal? text = none := by
    refine Option.eq_none_iff_forall_ne_some.mpr fun x hx => ?_
    obtain ⟨rest, rfl, -⟩ := hexadecimal?_eq_some_iff.mp hx
    exact h.not_mem 'x' (by simp) (by decide)
  have hoctal : octal? text = none := by
    refine Option.eq_none_iff_forall_ne_some.mpr fun ⟨numeral, suffix⟩ hx => ?_
    obtain ⟨rest, rfl, hform⟩ := octal?_eq_some_iff.mp hx
    obtain ⟨run, letters, hdigits, hsuffix, rfl⟩ := pattern?_eq_some_iff.mp hform
    cases hkind : suffix.kind? with
    | some k => exact hpattern k _ ((patternText_iff hlower).mpr ⟨suffix, hkind, Or.inr hx⟩)
    | none =>
      obtain ⟨rfl, -⟩ := digits?_eq_some_iff.mp hdigits
      obtain ⟨c, rfl, hc⟩ := Suffix.letters_of_kind?_eq_none hsuffix hkind
      exact h.not_mem c (by simp) hc
  obtain ⟨suffix, hkind, hinteger⟩ := (integerText_iff hlower).mp h
  exact ⟨suffix, hkind, by rw [split?, hhex, hoctal, hinteger]; rfl⟩

theorem split?_patternText (hlower : ∀ c ∈ text, c.toLower = c) (h : PatternText text k n) :
    ∃ suffix, suffix.kind? = some k ∧ split? text = some (.pattern n, suffix) := by
  obtain ⟨suffix, hkind, hhex | hoctal⟩ := (patternText_iff hlower).mp h
  · exact ⟨suffix, hkind, by rw [split?, hhex]; rfl⟩
  · exact ⟨suffix, hkind, by rw [split?, hexadecimal?_eq_none hoctal, hoctal]; rfl⟩

/-- An integer is only read from these forms. -/
theorem forms_of_split? (hlower : ∀ c ∈ text, c.toLower = c) {numeral : Numeral} {suffix : Suffix}
    {bits : BitVec k.width} (hsplit : split? text = some (numeral, suffix))
    (hvalue : numeral.value? suffix = some (.int k bits)) :
    (∃ n, PatternText text k n) ∨ ∃ negative n, IntegerText text k negative n := by
  have hkind := kind?_of_value? hvalue
  rw [split?] at hsplit
  cases hhex : hexadecimal? text with
  | some x =>
    obtain rfl : x = (numeral, suffix) := by simpa [hhex] using hsplit
    obtain ⟨rest, -, hform⟩ := hexadecimal?_eq_some_iff.mp hhex
    obtain ⟨run, letters, -, -, rfl⟩ := pattern?_eq_some_iff.mp hform
    exact Or.inl ⟨_, (patternText_iff hlower).mpr ⟨suffix, hkind, Or.inl hhex⟩⟩
  | none =>
    cases hoctal : octal? text with
    | some x =>
      obtain rfl : x = (numeral, suffix) := by simpa [hhex, hoctal] using hsplit
      obtain ⟨rest, -, hform⟩ := octal?_eq_some_iff.mp hoctal
      obtain ⟨run, letters, -, -, rfl⟩ := pattern?_eq_some_iff.mp hform
      exact Or.inl ⟨_, (patternText_iff hlower).mpr ⟨suffix, hkind, Or.inr hoctal⟩⟩
    | none =>
      cases hinteger : integer? text with
      | some x =>
        obtain rfl : x = (numeral, suffix) := by simpa [hhex, hoctal, hinteger] using hsplit
        obtain ⟨run, letters, -, -, rfl⟩ := integer?_eq_some_iff.mp hinteger
        exact Or.inr ⟨_, _, (integerText_iff hlower).mpr ⟨suffix, hkind, hinteger⟩⟩
      | none =>
        -- A fraction is left, which is no integer whatever its letters are.
        have hfraction : fraction? text = some (numeral, suffix) := by
          simpa [hhex, hoctal, hinteger] using hsplit
        obtain ⟨negative, d, rfl⟩ := fraction_of_fraction? hfraction
        cases suffix <;> cases hvalue

end Numeral

namespace Value

open Numeral

theorem ofToken_of_digit {token : String} (h : ∃ c ∈ (asciiLower token).toList, isDigit 10 c) :
    ofToken token = (ofNumber? token).getD (.string token) := by
  have hword : ofWord? token = none := by
    by_contra hsome
    obtain ⟨v, hv⟩ := Option.ne_none_iff_exists'.mp hsome
    obtain ⟨c, hc, hdigit⟩ := h
    have hno := List.all_eq_true.mp (all_of_ofKeyword? hv) c hc
    rw [hdigit] at hno
    cases hno
  rw [ofToken, hword]
  rfl

theorem lower_asciiLower (token : String) : ∀ c ∈ (asciiLower token).toList, c.toLower = c := by
  rw [asciiLower, String.toList_ofList]
  intro c hc
  obtain ⟨c, -, rfl⟩ := List.mem_map.mp hc
  exact toLower_toLower c

/-- Integer literals are read exactly. A bit pattern that its width holds is read in two's
complement; any other integer is read as it stands if it is in the range of its kind; and what does
not fit is text. No other token is an integer. -/
theorem ofToken_exact (token : String) :
    let text := (asciiLower token).toList
    (∀ k n, PatternText text k n →
      (n < 2 ^ k.width → ∃ bits, ofToken token = .int k bits ∧ k.toInt bits = k.wrapped n) ∧
      (¬ n < 2 ^ k.width → ofToken token = .string token)) ∧
    (∀ k negative n, (∀ k n, ¬ PatternText text k n) → IntegerText text k negative n →
      (k.Admits negative n →
        ∃ bits, ofToken token = .int k bits ∧ k.toInt bits = signedInt negative n) ∧
      (¬ k.Admits negative n → ofToken token = .string token)) ∧
    ∀ k bits, ofToken token = .int k bits →
      (∃ n, PatternText text k n) ∨ ∃ negative n, IntegerText text k negative n := by
  intro text
  have hlower : ∀ c ∈ text, c.toLower = c := lower_asciiLower token
  refine ⟨fun k n h => ?_, fun k negative n hpattern h => ?_, fun k bits h => ?_⟩
  · obtain ⟨suffix, hkind, hsplit⟩ := split?_patternText hlower h
    have hnumber : ofNumber? token = (k.ofPattern? n).map (.int k) := by
      rw [← value?_pattern hkind n, ofNumber?, hsplit]
      rfl
    rw [ofToken_of_digit h.exists_digit, hnumber]
    refine ⟨fun hfits => ⟨BitVec.ofNat k.width n, ?_, toInt_ofNat hfits⟩, fun hlarge => ?_⟩
    · rw [IntKind.ofPattern?, Nat.pow_eq, if_pos hfits]
      rfl
    · rw [IntKind.ofPattern?, Nat.pow_eq, if_neg hlarge]
      rfl
  · obtain ⟨suffix, hkind, hsplit⟩ := split?_integerText hlower hpattern h
    have hnumber : ofNumber? token = signedInt? k negative n := by
      rw [← value?_integer_of_kind hkind negative n, ofNumber?, hsplit]
      rfl
    rw [ofToken_of_digit h.exists_digit, hnumber]
    refine ⟨fun hfits => ?_, fun hlarge => by rw [signedInt?_of_not_admits hlarge]; rfl⟩
    obtain ⟨bits, hbits, hvalue⟩ := signedInt?_of_admits hfits
    exact ⟨bits, by rw [hbits]; rfl, hvalue⟩
  · -- A word is no integer, so the value can only come from the reading as a number.
    have hnumber : ofNumber? token = some (.int k bits) := by
      rw [ofToken] at h
      cases hword : ofWord? token with
      | some v =>
        rw [hword] at h
        exact absurd (hword.trans (congrArg some h)) ofKeyword?_ne_int
      | none =>
        rw [hword] at h
        cases hnumber : ofNumber? token with
        | some v => rw [hnumber] at h; exact congrArg some h
        | none => rw [hnumber] at h; cases h
    rw [ofNumber?] at hnumber
    obtain ⟨⟨numeral, suffix⟩, hsplit, hvalue⟩ := Option.bind_eq_some_iff.mp hnumber
    exact forms_of_split? hlower hsplit hvalue

/-- A byte in two's complement, an integer one below the range of its kind, and one in it. -/
theorem ofToken_exact_bytes :
    (PatternText "0xffsb".toList .int8 255 ∧ 255 < 2 ^ IntKind.int8.width ∧
      ∃ bits, ofToken "0xFFsb" = .int .int8 bits ∧ IntKind.int8.toInt bits = -1) ∧
    ((∀ k n, ¬ PatternText "-129sb".toList k n) ∧ IntegerText "-129sb".toList .int8 true 129 ∧
      ¬ IntKind.int8.Admits true 129 ∧ ofToken "-129SB" = .string "-129SB") ∧
    (ofToken "-128SB" = .int .int8 0x80#8 ∧ ((∃ n, PatternText "-128sb".toList .int8 n) ∨
      ∃ negative n, IntegerText "-128sb".toList .int8 negative n)) := by
  have hhex : Digits 16 ['f', 'f'] 255 :=
    (digits_iff (by decide) (by simp)).mpr ⟨List.all_eq_true.mp (by decide), by decide⟩
  have hdecimal : Digits 10 ['1', '2', '9'] 129 :=
    (digits_iff (by decide) (by simp)).mpr ⟨List.all_eq_true.mp (by decide), by decide⟩
  have hend : NoDigit 16 ['s', 'b'] := by
    unfold NoDigit
    decide
  have hpattern : PatternText "0xffsb".toList .int8 255 :=
    .hexadecimal (List.cons_ne_nil _ _) hhex hend (by decide)
  have hinteger : IntegerText "-129sb".toList .int8 true 129 :=
    @IntegerText.mk ['-'] ['1', '2', '9'] ['s', 'b'] .int8 true 129 (by decide) (by decide)
      hdecimal (by decide)
  have hnone : ∀ k n, ¬ PatternText "-129sb".toList k n := by
    intro k n h
    have hhead : "-129sb".toList.head? = some '0' := by
      generalize "-129sb".toList = text at h
      cases h <;> rfl
    revert hhead
    decide
  have hrange : ¬ IntKind.int8.Admits true 129 := by
    unfold IntKind.Admits
    decide
  have hread : ofToken "-128SB" = .int .int8 0x80#8 := by decide +kernel
  exact ⟨⟨hpattern, by decide, ((ofToken_exact "0xFFsb").1 _ _ hpattern).1 (by decide)⟩,
    ⟨hnone, hinteger, hrange, ((ofToken_exact "-129SB").2.1 _ _ _ hnone hinteger).2 hrange⟩,
    hread, (ofToken_exact "-128SB").2.2 _ _ hread⟩

end Value

end SexprAsm
