import Mathlib.Algebra.Order.Ring.Nat
import Mathlib.Data.Bool.AllAny
import Mathlib.Data.List.TakeWhile
import Mathlib.Tactic.Common
import Mathlib.Tactic.Ring
import SexprAsm.Proofs.Reader.Grammar

/-!
# Runs of digits

The number that a run of digits spells, and the digits of a number in base ten: they are digits,
they spell the number, and only zero begins with a zero.
-/

namespace SexprAsm.Text

open Grammar

/-! ## The number that digits spell -/

variable {base : Nat}

theorem ofDigits_append (xs ys : List Char) :
    ofDigits base (xs ++ ys) = ofDigits base xs * base ^ ys.length + ofDigits base ys := by
  have hfold (ys : List Char) (n : Nat) :
      ys.foldl (fun n c => n * base + (digit? base c).getD 0) n =
        n * base ^ ys.length + ofDigits base ys := by
    induction ys generalizing n with
    | nil => simp [ofDigits]
    | cons y ys ih =>
      rw [ofDigits, List.foldl_cons, List.foldl_cons, ih, ih, List.length_cons, Nat.pow_succ]
      ring
  rw [ofDigits, List.foldl_append, hfold]
  rfl

theorem ofDigits_singleton (c : Char) : ofDigits base [c] = (digit? base c).getD 0 := by
  simp [ofDigits]

theorem ofDigits_zeros (n : Nat) : ofDigits base (List.replicate n '0') = 0 := by
  induction n with
  | zero => rfl
  | succ n ih =>
    have hzero : (digit? base '0').getD 0 = 0 := by
      have hvalue : digit? base '0' = (some 0).filter (· < base) := rfl
      rw [hvalue, Option.filter_some]
      split <;> rfl
    rw [List.replicate_succ, ← List.singleton_append, ofDigits_append, ih, ofDigits_singleton,
      hzero, Nat.zero_mul]

/-! ## The digits of a number -/

theorem digit?_digitChar {n : Nat} (h : n < 10) : digit? 10 n.digitChar = some n := by
  have hall : ∀ n < 10, digit? 10 n.digitChar = some n := by decide
  exact hall n h

theorem isDigit_digitChar {n : Nat} (h : n < 10) : isDigit 10 n.digitChar := by
  rw [isDigit, digit?_digitChar h]
  rfl

/-- The digits of a number, built up from the last one. -/
theorem toDigits_induction {motive : Nat → List Char → Prop}
    (digit : ∀ n < 10, motive n [n.digitChar])
    (more : ∀ n digits, 0 < n → motive n digits → ∀ d < 10,
      motive (n * 10 + d) (digits ++ [d.digitChar])) (n : Nat) :
    motive n (Nat.toDigits 10 n) := by
  induction n using Nat.strongRecOn with
  | _ n ih =>
    rw [Nat.toDigits_eq_if (by decide)]
    split
    next h => exact digit n h
    next h =>
      have hrec := more (n / 10) _ (by omega) (ih (n / 10) (by omega)) (n % 10) (by omega)
      rwa [Nat.div_add_mod'] at hrec

theorem isDigit_of_mem_toDigits (n : Nat) : ∀ c ∈ Nat.toDigits 10 n, isDigit 10 c := by
  induction n using toDigits_induction with
  | digit n h => simpa using isDigit_digitChar h
  | more n digits _ ih d hd =>
    intro c hc
    rcases List.mem_append.mp hc with hc | hc
    · exact ih c hc
    · rw [List.mem_singleton.mp hc]
      exact isDigit_digitChar hd

theorem ofDigits_toDigits (n : Nat) : ofDigits 10 (Nat.toDigits 10 n) = n := by
  induction n using toDigits_induction with
  | digit n h => rw [ofDigits_singleton, digit?_digitChar h, Option.getD_some]
  | more n digits _ ih d hd =>
    rw [ofDigits_append, ih, ofDigits_singleton, digit?_digitChar hd, Option.getD_some]
    rfl

/-- Digits without zeros in front: a first digit that is not zero, or a zero alone. -/
structure Unpadded (digits : List Char) : Prop where
  ne_nil : digits ≠ []
  isDigit : ∀ c ∈ digits, isDigit 10 c
  head : digits = ['0'] ∨ digits.head? ≠ some '0'

theorem head?_toDigits {n : Nat} (h : 0 < n) : (Nat.toDigits 10 n).head? ≠ some '0' := by
  have hhead : 0 < n → ∃ c rest, Nat.toDigits 10 n = c :: rest ∧ c ≠ '0' := by
    clear h
    induction n using toDigits_induction with
    | digit n hlt =>
      intro hpos
      exact ⟨_, _, rfl, fun hzero => by rw [Nat.digitChar_eq_zero] at hzero; omega⟩
    | more n digits hpos ih d hd =>
      obtain ⟨c, rest, rfl, hc⟩ := ih hpos
      exact fun _ => ⟨c, _, rfl, hc⟩
  obtain ⟨c, rest, hdigits, hc⟩ := hhead h
  simpa [hdigits] using hc

theorem unpadded_toDigits (n : Nat) : Unpadded (Nat.toDigits 10 n) := by
  refine ⟨Nat.toDigits_ne_nil, isDigit_of_mem_toDigits n, ?_⟩
  rcases Nat.eq_zero_or_pos n with rfl | hpos
  · exact Or.inl (Nat.toDigits_zero 10)
  · exact Or.inr (head?_toDigits hpos)

theorem mem_of_isDigit {c : Char} (h : isDigit 10 c) : c ∈ "0123456789".toList := by
  obtain ⟨n, hn⟩ := Option.isSome_iff_exists.mp h
  obtain ⟨hvalue, hlt⟩ := Option.filter_eq_some_iff.mp hn
  have hlt : n < 10 := by simpa using hlt
  have hall : ∀ n < 10, Char.ofNat (n + 48) ∈ "0123456789".toList := by decide
  split at hvalue
  next hrange =>
    have hle : 48 ≤ c.toNat := hrange.1
    have hc : n + 48 = c.toNat := by
      have := Option.some.inj hvalue
      change c.toNat - 48 = n at this
      omega
    have hmem := hall n hlt
    rwa [hc, Char.ofNat_toNat] at hmem
  next =>
    -- Letters stand for ten or more.
    split at hvalue
    · have := Option.some.inj hvalue
      omega
    · split at hvalue
      · have := Option.some.inj hvalue
        omega
      · cases hvalue

theorem isDigit_mono {base base' : Nat} (h : base ≤ base') {c : Char} (hc : isDigit base c) :
    isDigit base' c := by
  obtain ⟨n, hn⟩ := Option.isSome_iff_exists.mp hc
  obtain ⟨hvalue, hlt⟩ := Option.filter_eq_some_iff.mp hn
  have hlt : n < base := by simpa using hlt
  refine Option.isSome_iff_exists.mpr ⟨n, Option.filter_eq_some_iff.mpr ⟨hvalue, ?_⟩⟩
  simpa using Nat.lt_of_lt_of_le hlt h

/-! ## Taking a run of digits off a text -/

theorem takeWhile_digits {run rest : List Char} (hrun : ∀ c ∈ run, isDigit base c)
    (hrest : ¬ DigitNext base rest) :
    (run ++ rest).takeWhile (isDigit base) = run ∧
      (run ++ rest).dropWhile (isDigit base) = rest := by
  have hstop : rest.takeWhile (isDigit base) = [] ∧ rest.dropWhile (isDigit base) = rest := by
    cases rest with
    | nil => exact ⟨rfl, rfl⟩
    | cons c rest =>
      have hc : isDigit base c = false := by
        rw [Bool.eq_false_iff]
        exact fun h => hrest ⟨c, rfl, h⟩
      simp [hc]
  rw [List.takeWhile_append_of_pos hrun, List.dropWhile_append_of_pos hrun, hstop.1, hstop.2,
    List.append_nil]
  exact ⟨rfl, rfl⟩

end SexprAsm.Text
