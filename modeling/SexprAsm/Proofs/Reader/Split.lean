import Mathlib.Tactic.Common
import SexprAsm.Proofs.Reader.Grammar

/-!
# Splitting a source text along the grammar

Every text begins with a bare text, a gap, a run of digits or a piece of a quoted head, if only an
empty one. Each lemma takes off the longest such part and says what can come next. Nothing here
is about the reader.
-/

namespace SexprAsm.Grammar

open Text

/-- A text up to its first line end, or all of it. -/
theorem line_cases (cs : List Char) :
    '\n' ∉ cs ∨ ∃ line rest, cs = line ++ '\n' :: rest ∧ '\n' ∉ line := by
  by_cases h : '\n' ∈ cs
  · obtain ⟨line, rest, hcs, hline⟩ := List.eq_append_cons_of_mem h
    exact Or.inr ⟨line, rest, hcs, hline⟩
  · exact Or.inl h

/-- A comment that the source ends before its line does. -/
def OpenComment (src : List Char) : Prop := ∃ line, src = ';' :: line ∧ '\n' ∉ line

/-- What may follow a head: the end, a delimiter, or a comment that does not end. -/
inductive HeadStop : List Char → Prop where
  | nil : HeadStop []
  | delimiter {c : Char} (rest : List Char) (hc : c = '(' ∨ c = ',' ∨ c = ')') : HeadStop (c :: rest)
  | comment {src : List Char} (h : OpenComment src) : HeadStop src

/-- What stops the text of a bare head: what may follow a head, a quote, or a backslash with
nothing after it. -/
inductive BareStop : List Char → Prop where
  | head {src : List Char} (h : HeadStop src) : BareStop src
  | quote {c : Char} (rest : List Char) (hc : IsQuote c) : BareStop (c :: rest)
  | slash : BareStop ['\\']

/-- Every text begins with the text of a bare head, up to something that stops it. -/
theorem exists_bare (cs : List Char) :
    ∃ src text rest, cs = src ++ rest ∧ Bare src text ∧ BareStop rest := by
  induction hn : cs.length using Nat.strongRecOn generalizing cs with
  | _ n ih =>
    subst hn
    cases cs with
    | nil => exact ⟨[], [], [], rfl, .nil, .head .nil⟩
    | cons c cs =>
      have ih' (ds : List Char) (h : ds.length < (c :: cs).length) := ih ds.length h ds rfl
      by_cases hs : c ∈ structural
      · simp only [structural, List.mem_cons, List.not_mem_nil, or_false] at hs
        rcases hs with rfl | rfl | rfl | rfl | rfl | rfl | rfl
        · exact ⟨[], [], _, rfl, .nil, .head (.delimiter cs (Or.inl rfl))⟩
        · exact ⟨[], [], _, rfl, .nil, .head (.delimiter cs (Or.inr (Or.inr rfl)))⟩
        · exact ⟨[], [], _, rfl, .nil, .head (.delimiter cs (Or.inr (Or.inl rfl)))⟩
        · rcases line_cases cs with hline | ⟨line, rest, rfl, hline⟩
          · exact ⟨[], [], _, rfl, .nil, .head (.comment ⟨cs, rfl, hline⟩)⟩
          · obtain ⟨src, text, rest', rfl, hbare, hstop⟩ := ih' rest (by simp; omega)
            exact ⟨';' :: line ++ '\n' :: src, text, rest', by simp, .comment hline hbare, hstop⟩
        · exact ⟨[], [], _, rfl, .nil, .quote cs (Or.inl rfl)⟩
        · exact ⟨[], [], _, rfl, .nil, .quote cs (Or.inr rfl)⟩
        · cases cs with
          | nil => exact ⟨[], [], _, rfl, .nil, .slash⟩
          | cons d cs =>
            obtain ⟨src, text, rest, rfl, hbare, hstop⟩ :=
              ih' cs (by simp only [List.length_cons]; omega)
            exact ⟨'\\' :: d :: src, d :: text, rest, rfl, .escaped hbare, hstop⟩
      · obtain ⟨src, text, rest, rfl, hbare, hstop⟩ := ih' cs (by simp)
        exact ⟨c :: src, c :: text, rest, rfl, .plain hs hbare, hstop⟩

/-- What stops a gap. -/
inductive GapStop : List Char → Prop where
  | nil : GapStop []
  | char {c : Char} (rest : List Char) (hc : ¬ isIgnorable c) (hcomment : c ≠ ';') :
      GapStop (c :: rest)
  | comment {src : List Char} (h : OpenComment src) : GapStop src

/-- Every text begins with a gap, up to something that stops it. -/
theorem exists_gap (cs : List Char) : ∃ src rest, cs = src ++ rest ∧ Gap src ∧ GapStop rest := by
  induction hn : cs.length using Nat.strongRecOn generalizing cs with
  | _ n ih =>
    subst hn
    cases cs with
    | nil => exact ⟨[], [], rfl, .nil, .nil⟩
    | cons c cs =>
      have ih' (ds : List Char) (h : ds.length < (c :: cs).length) := ih ds.length h ds rfl
      by_cases hc : isIgnorable c
      · obtain ⟨src, rest, rfl, hgap, hstop⟩ := ih' cs (by simp)
        exact ⟨c :: src, rest, rfl, .blank hc hgap, hstop⟩
      · by_cases hsemi : c = ';'
        · subst hsemi
          rcases line_cases cs with hline | ⟨line, rest, rfl, hline⟩
          · exact ⟨[], _, rfl, .nil, .comment ⟨cs, rfl, hline⟩⟩
          · obtain ⟨src, rest', rfl, hgap, hstop⟩ := ih' rest (by simp; omega)
            exact ⟨';' :: line ++ '\n' :: src, rest', by simp, .comment hline hgap, hstop⟩
        · exact ⟨[], _, rfl, .nil, .char cs hc hsemi⟩

/-- At most `limit` digits, with more behind them only if the limit is reached. -/
theorem exists_digits (base limit : Nat) (cs : List Char) :
    ∃ digits rest, cs = digits ++ rest ∧ digits.length ≤ limit ∧ (∀ c ∈ digits, isDigit base c) ∧
      (digits.length = limit ∨ ¬ DigitNext base rest) := by
  induction limit generalizing cs with
  | zero => exact ⟨[], cs, rfl, Nat.le_refl _, by simp, Or.inl rfl⟩
  | succ limit ih =>
    cases cs with
    | nil => exact ⟨[], [], rfl, by simp, by simp, Or.inr (by rintro ⟨c, hc, -⟩; cases hc)⟩
    | cons c cs =>
      by_cases hc : isDigit base c
      · obtain ⟨digits, rest, rfl, hlen, hdigits, hend⟩ := ih cs
        refine ⟨c :: digits, rest, rfl, by simpa using hlen, ?_, ?_⟩
        · exact List.forall_mem_cons.mpr ⟨hc, hdigits⟩
        · exact hend.imp_left fun h => by simpa using h
      · refine ⟨[], c :: cs, rfl, by simp, by simp, Or.inr ?_⟩
        rintro ⟨d, hd, hdigit⟩
        obtain rfl : c = d := by simpa using hd
        exact hc hdigit

/-- Inside a quoted head comes a piece, unless a backslash ends the source or an escape names no
character. -/
theorem piece_cases {quote c : Char} (hc : c ≠ quote) (cs : List Char) :
    (∃ piece rest chars, c :: cs = piece ++ rest ∧ rest.length < (c :: cs).length ∧
      Piece quote rest piece chars) ∨
    (c = '\\' ∧ cs = []) ∨
    ∃ letter width digits rest, c :: cs = '\\' :: letter :: (digits ++ rest) ∧
      hexEscapeWidth? letter = some width ∧ digits.length = width ∧
      (∀ d ∈ digits, isDigit 16 d) ∧ ¬ (ofDigits 16 digits).isValidChar := by
  -- The reader asks in this order: a name for a character, an octal digit, a letter for digits.
  by_cases hslash : c = '\\'
  swap
  · exact Or.inl ⟨[c], cs, [c], rfl, by simp, .plain hc hslash⟩
  subst hslash
  cases cs with
  | nil => exact Or.inr (Or.inl ⟨rfl, rfl⟩)
  | cons d cs =>
    cases hnamed : namedEscape? d with
    | some control =>
      exact Or.inl ⟨['\\', d], cs, [control], rfl, by simp only [List.length_cons]; omega,
        .named hnamed⟩
    | none =>
      by_cases hoctal : isDigit 8 d
      · obtain ⟨digits, rest, rfl, hlen, hdigits, hend⟩ := exists_digits 8 2 cs
        refine Or.inl ⟨'\\' :: d :: digits, rest, _, rfl, by simp; omega, .octal (by simp) ?_ ?_ ?_⟩
        · rw [List.length_cons]
          omega
        · exact List.forall_mem_cons.mpr ⟨hoctal, hdigits⟩
        · exact hend.imp_left fun h => by simpa using h
      · cases hhex : hexEscapeWidth? d with
        | none =>
          exact Or.inl ⟨['\\', d], cs, [d], rfl, by simp only [List.length_cons]; omega,
            .other hnamed hoctal hhex⟩
        | some width =>
          obtain ⟨digits, rest, rfl, hlen, hdigits, hend⟩ := exists_digits 16 width cs
          by_cases hfull : digits.length = width
          · by_cases hvalid : (ofDigits 16 digits).isValidChar
            · exact Or.inl ⟨'\\' :: d :: digits, rest, _, rfl, by simp; omega,
                .hex hhex hfull hdigits hvalid⟩
            · exact Or.inr (Or.inr ⟨d, width, digits, rest, rfl, hhex, hfull, hdigits, hvalid⟩)
          · exact Or.inl ⟨'\\' :: d :: digits, rest, _, rfl, by simp; omega,
              .cutHex hhex (by omega) hdigits (hend.resolve_left hfull)⟩

end SexprAsm.Grammar
