import SexprAsm.Highlight
import SexprAsm.Proofs.Reader.Faults
import SexprAsm.Proofs.Text.Cut

/-!
# Highlighting loses nothing

A line is cut by lengths in bytes, and every length is that of a front of what is left, so each cut
falls between two characters and takes something away (`firstSpan_front`); the rounds suffice since
each takes a character (`spansWithin_of_length_le`).

A quoted text ends for the highlighter where it ends for the reader. The highlighter keeps one flag,
the reader its escapes. Both agree on the flag: the reader stands right after a backslash that
escapes (`step_inside`), and no digit of an escape is a quote or a backslash.

Main statement: `spans_lossless`.
-/

namespace SexprAsm

open Text Grammar

/-! ## The reader inside of a quoted head

Highlighting looks for the end of a quoted text by itself: only an unescaped quote is one. Here
is what the reader does there: it goes on inside for every other character (`step_inside`), or
refuses an escape that names no character. -/

namespace Reader

/-- The reader stands before a head: no comment goes on, and no token is pending. -/
structure State.AtHead (s : State) : Prop where
  mode : s.mode = .head
  inComment : s.inComment = false
  start : s.start = none

/-- The reader takes characters, and stands inside of a quoted head after each of them. -/
inductive Stays (quote : Char) : State → Nat → List Char → State → Prop where
  | nil {s : State} {offset : Nat} : Stays quote s offset [] s
  | cons {s s' e : State} {offset : Nat} {c : Char} {cs : List Char}
      (hstep : s.step offset c = .ok s') (hinside : InQuoted s' quote)
      (h : Stays quote s' (offset + c.utf8Size) cs e) : Stays quote s offset (c :: cs) e

/-- With the last of some characters, its closing quote, the reader leaves a quoted head. -/
def Closes (quote : Char) (s : State) (offset : Nat) (taken : List Char) : Prop :=
  ∃ inner e e', taken = inner ++ [quote] ∧ Stays quote s offset inner e ∧
    e.step (endOffset offset inner) quote = .ok e' ∧ e'.mode = .afterQuoted

/-- Inside of a quoted head the reader meets an escape that names no character. -/
def MeetsInvalid (quote : Char) (s : State) (offset : Nat) (cs : List Char) : Prop :=
  ∃ inner c rest e value place, cs = inner ++ c :: rest ∧ Stays quote s offset inner e ∧
    e.step (endOffset offset inner) c = .error ⟨.invalidCodePoint value, place⟩

variable {quote c : Char} {s s' : State} {offset : Nat} {cs : List Char}

theorem Closes.cons (hstep : s.step offset c = .ok s') (hinside : InQuoted s' quote)
    (h : Closes quote s' (offset + c.utf8Size) cs) : Closes quote s offset (c :: cs) := by
  obtain ⟨inner, e, e', rfl, hstays, hlast, hmode⟩ := h
  exact ⟨c :: inner, e, e', rfl, .cons hstep hinside hstays, hlast, hmode⟩

theorem MeetsInvalid.cons (hstep : s.step offset c = .ok s') (hinside : InQuoted s' quote)
    (h : MeetsInvalid quote s' (offset + c.utf8Size) cs) :
    MeetsInvalid quote s offset (c :: cs) := by
  obtain ⟨inner, d, rest, e, value, place, rfl, hstays, herror⟩ := h
  exact ⟨c :: inner, d, rest, e, value, place, rfl, .cons hstep hinside hstays, herror⟩

theorem Stays.run {e : State} (h : Stays quote s offset cs e) : s.run offset cs = .ok e := by
  induction h with
  | nil => rfl
  | cons hstep _ _ ih => rw [run_cons_of_eq _ hstep, ih]

theorem MeetsInvalid.run (h : MeetsInvalid quote s offset cs) :
    ∃ value place, s.run offset cs = .error ⟨.invalidCodePoint value, place⟩ := by
  obtain ⟨inner, c, rest, e, value, place, rfl, hstays, herror⟩ := h
  refine ⟨value, place, ?_⟩
  rw [run_append_of_eq _ hstays.run, State.run, herror]
  rfl

/-- The reader stands right after a backslash that escapes the next character. -/
def Escaped (s : State) (quote : Char) : Prop := s.mode = .quoted quote .escape

/-- What a character does inside of a quoted head: it closes it, or the reader stays inside, and
stands after an escaping backslash if the character was one. -/
structure Inside (quote c : Char) (escaped : Prop) (s' : State) : Prop where
  closed : c = quote ∧ ¬ escaped → s'.mode = .afterQuoted
  inside : ¬ (c = quote ∧ ¬ escaped) → InQuoted s' quote
  escape : ¬ (c = quote ∧ ¬ escaped) → (Escaped s' quote ↔ c = '\\' ∧ ¬ escaped)

theorem inside_inPlain (hquote : IsQuote quote) (hcomment : s.inComment = false) {escaped : Prop}
    (hescaped : ¬ escaped) (c : Char) : Inside quote c escaped (s.inPlain quote c) := by
  have hslash : quote ≠ '\\' := ne_slash_of_isQuote hquote
  constructor
  · rintro ⟨rfl, -⟩
    rw [State.inPlain, if_neg hslash, if_pos rfl]
  · intro h
    exact inQuoted_inPlain (fun hc => h ⟨hc, hescaped⟩) hcomment
  · intro h
    have hne : c ≠ quote := fun hc => h ⟨hc, hescaped⟩
    rw [Escaped, State.inPlain, if_neg hne]
    split
    next hc => simp [hc, hescaped]
    next hc => simp [hc]

/-- A digit of an escape stays inside. -/
theorem inside_of_digit (hquote : IsQuote quote) {base : Nat} (hdigit : isDigit base c)
    {escaped : Prop} (hinside : InQuoted s' quote) (hescape : ¬ Escaped s' quote) :
    Inside quote c escaped s' := by
  have hne : c ≠ quote := by
    rintro rfl
    exact not_mem_digits_of_isQuote hquote (fun d hd => List.mem_singleton.mp hd ▸ hdigit)
      (List.mem_singleton_self c)
  have hslash : c ≠ '\\' := by
    rintro rfl
    simp [isDigit, digit?] at hdigit
  exact ⟨fun h => absurd h.1 hne, fun _ => hinside, fun _ => by simp [hescape, hslash]⟩

/-- What a step inside of a quoted head comes to: an escape names no character, or the reader takes
the character. -/
def Takes (quote c : Char) (escaped : Prop) (outcome : Except Fault State) : Prop :=
  (∃ value place, outcome = .error ⟨.invalidCodePoint value, place⟩) ∨
    ∃ s', outcome = .ok s' ∧ Inside quote c escaped s'

theorem addCodePoint_cases (s : State) (offset value : Nat) :
    s.addCodePoint offset value = .error ⟨.invalidCodePoint value, offset⟩ ∨
      s.addCodePoint offset value = .ok { s with text := Char.ofNat value :: s.text } := by
  rw [State.addCodePoint]
  split
  · exact Or.inr rfl
  · exact Or.inl rfl

/-- The character after a backslash is taken whatever it is. -/
theorem inside_inEscape (hcomment : s.inComment = false) {escaped : Prop} (hescaped : escaped)
    (c : Char) : Inside quote c escaped (s.inEscape quote c) := by
  refine ⟨fun h => absurd hescaped h.2, fun _ => ?_, fun _ => ?_⟩
  · rw [State.inEscape]
    split <;> exact ⟨⟨_, rfl⟩, hcomment⟩
  · rw [Escaped, State.inEscape]
    split <;> simp [hescaped]

theorem takes_octal (hquote : IsQuote quote) (hcomment : s.inComment = false) {escaped : Prop}
    (hescaped : ¬ escaped) (offset value count : Nat) (c : Char) :
    Takes quote c escaped (s.inQuoted offset quote (.octal value count) c) := by
  rw [State.inQuoted]
  cases hdigit : digit? 8 c with
  | some digit =>
    have hc : isDigit 8 c := Option.isSome_iff_exists.mpr ⟨digit, hdigit⟩
    by_cases hthree : count + 1 = 3
    · simp only [if_pos hthree]
      rcases addCodePoint_cases { s with mode := .quoted quote .plain } offset
        (value * 8 + digit) with h | h
      · exact Or.inl ⟨_, _, h⟩
      · exact Or.inr ⟨_, h, inside_of_digit hquote hc ⟨⟨_, rfl⟩, hcomment⟩ (by simp [Escaped])⟩
    · simp only [if_neg hthree]
      exact Or.inr ⟨_, rfl, inside_of_digit hquote hc ⟨⟨_, rfl⟩, hcomment⟩ (by simp [Escaped])⟩
  | none =>
    rcases addCodePoint_cases s offset value with h | h
    · exact Or.inl ⟨value, offset, by simp only [h]; rfl⟩
    · -- The escape ends before the character, which is then taken as in plain text.
      let added : State := { s with text := Char.ofNat value :: s.text }
      have hadded : added.inComment = false := hcomment
      exact Or.inr ⟨added.inPlain quote c, by simp only [h]; rfl,
        inside_inPlain hquote hadded hescaped c⟩

theorem takes_hex (hquote : IsQuote quote) (hcomment : s.inComment = false) {escaped : Prop}
    (hescaped : ¬ escaped) (offset : Nat) (letter : Char) (width : Nat) (digits : List Char)
    (c : Char) : Takes quote c escaped (s.inQuoted offset quote (.hex letter width digits) c) := by
  rw [State.inQuoted]
  by_cases hc : isDigit 16 c
  · rw [if_pos hc]
    by_cases hfull : (digits ++ [c]).length = width
    · simp only [if_pos hfull]
      rcases addCodePoint_cases { s with mode := .quoted quote .plain } offset
        (ofDigits 16 (digits ++ [c])) with h | h
      · exact Or.inl ⟨_, _, h⟩
      · exact Or.inr ⟨_, h, inside_of_digit hquote hc ⟨⟨_, rfl⟩, hcomment⟩ (by simp [Escaped])⟩
    · simp only [if_neg hfull]
      exact Or.inr ⟨_, rfl, inside_of_digit hquote hc ⟨⟨_, rfl⟩, hcomment⟩ (by simp [Escaped])⟩
  · -- The escape is cut short before the character.
    let added : State := { s with text := digits.reverse ++ letter :: s.text }
    have hadded : added.inComment = false := hcomment
    rw [if_neg hc]
    exact Or.inr ⟨added.inPlain quote c, rfl, inside_inPlain hquote hadded hescaped c⟩

/-- A step inside of a quoted head, whatever escape is going on. -/
theorem step_inside (hquote : IsQuote quote) (h : InQuoted s quote) (offset : Nat) (c : Char) :
    Takes quote c (Escaped s quote) (s.step offset c) := by
  obtain ⟨⟨mode, hmode⟩, hcomment⟩ := h
  have hescaped : Escaped s quote ↔ mode = .escape := by simp [Escaped, hmode]
  rw [step_quoted hmode hcomment]
  cases mode with
  | plain => exact Or.inr ⟨_, rfl, inside_inPlain hquote hcomment (by simp [hescaped]) c⟩
  | escape => exact Or.inr ⟨_, rfl, inside_inEscape hcomment (hescaped.mpr rfl) c⟩
  | octal value count =>
    exact takes_octal hquote hcomment (by simp [hescaped]) offset value count c
  | hex letter width digits =>
    exact takes_hex hquote hcomment (by simp [hescaped]) offset letter width digits c

end Reader

namespace Highlight

open Reader

/-! ## Where a quoted text ends

Both go over the same characters in step, with the same idea of whether the next one is escaped,
by induction on the rest of the line. -/

theorem quotedEnd_front (quote : Char) (offset : Nat) (escaped : Bool) (cs : List Char) :
    ∃ front rest, cs = front ++ rest ∧
      quotedEnd quote offset escaped cs = offset + byteLength front := by
  induction cs generalizing offset escaped with
  | nil => exact ⟨[], [], rfl, rfl⟩
  | cons c cs ih =>
    have hgo (escaped : Bool) : ∃ front rest, c :: cs = front ++ rest ∧
        quotedEnd quote (offset + c.utf8Size) escaped cs = offset + byteLength front := by
      obtain ⟨front, rest, rfl, hend⟩ := ih (offset + c.utf8Size) escaped
      exact ⟨c :: front, rest, rfl, by rw [hend, byteLength_cons, Nat.add_assoc]⟩
    rw [quotedEnd]
    split
    · exact hgo true
    · split
      · exact ⟨[c], cs, rfl, by rw [byteLength_cons]; rfl⟩
      · exact hgo false

variable {quote : Char} {s : State} {cs : List Char}

/-- From inside of a quoted head both go on to the same place. -/
theorem quotedEnd_agrees (hquote : IsQuote quote) (h : InQuoted s quote) {escaped : Bool}
    (hescaped : escaped = true ↔ Escaped s quote) (offset passed : Nat) (cs : List Char) :
    MeetsInvalid quote s offset cs ∨
    (∃ taken rest, cs = taken ++ rest ∧ Closes quote s offset taken ∧
      quotedEnd quote passed escaped cs = passed + byteLength taken) ∨
    (∃ e, Stays quote s offset cs e) ∧
      quotedEnd quote passed escaped cs = passed + byteLength cs := by
  induction cs generalizing s offset passed escaped with
  | nil => exact Or.inr (Or.inr ⟨⟨s, .nil⟩, rfl⟩)
  | cons c cs ih =>
    rcases step_inside hquote h offset c with ⟨value, place, herror⟩ | ⟨s', hstep, hstep'⟩
    · exact Or.inl ⟨[], c, cs, s, value, place, rfl, .nil, herror⟩
    by_cases hclose : c = quote ∧ ¬ Escaped s quote
    · -- Both end here.
      obtain ⟨rfl, hnot⟩ := hclose
      have hflag : escaped = false := by simpa [hnot] using hescaped
      have hcloses : Closes c s offset [c] :=
        ⟨[], s, s', rfl, .nil, hstep, hstep'.closed ⟨rfl, hnot⟩⟩
      refine Or.inr (Or.inl ⟨[c], cs, rfl, hcloses, ?_⟩)
      have hslash : c ≠ '\\' := ne_slash_of_isQuote hquote
      simp [quotedEnd, hflag, hslash, byteLength]
    · have hinside := hstep'.inside hclose
      -- The flag after the character.
      obtain ⟨escaped', hescaped', hend⟩ : ∃ escaped' : Bool, (escaped' = true ↔ Escaped s' quote) ∧
          quotedEnd quote passed escaped (c :: cs) =
            quotedEnd quote (passed + c.utf8Size) escaped' cs := by
        refine ⟨decide (c = '\\' ∧ ¬ escaped = true), ?_, ?_⟩
        · rw [hstep'.escape hclose, ← hescaped, decide_eq_true_iff]
        · rw [← hescaped] at hclose
          by_cases hslash : c = '\\' ∧ ¬ escaped = true
          · simp [quotedEnd, hslash]
          · have hslash' : ¬ (c = '\\' ∧ (!escaped) = true) := by simpa using hslash
            have hclose' : ¬ (c = quote ∧ (!escaped) = true) := by simpa using hclose
            rw [quotedEnd, if_neg hslash', if_neg hclose', decide_eq_false hslash]
      rcases ih hinside hescaped' (offset + c.utf8Size) (passed + c.utf8Size) with
        h | ⟨taken, rest, rfl, hcloses, htaken⟩ | ⟨⟨e, hstays⟩, hall⟩
      · exact Or.inl (h.cons hstep hinside)
      · refine Or.inr (Or.inl ⟨c :: taken, rest, rfl, hcloses.cons hstep hinside, ?_⟩)
        rw [hend, htaken, byteLength_cons, Nat.add_assoc]
      · refine Or.inr (Or.inr ⟨⟨e, .cons hstep hinside hstays⟩, ?_⟩)
        rw [hend, hall, byteLength_cons, Nat.add_assoc]

/-- The opening quote leads the reader into a quoted head. -/
theorem step_quote (hquote : IsQuote quote) (hs : s.AtHead) (offset : Nat) :
    ∃ s', s.step offset quote = .ok s' ∧ InQuoted s' quote ∧ ¬ Escaped s' quote := by
  refine ⟨{ s with mode := .quoted quote .plain, text := [], start := some offset }, ?_,
    ⟨⟨_, rfl⟩, hs.inComment⟩, by simp [Escaped]⟩
  have hstart : s.start.isSome = false := by rw [hs.start]; rfl
  rw [State.step, if_neg (by simp [hs.inComment]), hs.mode]
  rcases hquote with rfl | rfl <;> simp [State.inHead, hstart]

/-! ## Spans

Each span is a front of what is left and not empty, so as many rounds as there are characters use
up the line. -/

/-- The first span is a front of the line, which is not empty. -/
theorem firstSpan_front (c : Char) (cs : List Char) :
    ∃ front rest, c :: cs = front ++ rest ∧ front ≠ [] ∧
      (firstSpan c cs).2 = byteLength front := by
  rw [firstSpan]
  by_cases hcomment : c = ';'
  · rw [if_pos hcomment]
    exact ⟨c :: cs, [], by simp, by simp, rfl⟩
  rw [if_neg hcomment]
  by_cases hquote : c = '"' ∨ c = '\''
  · rw [if_pos hquote]
    obtain ⟨front, rest, hcs, hend⟩ := quotedEnd_front c c.utf8Size false cs
    refine ⟨c :: front, rest, by rw [hcs]; rfl, by simp, ?_⟩
    rw [byteLength_cons]
    exact hend
  rw [if_neg hquote]
  by_cases hmark : c = '(' ∨ c = ')' ∨ c = ','
  · rw [if_pos hmark]
    refine ⟨[c], cs, rfl, by simp, ?_⟩
    rcases hmark with rfl | rfl | rfl <;> rfl
  rw [if_neg hmark]
  by_cases hslash : c = '\\'
  · rw [if_pos hslash]
    subst hslash
    cases cs with
    | nil => exact ⟨['\\'], [], rfl, by simp, rfl⟩
    | cons d cs =>
      refine ⟨['\\', d], cs, rfl, by simp, ?_⟩
      rw [byteLength_cons, byteLength_cons]
      rfl
  rw [if_neg hslash]
  by_cases hblank : isIgnorable c = true
  · rw [if_pos hblank]
    exact ⟨[c], cs, rfl, by simp, by rw [byteLength_cons]; rfl⟩
  rw [if_neg hblank]
  -- A token begins with a character that ends none.
  refine ⟨_, _, List.takeWhile_append_dropWhile.symm, ?_, rfl⟩
  have hstructural : structural.contains c = false := by
    simp only [not_or] at hquote hmark
    simp [structural, hcomment, hquote, hmark, hslash]
  rw [List.takeWhile_cons, hstructural]
  simp

/-- As many rounds as there are characters use up a line. -/
theorem spansWithin_of_length_le (rounds : Nat) (cs : List Char) (h : cs.length ≤ rounds) :
    ∃ spans, spansWithin rounds cs = some spans ∧ (∀ span ∈ spans, span.text ≠ []) ∧
      spans.flatMap Span.text = cs := by
  induction rounds generalizing cs with
  | zero =>
    obtain rfl := List.eq_nil_of_length_eq_zero (Nat.le_zero.mp h)
    exact ⟨[], rfl, by simp, rfl⟩
  | succ rounds ih =>
    cases cs with
    | nil => exact ⟨[], rfl, by simp, rfl⟩
    | cons c cs =>
      obtain ⟨front, rest, hcs, hsome, hlength⟩ := firstSpan_front c cs
      have hshorter : rest.length ≤ rounds := by
        have hsplit := congrArg List.length hcs
        have hpos := List.length_pos_of_ne_nil hsome
        rw [List.length_append, List.length_cons] at hsplit
        rw [List.length_cons] at h
        omega
      obtain ⟨spans, hspans, hnonempty, hjoined⟩ := ih rest hshorter
      refine ⟨⟨(firstSpan c cs).1, front⟩ :: spans, ?_, ?_, ?_⟩
      · have hcut : cutAtByte? (c :: cs) (firstSpan c cs).2 = some (front, rest) := by
          rw [hlength, hcs, cutAtByte?_append]
        simp only [spansWithin, hcut, Option.bind_eq_bind, Option.bind_some, hspans]
        rfl
      · exact List.forall_mem_cons.mpr ⟨hsome, hnonempty⟩
      · rw [List.flatMap_cons, hjoined, hcs]

/-- Highlighting loses nothing and agrees with the reader on quoted texts. Every line is cut between
characters into spans that are not empty and make up the line. The length of a quoted text is what a
reader before a head takes up to its closing quote, or all of the text if the reader stays inside,
unless it meets an escape that names no character. -/
theorem spans_lossless :
    (∀ line, ∃ spans, spans? line = some spans ∧ (∀ span ∈ spans, span.text ≠ []) ∧
      spans.flatMap Span.text = line.toList) ∧
    ∀ (s : State) (offset : Nat) (quote : Char) (cs : List Char), s.AtHead → IsQuote quote →
      ¬ MeetsInvalid quote s offset (quote :: cs) →
      (∃ taken rest, quote :: cs = taken ++ rest ∧ Closes quote s offset taken ∧
        quotedLength quote (quote :: cs) = byteLength taken) ∨
      (∃ e, Stays quote s offset (quote :: cs) e) ∧
        quotedLength quote (quote :: cs) = byteLength (quote :: cs) := by
  refine ⟨fun line => spansWithin_of_length_le _ _ (Nat.le_refl _),
    fun s offset quote cs hs hquote hvalid => ?_⟩
  obtain ⟨s', hstep, hinside, hescaped⟩ := step_quote hquote hs offset
  have hflag : false = true ↔ Escaped s' quote := by simp [hescaped]
  rw [quotedLength, byteLength_cons]
  rcases quotedEnd_agrees hquote hinside hflag (offset + quote.utf8Size) quote.utf8Size cs with
    h | ⟨taken, rest, rfl, hcloses, htaken⟩ | ⟨⟨e, hstays⟩, hall⟩
  · exact absurd (h.cons hstep hinside) hvalid
  · refine Or.inl ⟨quote :: taken, rest, rfl, hcloses.cons hstep hinside, ?_⟩
    rw [htaken, byteLength_cons]
  · exact Or.inr ⟨⟨e, .cons hstep hinside hstays⟩, hall⟩

/-- An escaped quote, and an octal escape right before the closing quote. -/
theorem spans_lossless_escapes :
    (({} : State).AtHead ∧ IsQuote '\'' ∧ ¬ MeetsInvalid '\'' {} 0 "'é\\'\\12' ".toList) ∧
      ∃ taken rest, "'é\\'\\12' ".toList = taken ++ rest ∧ Closes '\'' {} 0 taken ∧
        quotedLength '\'' "'é\\'\\12' ".toList = byteLength taken := by
  have hhead : ({} : State).AtHead := ⟨rfl, rfl, rfl⟩
  have hvalid : ¬ MeetsInvalid '\'' {} 0 "'é\\'\\12' ".toList := by
    intro h
    obtain ⟨value, place, herror⟩ := h.run
    have hread : (State.run {} 0 "'é\\'\\12' ".toList).isOk = true := by decide +kernel
    rw [herror] at hread
    cases hread
  have hagrees := spans_lossless.2 {} 0 '\'' "é\\'\\12' ".toList hhead (Or.inr rfl) hvalid
  exact ⟨⟨hhead, Or.inr rfl, hvalid⟩, hagrees.resolve_right fun h => absurd h.2 (by decide +kernel)⟩

end Highlight

end SexprAsm
