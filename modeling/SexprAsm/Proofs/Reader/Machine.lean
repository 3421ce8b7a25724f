import Mathlib.Algebra.Order.Ring.Nat
import Mathlib.Data.String.Basic
import Mathlib.Tactic.Common
import SexprAsm.Proofs.Reader.Grammar
import SexprAsm.Tree.Reader

/-!
# The reader on the parts of the grammar

The reader takes one character at a time. This module says what it does over a whole part of a
source text: over a comment, a gap, the text of a bare head, the inside of a quoted head, a head
and an item. Each lemma starts in a mode where such a part may begin and tells the state at its
end.

A node is only made by the delimiter after its head, so after an item the reader stands either
before that delimiter with the tag still pending, or after a list with the node in place
(`Read`). The delimiter then settles the item (`Read.comma`, `Read.close`, `Read.finish`).
-/

namespace SexprAsm.Reader

open Text Grammar

/-! ## Runs over a text in two parts

A run over a text is one over its first part followed by one over the rest, which starts at the
end of the first. So the parts of the grammar are gone over one at a time. -/

/-- The byte offset after characters that start at `offset`. -/
def endOffset (offset : Nat) (cs : List Char) : Nat :=
  cs.foldl (fun offset c => offset + c.utf8Size) offset

theorem endOffset_eq (offset : Nat) (cs : List Char) :
    endOffset offset cs = offset + String.utf8Len cs := by
  induction cs generalizing offset with
  | nil => rfl
  | cons c cs ih =>
    rw [endOffset, List.foldl_cons]
    refine (ih (offset + c.utf8Size)).trans ?_
    rw [String.utf8Len_cons]
    omega

theorem run_append (s : State) (offset : Nat) (cs ds : List Char) :
    s.run offset (cs ++ ds) = (s.run offset cs).bind (·.run (endOffset offset cs) ds) := by
  induction cs generalizing s offset with
  | nil => rfl
  | cons c cs ih =>
    rw [List.cons_append, State.run, State.run]
    cases hstep : s.step offset c with
    | error e => rfl
    | ok s' => exact ih s' _

/-- A run over the first part of a text is gone on with over the second part. -/
theorem run_append_of_eq {s s' : State} {offset : Nat} {cs : List Char} (ds : List Char)
    (h : s.run offset cs = .ok s') :
    s.run offset (cs ++ ds) = s'.run (endOffset offset cs) ds := by
  rw [run_append, h]
  rfl

theorem run_cons_of_eq {s s' : State} {offset : Nat} {c : Char} (cs : List Char)
    (h : s.step offset c = .ok s') :
    s.run offset (c :: cs) = s'.run (offset + c.utf8Size) cs := by
  rw [State.run, h]
  rfl

theorem run_singleton {s s' : State} {offset : Nat} {c : Char} (h : s.step offset c = .ok s') :
    s.run offset [c] = .ok s' :=
  run_cons_of_eq [] h

/-! ## Characters -/

/-- An ignorable character is not structural. -/
theorem not_mem_structural_of_isIgnorable {c : Char} (h : isIgnorable c) : c ∉ structural := by
  intro hmem
  simp only [structural, List.mem_cons, List.not_mem_nil, or_false] at hmem
  rcases hmem with rfl | rfl | rfl | rfl | rfl | rfl | rfl <;> revert h <;> decide

theorem ne_of_not_mem_structural {c d : Char} (hc : c ∉ structural) (hd : d ∈ structural) :
    c ≠ d := fun h => hc (h ▸ hd)

/-! ## Comments and gaps

Outside of quoted heads and escapes, a comment changes nothing but that it is open. After a
quoted head and after a list, blanks change nothing either. -/

/-- The rest of a line inside a comment changes nothing. -/
theorem run_comment_line {s : State} (hcomment : s.inComment = true) (offset : Nat)
    {line : List Char} (hline : '\n' ∉ line) : s.run offset line = .ok s := by
  induction line generalizing offset with
  | nil => rfl
  | cons c line ih =>
    rw [List.mem_cons, not_or] at hline
    have hstep : s.step offset c = .ok s := by
      have hne : (c != '\n') = true := by simpa using Ne.symm hline.1
      rw [State.step, if_pos hcomment, hne, ← hcomment]
    rw [run_cons_of_eq line hstep]
    exact ih _ hline.2

/-- The end of its line ends a comment. -/
theorem run_comment_end {s : State} (hcomment : s.inComment = true) (offset : Nat)
    {line : List Char} (hline : '\n' ∉ line) :
    s.run offset (line ++ ['\n']) = .ok { s with inComment := false } := by
  rw [run_append_of_eq _ (run_comment_line hcomment offset hline)]
  refine run_singleton ?_
  rw [State.step, if_pos hcomment]
  rfl

/-- The modes outside of an escape and of a quoted head, in which a comment may begin. -/
def Mode.IsOutside (mode : Mode) : Prop := mode = .head ∨ mode = .afterQuoted ∨ mode = .afterList

theorem step_semicolon {s : State} (hmode : s.mode.IsOutside) (hcomment : s.inComment = false)
    (offset : Nat) : s.step offset ';' = .ok { s with inComment := true } := by
  rcases hmode with h | h | h
  · simp [State.step, hcomment, h, State.inHead]
  · simp [State.step, hcomment, h, State.inAfterQuoted]
  · simp [State.step, hcomment, h, State.inAfterList]

/-- A whole comment changes nothing. -/
theorem run_comment {s : State} (hmode : s.mode.IsOutside) (hcomment : s.inComment = false)
    (offset : Nat) {line : List Char} (hline : '\n' ∉ line) :
    s.run offset (';' :: line ++ ['\n']) = .ok s := by
  rw [List.cons_append, run_cons_of_eq _ (step_semicolon hmode hcomment offset),
    run_comment_end rfl _ hline]
  rw [← hcomment]

/-- Ignorable characters are skipped after a quoted head and after a list. -/
theorem step_blank {s : State} (hmode : s.mode = .afterQuoted ∨ s.mode = .afterList)
    (hcomment : s.inComment = false) (offset : Nat) {c : Char} (hc : isIgnorable c) :
    s.step offset c = .ok s := by
  have hns := not_mem_structural_of_isIgnorable hc
  have hne : ∀ d ∈ structural, c ≠ d := fun d => ne_of_not_mem_structural hns
  have h₁ := hne '(' (by decide)
  have h₂ := hne ')' (by decide)
  have h₃ := hne ',' (by decide)
  have h₄ := hne ';' (by decide)
  rcases hmode with h | h
  · simp [State.step, hcomment, h, State.inAfterQuoted, h₁, h₂, h₃, h₄, hc]
  · simp [State.step, hcomment, h, State.inAfterList, h₂, h₃, h₄, hc]

/-- A gap changes nothing after a quoted head and after a list. -/
theorem run_gap {s : State} (hmode : s.mode = .afterQuoted ∨ s.mode = .afterList)
    (hcomment : s.inComment = false) {src : List Char} (h : Gap src) (offset : Nat) :
    s.run offset src = .ok s := by
  induction h generalizing offset with
  | nil => rfl
  | blank hc _ ih => rw [run_cons_of_eq _ (step_blank hmode hcomment offset hc), ih]
  | @comment line src hline _ ih =>
    rw [show ';' :: line ++ '\n' :: src = (';' :: line ++ ['\n']) ++ src from by simp,
      run_append_of_eq _ (run_comment (Or.inr hmode) hcomment offset hline), ih]

/-! ## Bare heads -/

theorem step_plain {s : State} (hmode : s.mode = .head) (hcomment : s.inComment = false)
    (offset : Nat) {c : Char} (hc : c ∉ structural) :
    s.step offset c = .ok (s.addToHead offset c) := by
  have hne : ∀ d ∈ structural, c ≠ d := fun d => ne_of_not_mem_structural hc
  simp [State.step, hcomment, hmode, State.inHead, hne '(' (by decide), hne ')' (by decide),
    hne ',' (by decide), hne ';' (by decide), hne '"' (by decide), hne '\'' (by decide),
    hne '\\' (by decide)]

theorem run_escaped {s : State} (hmode : s.mode = .head) (hcomment : s.inComment = false)
    (offset : Nat) (c : Char) :
    s.run offset ['\\', c] = .ok (s.addToHead (offset + '\\'.utf8Size) c) := by
  have hslash : s.step offset '\\' = .ok { s with mode := .headEscape } := by
    simp [State.step, hcomment, hmode, State.inHead]
  rw [run_cons_of_eq _ hslash]
  refine run_singleton ?_
  simp [State.step, hcomment, State.addToHead, ← hmode]

/-- Over the text of a bare head the reader gathers the characters it stands for. The head has
started once one of them is not ignorable. -/
theorem run_bare {src text : List Char} (h : Bare src text) {s : State} (hmode : s.mode = .head)
    (hcomment : s.inComment = false) (offset : Nat) :
    ∃ start, s.run offset src = .ok { s with text := text.reverse ++ s.text, start := start } ∧
      (start = none ↔ s.start = none ∧ ∀ c ∈ text, isIgnorable c) := by
  -- One gathered character, at whatever offset it is recorded.
  have gather (s : State) (offset : Nat) (c : Char) (text : List Char) (start : Option Nat)
      (hstart : start = none ↔
        (s.addToHead offset c).start = none ∧ ∀ c ∈ text, isIgnorable c) :
      ({ s.addToHead offset c with
          text := text.reverse ++ (s.addToHead offset c).text, start := start } : State) =
        { s with text := (c :: text).reverse ++ s.text, start := start } ∧
      (start = none ↔ s.start = none ∧ ∀ d ∈ c :: text, isIgnorable d) := by
    refine ⟨by simp [State.addToHead], hstart.trans ?_⟩
    cases hs : s.start with
    | some o => simp [State.addToHead, hs]
    | none => by_cases hc : isIgnorable c <;> simp [State.addToHead, hs, hc]
  induction h generalizing s offset with
  | nil => exact ⟨s.start, rfl, by simp⟩
  | @plain c src text hc _ ih =>
    rw [run_cons_of_eq _ (step_plain hmode hcomment offset hc)]
    obtain ⟨start, hrun, hstart⟩ := ih (s := s.addToHead offset c) hmode hcomment _
    obtain ⟨hstate, hiff⟩ := gather s offset c text start hstart
    exact ⟨start, hstate ▸ hrun, hiff⟩
  | @escaped c src text _ ih =>
    rw [show '\\' :: c :: src = ['\\', c] ++ src from rfl,
      run_append_of_eq _ (run_escaped hmode hcomment offset c)]
    obtain ⟨start, hrun, hstart⟩ := ih (s := s.addToHead _ c) hmode hcomment _
    obtain ⟨hstate, hiff⟩ := gather s _ c text start hstart
    exact ⟨start, hstate ▸ hrun, hiff⟩
  | @comment line src text hline _ ih =>
    rw [show ';' :: line ++ '\n' :: src = (';' :: line ++ ['\n']) ++ src from by simp,
      run_append_of_eq _ (run_comment (Or.inl hmode) hcomment offset hline)]
    exact ih hmode hcomment _

/-! ## Quoted heads

An escape that has not reached its last digit is only resolved by the character after it, which
is then taken as if the escape had been resolved before. So a piece is read together with what
follows it, of which there is always some. -/

/-- The reader inside a quoted head, with some characters gathered. -/
def State.insideQuoted (s : State) (quote : Char) (mode : QuoteMode) (text : List Char) : State :=
  { s with mode := .quoted quote mode, text := text }

variable {s : State} {quote : Char}

theorem step_insideQuoted (hcomment : s.inComment = false) (mode : QuoteMode) (text : List Char)
    (offset : Nat) (c : Char) :
    (s.insideQuoted quote mode text).step offset c =
      (s.insideQuoted quote mode text).inQuoted offset quote mode c := by
  simp [State.step, State.insideQuoted, hcomment]

theorem namedEscape?_eq_none_of_isDigit {c : Char} (h : isDigit 8 c) : namedEscape? c = none := by
  unfold namedEscape?
  split
  case h_9 => rfl
  all_goals revert h; decide

theorem digit?_lt {base n : Nat} {c : Char} (h : digit? base c = some n) : n < base := by
  have := (Option.filter_eq_some_iff.mp h).2
  simpa using this

theorem isValidChar_of_lt {n : Nat} (h : n < 512) : n.isValidChar := Or.inl (by omega)

/-- The digits of an octal escape that are still to come, up to the end of the escape. -/
theorem run_octal (hcomment : s.inComment = false) (text next : List Char) (hnext : next ≠ [])
    (digits : List Char) (hdigits : ∀ c ∈ digits, isDigit 8 c) (value count offset : Nat)
    (hvalue : value < 8 ^ count) (hcount : count < 3) (hlen : count + digits.length ≤ 3)
    (hend : count + digits.length = 3 ∨ ¬ DigitNext 8 next) :
    (s.insideQuoted quote (.octal value count) text).run offset (digits ++ next) =
      (s.insideQuoted quote .plain
        (Char.ofNat (digits.foldl (fun n c => n * 8 + (digit? 8 c).getD 0) value) :: text)).run
          (endOffset offset digits) next := by
  induction digits generalizing value count offset with
  | nil =>
    -- The escape ends before its third digit; the next character is taken in its stead.
    have hstop : ¬ DigitNext 8 next := hend.resolve_left (by simpa using Nat.ne_of_lt hcount)
    obtain ⟨c, rest, rfl⟩ := List.exists_cons_of_ne_nil hnext
    have hc : digit? 8 c = none := by
      by_contra hsome
      exact hstop ⟨c, rfl, Option.isSome_iff_ne_none.mpr hsome⟩
    have hvalid : value.isValidChar := by
      refine isValidChar_of_lt (Nat.lt_of_lt_of_le hvalue ?_)
      exact Nat.le_trans (Nat.pow_le_pow_right (by decide) (Nat.le_of_lt hcount)) (by decide)
    rw [List.nil_append, List.foldl_nil, State.run, State.run, step_insideQuoted hcomment,
      step_insideQuoted hcomment]
    simp only [State.inQuoted, hc, State.addCodePoint, State.insideQuoted, if_pos hvalid]
    rfl
  | cons d digits ih =>
    obtain ⟨hd, hrest⟩ := List.forall_mem_cons.mp hdigits
    obtain ⟨n, hn⟩ := Option.isSome_iff_exists.mp hd
    have hlt := digit?_lt hn
    have hnew : value * 8 + n < 8 ^ (count + 1) := by rw [Nat.pow_succ]; omega
    rw [List.cons_append, List.foldl_cons, hn, Option.getD_some]
    simp only [List.length_cons] at hlen hend
    by_cases hthree : count + 1 = 3
    · -- The third digit ends the escape.
      have hnil : digits = [] := List.eq_nil_of_length_eq_zero (by omega)
      have hvalid : (value * 8 + n).isValidChar := by
        rw [hthree] at hnew
        exact isValidChar_of_lt hnew
      subst hnil
      have hstep : (s.insideQuoted quote (.octal value count) text).step offset d =
          .ok (s.insideQuoted quote .plain (Char.ofNat (value * 8 + n) :: text)) := by
        rw [step_insideQuoted hcomment]
        simp [State.inQuoted, hn, hthree, State.addCodePoint, State.insideQuoted, hvalid]
      rw [List.nil_append, run_cons_of_eq _ hstep]
      rfl
    · have hstep : (s.insideQuoted quote (.octal value count) text).step offset d =
          .ok (s.insideQuoted quote (.octal (value * 8 + n) (count + 1)) text) := by
        rw [step_insideQuoted hcomment]
        simp [State.inQuoted, hn, hthree, State.insideQuoted]
      rw [run_cons_of_eq _ hstep]
      exact ih hrest _ _ _ hnew (by omega) (by omega) (by
        rcases hend with h | h
        · exact Or.inl (by omega)
        · exact Or.inr h)

/-- The digits of a hexadecimal escape, up to the last one it wants, at which the code point is
added or refused. -/
theorem run_hex (hcomment : s.inComment = false) (text next : List Char) (letter : Char)
    (width : Nat) (digits seen : List Char) (hdigits : ∀ c ∈ digits, isDigit 16 c)
    (hsome : digits ≠ []) (hlen : (seen ++ digits).length = width) (offset : Nat) :
    ∃ last, (s.insideQuoted quote (.hex letter width seen) text).run offset (digits ++ next) =
      ((s.insideQuoted quote .plain text).addCodePoint last (ofDigits 16 (seen ++ digits))).bind
        (·.run (endOffset offset digits) next) := by
  induction digits generalizing seen offset with
  | nil => exact absurd rfl hsome
  | cons d digits ih =>
    obtain ⟨hd, hrest⟩ := List.forall_mem_cons.mp hdigits
    have happend : seen ++ d :: digits = (seen ++ [d]) ++ digits := by simp
    rw [happend] at hlen ⊢
    cases digits with
    | nil =>
      rw [List.append_nil] at hlen ⊢
      refine ⟨offset, ?_⟩
      rw [List.cons_append, State.run, step_insideQuoted hcomment, State.inQuoted, if_pos hd,
        if_pos hlen]
      rfl
    | cons d' digits =>
      have hmore : (seen ++ [d]).length ≠ width := by
        rw [List.length_append, List.length_cons] at hlen
        omega
      have hstep : (s.insideQuoted quote (.hex letter width seen) text).step offset d =
          .ok (s.insideQuoted quote (.hex letter width (seen ++ [d])) text) := by
        rw [step_insideQuoted hcomment]
        rw [State.inQuoted, if_pos hd, if_neg hmore]
        rfl
      obtain ⟨last, hrun⟩ := ih (seen ++ [d]) hrest (by simp) hlen (offset + d.utf8Size)
      refine ⟨last, ?_⟩
      rw [List.cons_append, run_cons_of_eq _ hstep, hrun]
      rfl

/-- The digits of a hexadecimal escape that is cut short. -/
theorem run_cutHex (hcomment : s.inComment = false) (text next : List Char) (hnext : next ≠ [])
    (letter : Char) (width : Nat) (digits seen : List Char) (hdigits : ∀ c ∈ digits, isDigit 16 c)
    (hlen : (seen ++ digits).length < width) (hend : ¬ DigitNext 16 next) (offset : Nat) :
    (s.insideQuoted quote (.hex letter width seen) text).run offset (digits ++ next) =
      (s.insideQuoted quote .plain ((letter :: (seen ++ digits)).reverse ++ text)).run
        (endOffset offset digits) next := by
  induction digits generalizing seen offset with
  | nil =>
    obtain ⟨c, rest, rfl⟩ := List.exists_cons_of_ne_nil hnext
    have hc : ¬ isDigit 16 c := fun hc => hend ⟨c, rfl, hc⟩
    rw [List.nil_append, State.run, State.run, step_insideQuoted hcomment,
      step_insideQuoted hcomment]
    simp only [State.inQuoted, if_neg hc, State.insideQuoted, List.append_nil, List.reverse_cons,
      List.append_assoc, List.singleton_append]
    rfl
  | cons d digits ih =>
    obtain ⟨hd, hrest⟩ := List.forall_mem_cons.mp hdigits
    have happend : seen ++ d :: digits = (seen ++ [d]) ++ digits := by simp
    rw [happend] at hlen ⊢
    have hmore : (seen ++ [d]).length ≠ width := by
      rw [List.length_append] at hlen
      omega
    have hstep : (s.insideQuoted quote (.hex letter width seen) text).step offset d =
        .ok (s.insideQuoted quote (.hex letter width (seen ++ [d])) text) := by
      rw [step_insideQuoted hcomment]
      rw [State.inQuoted, if_pos hd, if_neg hmore]
      rfl
    rw [List.cons_append, run_cons_of_eq _ hstep]
    exact ih (seen ++ [d]) hrest hlen _

theorem step_insideQuoted_slash (hcomment : s.inComment = false) (text : List Char)
    (offset : Nat) :
    (s.insideQuoted quote .plain text).step offset '\\' =
      .ok (s.insideQuoted quote .escape text) := by
  rw [step_insideQuoted hcomment]
  rfl

theorem namedEscape?_eq_none_of_hexEscapeWidth? {c : Char} {width : Nat}
    (h : hexEscapeWidth? c = some width) : namedEscape? c = none ∧ digit? 8 c = none ∧ 0 < width := by
  unfold hexEscapeWidth? at h
  split at h
  case h_4 => cases h
  all_goals
    cases h
    decide

/-- The start of a hexadecimal escape. -/
theorem run_hexLetter (hcomment : s.inComment = false) {letter : Char} {width : Nat}
    (hletter : hexEscapeWidth? letter = some width) (text next : List Char) (offset : Nat) :
    (s.insideQuoted quote .plain text).run offset ('\\' :: letter :: next) =
      (s.insideQuoted quote (.hex letter width []) text).run
        (offset + '\\'.utf8Size + letter.utf8Size) next := by
  obtain ⟨hnamed, hoctal, -⟩ := namedEscape?_eq_none_of_hexEscapeWidth? hletter
  rw [run_cons_of_eq _ (step_insideQuoted_slash hcomment text offset)]
  refine run_cons_of_eq _ ?_
  rw [step_insideQuoted hcomment, State.inQuoted, State.inEscape, hnamed, hoctal, hletter]
  rfl

/-- A piece of a quoted head adds the characters it stands for. -/
theorem run_piece (hcomment : s.inComment = false) {next piece chars : List Char}
    (hnext : next ≠ []) (h : Piece quote next piece chars) (text : List Char) (offset : Nat) :
    (s.insideQuoted quote .plain text).run offset (piece ++ next) =
      (s.insideQuoted quote .plain (chars.reverse ++ text)).run (endOffset offset piece) next := by
  -- The shape of the piece says which states the reader passes through.
  cases h with
  | @plain c hquote hslash =>
    refine run_cons_of_eq _ ?_
    rw [step_insideQuoted hcomment, State.inQuoted, State.inPlain, if_neg hslash, if_neg hquote]
    rfl
  | @named c control hc =>
    rw [List.cons_append, run_cons_of_eq _ (step_insideQuoted_slash hcomment text offset)]
    refine run_cons_of_eq _ ?_
    rw [step_insideQuoted hcomment, State.inQuoted, State.inEscape, hc]
    rfl
  | @octal digits hsome hlen hdigits hend =>
    rw [List.cons_append, run_cons_of_eq _ (step_insideQuoted_slash hcomment text offset)]
    obtain ⟨d, digits, rfl⟩ := List.exists_cons_of_ne_nil hsome
    obtain ⟨hd, hrest⟩ := List.forall_mem_cons.mp hdigits
    obtain ⟨n, hn⟩ := Option.isSome_iff_exists.mp hd
    -- The first digit is read by the escape itself, the others by the run of octal digits.
    have hstep : (s.insideQuoted quote .escape text).step (offset + '\\'.utf8Size) d =
        .ok (s.insideQuoted quote (.octal n 1) text) := by
      rw [step_insideQuoted hcomment, State.inQuoted, State.inEscape,
        namedEscape?_eq_none_of_isDigit hd, hn]
      rfl
    have hlt : n < 8 ^ 1 := digit?_lt hn
    simp only [List.length_cons] at hlen hend
    rw [List.cons_append, run_cons_of_eq _ hstep,
      run_octal hcomment text next hnext digits hrest n 1 _ hlt (by decide) (by omega) (by
        rcases hend with h | h
        · exact Or.inl (by omega)
        · exact Or.inr h)]
    rw [ofDigits, List.foldl_cons, hn, Option.getD_some, Nat.zero_mul, Nat.zero_add]
    rfl
  | @hex letter width digits hletter hlen hdigits hvalid =>
    have hwidth := (namedEscape?_eq_none_of_hexEscapeWidth? hletter).2.2
    have hsome : digits ≠ [] := by
      rintro rfl
      rw [List.length_nil] at hlen
      omega
    rw [List.cons_append, List.cons_append, run_hexLetter hcomment hletter]
    obtain ⟨last, hrun⟩ := run_hex hcomment text next letter width digits [] hdigits hsome hlen
      (offset + '\\'.utf8Size + letter.utf8Size)
    rw [hrun, List.nil_append, State.addCodePoint, if_pos hvalid]
    rfl
  | @cutHex letter width digits hletter hlen hdigits hend =>
    rw [List.cons_append, List.cons_append, run_hexLetter hcomment hletter]
    exact run_cutHex hcomment text next hnext letter width digits [] hdigits hlen hend _
  | @other c hnamed hoctal hhex =>
    have hdigit : digit? 8 c = none := by
      rw [isDigit, Option.isSome_iff_ne_none, not_not] at hoctal
      exact hoctal
    rw [List.cons_append, run_cons_of_eq _ (step_insideQuoted_slash hcomment text offset)]
    refine run_cons_of_eq _ ?_
    rw [step_insideQuoted hcomment, State.inQuoted, State.inEscape, hnamed, hdigit, hhex]
    rfl

/-- A quote is no digit, so what follows a piece inside its head decides. -/
theorem digitNext_append_quote (hquote : IsQuote quote) (rest tail : List Char) (base : Nat)
    (h : DigitNext base (rest ++ quote :: tail)) : DigitNext base rest := by
  obtain ⟨c, hc, hdigit⟩ := h
  cases rest with
  | nil =>
    obtain rfl : quote = c := by simpa using hc
    rcases hquote with rfl | rfl <;> simp [isDigit, digit?] at hdigit
  | cons d rest => exact ⟨c, by simpa using hc, hdigit⟩

theorem ne_slash_of_isQuote (hquote : IsQuote quote) : quote ≠ '\\' := by
  rcases hquote with rfl | rfl <;> decide

/-- Over the inside of a quoted head and its closing quote the reader gathers the characters it
stands for. -/
theorem run_body (hcomment : s.inComment = false) (hquote : IsQuote quote)
    {body chars : List Char} (h : Body quote body chars) (text tail : List Char) (offset : Nat) :
    (s.insideQuoted quote .plain text).run offset (body ++ quote :: tail) =
      ({ s with mode := .afterQuoted, text := chars.reverse ++ text } : State).run
        (endOffset offset (body ++ [quote])) tail := by
  induction h generalizing text offset with
  | nil =>
    refine run_cons_of_eq _ ?_
    rw [step_insideQuoted hcomment, State.inQuoted, State.inPlain,
      if_neg (ne_slash_of_isQuote hquote), if_pos rfl]
    rfl
  | @cons piece rest pieceChars restChars hpiece _ ih =>
    have hmono := hpiece.mono (digitNext_append_quote hquote rest tail)
    rw [List.append_assoc, run_piece hcomment (by simp) hmono, ih, List.append_assoc,
      List.reverse_append, List.append_assoc]
    rw [endOffset, endOffset, endOffset, ← List.foldl_append]

end SexprAsm.Reader
