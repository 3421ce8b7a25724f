import SexprAsm.Proofs.Reader.Acceptance

/-!
# Where faults are reported

A fault is reported at the earliest place. Up to there the source can still be completed to one that
is read (`Viable`), and with the next character it cannot; a fault at the end of the source leaves
it completable as a whole.

Behind this is that no state of the reader is hopeless. From every state that it can be in
(`Mode.Sane`) there is a way to the end (`completes_of_sane`): finish the comment, the escape,
the quoted head, and then close the lists. So the reader refuses a character exactly where no
source goes on with it, and it names the character it refuses (`step_error`).
-/

namespace SexprAsm

/-- The fault is one of the end of the source: something is left open there. -/
def SyntaxFault.atEnd : SyntaxFault → Bool
  | missingClose | unterminatedString _ | danglingEscape => true
  | _ => false

/-- The fault names the character at which it is reported, or the code point that it ends. -/
def SyntaxFault.Names : SyntaxFault → Char → Prop
  | unexpectedCharacter c, d | unexpectedQuote c, d => d = c
  | strayComma, d => d = ','
  | unmatchedClose, d => d = ')'
  | invalidCodePoint value, _ => ¬ value.isValidChar
  | missingClose, _ | unterminatedString _, _ | danglingEscape, _ => False

theorem SyntaxFault.Names.atEnd_eq_false {fault : SyntaxFault} {c : Char} (h : fault.Names c) :
    fault.atEnd = false := by
  cases fault with
  | missingClose | unterminatedString | danglingEscape => exact h.elim
  | _ => rfl

namespace Reader

open Text Grammar

/-- Some source that begins so is read. -/
def Viable (cs : List Char) : Prop := ∃ rest t, Tree.read (String.ofList (cs ++ rest)) = .ok t

variable {s s' : State} {offset : Nat} {c : Char} {cs : List Char} {f : Fault}

/-! ## Refused characters

One lemma for each part of the reader that can refuse a character. In all of them the fault is
reported at that character, and names it. -/

theorem delimiter_error (hc : c = '(' ∨ c = ',' ∨ c = ')') (h : s.delimiter offset c = .error f) :
    f.offset = offset ∧ f.fault.Names c := by
  rw [State.delimiter] at h
  split at h
  · cases h
  next hopen =>
    split at h
    next hcomma =>
      split at h
      · cases h
        exact ⟨rfl, hcomma⟩
      · cases h
    next hcomma =>
      split at h
      · cases h
        exact ⟨rfl, (hc.resolve_left hopen).resolve_left hcomma⟩
      · cases h

theorem addCodePoint_error {value : Nat} (h : s.addCodePoint offset value = .error f) :
    f.offset = offset ∧ f.fault.Names c := by
  rw [State.addCodePoint] at h
  split at h
  · cases h
  next hvalid =>
    cases h
    exact ⟨rfl, hvalid⟩

theorem inHead_error (h : s.inHead offset c = .error f) :
    f.offset = offset ∧ f.fault.Names c := by
  rw [State.inHead] at h
  split at h
  · cases h
  · split at h
    · cases h
    · split at h
      · split at h
        · cases h
          exact ⟨rfl, rfl⟩
        · cases h
      · split at h
        next hdelimiter => exact delimiter_error hdelimiter h
        · cases h

theorem inQuoted_error {quote : Char} {mode : QuoteMode}
    (h : s.inQuoted offset quote mode c = .error f) : f.offset = offset ∧ f.fault.Names c := by
  cases mode with
  | plain => cases h
  | escape => cases h
  | octal value count =>
    simp only [State.inQuoted] at h
    split at h
    · split at h
      · exact addCodePoint_error h
      · cases h
    · cases hadd : s.addCodePoint offset value with
      | ok added => rw [hadd] at h; cases h
      | error f' =>
        rw [hadd] at h
        cases h
        exact addCodePoint_error hadd
  | hex letter width digits =>
    simp only [State.inQuoted] at h
    split at h
    · split at h
      · exact addCodePoint_error h
      · cases h
    · cases h

theorem inAfterQuoted_error (h : s.inAfterQuoted offset c = .error f) :
    f.offset = offset ∧ f.fault.Names c := by
  rw [State.inAfterQuoted] at h
  split at h
  next hdelimiter => exact delimiter_error hdelimiter h
  · split at h
    · cases h
    · split at h
      · cases h
      · cases h
        exact ⟨rfl, rfl⟩

theorem inAfterList_error (h : s.inAfterList offset c = .error f) :
    f.offset = offset ∧ f.fault.Names c := by
  rw [State.inAfterList] at h
  split at h
  · cases h
  · split at h
    next hcomma =>
      split at h
      · cases h
        exact ⟨rfl, hcomma⟩
      · cases h
    · split at h
      next hclose => exact delimiter_error (Or.inr (Or.inr hclose)) h
      · split at h
        · cases h
        · cases h
          exact ⟨rfl, rfl⟩

/-- A character that the reader refuses is where the fault is reported, and what it names. -/
theorem step_error (h : s.step offset c = .error f) : f.offset = offset ∧ f.fault.Names c := by
  rw [State.step] at h
  split at h
  · cases h
  · cases hmode : s.mode with
    | head => exact inHead_error (by rwa [hmode] at h)
    | headEscape => rw [hmode] at h; cases h
    | quoted quote mode => exact inQuoted_error (by rwa [hmode] at h)
    | afterQuoted => exact inAfterQuoted_error (by rwa [hmode] at h)
    | afterList => exact inAfterList_error (by rwa [hmode] at h)

/-- A run that fails does so at a character, and has gone over what is before it. -/
theorem run_error (h : s.run offset cs = .error f) :
    ∃ before c after s', cs = before ++ c :: after ∧ s.run offset before = .ok s' ∧
      s'.step (endOffset offset before) c = .error f := by
  induction cs generalizing s offset with
  | nil => cases h
  | cons c cs ih =>
    cases hstep : s.step offset c with
    | error f' =>
      rw [State.run, hstep] at h
      cases h
      exact ⟨[], c, cs, s, rfl, rfl, hstep⟩
    | ok s₁ =>
      rw [run_cons_of_eq cs hstep] at h
      obtain ⟨before, d, after, s', rfl, hrun, hrefused⟩ := ih h
      exact ⟨c :: before, d, after, s', rfl, (run_cons_of_eq before hstep).trans hrun, hrefused⟩

/-! ## States that the reader can be in

An octal escape has less than three digits while it is open, and a quoted head one of the two
quotes. The reader keeps to that, which is all that is needed to find a way to the end. -/

/-- What the reader has of an octal escape is less than three digits. -/
def QuoteMode.Sane : QuoteMode → Prop
  | octal value count => value < 8 ^ count ∧ count < 3
  | _ => True

/-- Quoted heads have one of the two quotes. -/
def Mode.Sane : Mode → Prop
  | quoted quote mode => IsQuote quote ∧ mode.Sane
  | _ => True

theorem mode_endHead (s : State) (offset : Nat) (skipEmpty : Bool) :
    (s.endHead offset skipEmpty).mode = s.mode ∧
      (s.endHead offset skipEmpty).openLists = s.openLists ∧
      (s.endHead offset skipEmpty).inComment = s.inComment := by
  cases htag : s.pendingTag? skipEmpty with
  | none => rw [endHead_of_none htag]; exact ⟨rfl, rfl, rfl⟩
  | some tag => rw [endHead_of_some htag]; exact ⟨rfl, rfl, rfl⟩

theorem delimiter_sane (h : s.delimiter offset c = .ok s') : s'.mode.Sane := by
  rw [State.delimiter] at h
  split at h
  · cases h
    trivial
  · split at h
    · split at h <;> cases h
      trivial
    · split at h <;> cases h
      trivial

theorem inPlain_sane {quote : Char} (hquote : IsQuote quote) (s : State) (c : Char) :
    (s.inPlain quote c).mode.Sane := by
  rw [State.inPlain]
  split
  · exact ⟨hquote, trivial⟩
  · split
    · trivial
    · exact ⟨hquote, trivial⟩

theorem inQuoted_sane {quote : Char} {mode : QuoteMode} (hquote : IsQuote quote)
    (hmode : mode.Sane) (h : s.inQuoted offset quote mode c = .ok s') : s'.mode.Sane := by
  cases mode with
  | plain =>
    cases h
    exact inPlain_sane hquote s c
  | escape =>
    obtain rfl := Except.ok.inj h
    rw [State.inEscape]
    split
    · exact ⟨hquote, trivial⟩
    next value _ hvalue => exact ⟨hquote, by simpa using digit?_lt hvalue, by decide⟩
    · exact ⟨hquote, trivial⟩
    · exact ⟨hquote, trivial⟩
  | octal value count =>
    obtain ⟨hvalue, hcount⟩ := hmode
    simp only [State.inQuoted] at h
    split at h
    next digit hdigit =>
      split at h
      · obtain rfl := addCodePoint_ok h
        exact ⟨hquote, trivial⟩
      next hthree =>
        -- With fewer than three digits, the value stays below the power of eight they make up.
        obtain rfl := Except.ok.inj h
        have hlt := digit?_lt hdigit
        refine ⟨hquote, ?_, by omega⟩
        show value * 8 + digit < 8 ^ (count + 1)
        rw [Nat.pow_succ]
        omega
    next =>
      -- The escape ends before this character, which is read as one of the head.
      cases hadd : s.addCodePoint offset value with
      | error f => rw [hadd] at h; cases h
      | ok added =>
        rw [hadd] at h
        obtain rfl := Except.ok.inj h
        exact inPlain_sane hquote added c
  | hex letter width digits =>
    simp only [State.inQuoted] at h
    split at h
    · split at h
      · obtain rfl := addCodePoint_ok h
        exact ⟨hquote, trivial⟩
      · obtain rfl := Except.ok.inj h
        exact ⟨hquote, trivial⟩
    · obtain rfl := Except.ok.inj h
      exact inPlain_sane hquote _ c

/-- The reader stays in the states it can be in. -/
theorem step_sane (hsane : s.mode.Sane) (h : s.step offset c = .ok s') : s'.mode.Sane := by
  rw [State.step] at h
  split at h
  · cases h
    exact hsane
  · cases hmode : s.mode with
    | head =>
      rw [hmode] at h
      simp only [State.inHead] at h
      split at h
      · cases h
        exact hsane
      · split at h
        · cases h
          trivial
        · split at h
          next hquote =>
            split at h <;> cases h
            exact ⟨hquote, trivial⟩
          · split at h
            · exact delimiter_sane h
            · cases h
              exact hsane
    | headEscape =>
      rw [hmode] at h
      cases h
      trivial
    | quoted quote mode =>
      rw [hmode] at h hsane
      exact inQuoted_sane hsane.1 hsane.2 h
    | afterQuoted =>
      rw [hmode] at h
      simp only [State.inAfterQuoted] at h
      split at h
      · exact delimiter_sane h
      · split at h
        · cases h
          exact hsane
        · split at h <;> cases h
          exact hsane
    | afterList =>
      rw [hmode] at h
      simp only [State.inAfterList] at h
      split at h
      · cases h
        exact hsane
      · split at h
        · split at h <;> cases h
          trivial
        · split at h
          · exact delimiter_sane h
          · split at h <;> cases h
            exact hsane

theorem run_sane (hsane : s.mode.Sane) (h : s.run offset cs = .ok s') : s'.mode.Sane := by
  induction cs generalizing s offset with
  | nil =>
    cases h
    exact hsane
  | cons c cs ih =>
    cases hstep : s.step offset c with
    | error f => rw [State.run, hstep] at h; cases h
    | ok s₁ =>
      rw [run_cons_of_eq cs hstep] at h
      exact ih (step_sane hsane hstep) h

/-! ## Ways to the end

From each state there are characters that lead to one in which the source may end: an escape is
completed, a quoted head is closed by its quote, and each list that is open by a parenthesis. The
lists are closed by induction on their number. -/

/-- The reader can be brought to a state where the source may end. -/
def Completes (s : State) : Prop :=
  ∀ offset, ∃ rest e, s.run offset rest = .ok e ∧ Accepts e

theorem Completes.of_run (cs : List Char)
    (h : ∀ offset, ∃ s', s.run offset cs = .ok s' ∧ Completes s') : Completes s := by
  intro offset
  obtain ⟨s', hrun, hcompletes⟩ := h offset
  obtain ⟨rest, e, hrest, haccepts⟩ := hcompletes (endOffset offset cs)
  exact ⟨cs ++ rest, e, (run_append_of_eq rest hrun).trans hrest, haccepts⟩

theorem Completes.of_step (c : Char)
    (h : ∀ offset, ∃ s', s.step offset c = .ok s' ∧ Completes s') : Completes s := by
  refine .of_run [c] fun offset => ?_
  obtain ⟨s', hstep, hcompletes⟩ := h offset
  exact ⟨s', run_singleton hstep, hcompletes⟩

/-- Outside of quoted heads and escapes, a parenthesis closes the innermost list. -/
theorem step_close (hmode : s.mode.IsOutside) (hcomment : s.inComment = false) {p : NodeId}
    {ps : List NodeId} (hopen : s.openLists = p :: ps) (offset : Nat) :
    ∃ s', s.step offset ')' = .ok s' ∧ s'.mode = .afterList ∧ s'.inComment = false ∧
      s'.openLists = ps := by
  have hdelimiter : ∀ s : State, s.inComment = false → s.openLists = p :: ps →
      ∃ s', s.delimiter offset ')' = .ok s' ∧ s'.mode = .afterList ∧ s'.inComment = false ∧
        s'.openLists = ps := by
    intro s hcomment hopen
    refine ⟨_, by rw [State.delimiter, if_neg (by decide), if_neg (by decide),
      if_neg (by simp [hopen])], rfl, ?_, by simp [hopen]⟩
    exact (mode_endHead s offset _).2.2.trans hcomment
  rcases hmode with hmode | hmode | hmode
  · rw [State.step, if_neg (by simp [hcomment]), hmode]
    simpa [State.inHead] using hdelimiter s hcomment hopen
  · rw [State.step, if_neg (by simp [hcomment]), hmode]
    simpa [State.inAfterQuoted] using hdelimiter s hcomment hopen
  · rw [State.step, if_neg (by simp [hcomment]), hmode]
    simpa [State.inAfterList] using
      hdelimiter { s with mode := .head, afterComma := false } hcomment hopen

/-- Outside of quoted heads and escapes, all lists can be closed. -/
theorem completes_of_isOutside (hmode : s.mode.IsOutside) (hcomment : s.inComment = false) :
    Completes s := by
  induction hopen : s.openLists generalizing s with
  | nil => exact fun offset => ⟨[], s, rfl, hmode, hopen⟩
  | cons p ps ih =>
    refine .of_step ')' fun offset => ?_
    obtain ⟨s', hstep, hmode', hcomment', hopen'⟩ := step_close hmode hcomment hopen offset
    exact ⟨s', hstep, ih (Or.inr (Or.inr hmode')) hcomment' hopen'⟩

/-- The quote closes a quoted head outside of its escapes. -/
theorem completes_inPlain {quote : Char} (hquote : IsQuote quote) (hcomment : s.inComment = false) :
    Completes (s.inPlain quote quote) := by
  rw [State.inPlain, if_neg (ne_slash_of_isQuote hquote), if_pos rfl]
  exact completes_of_isOutside (Or.inr (Or.inl rfl)) hcomment

theorem step_quoted {quote : Char} {mode : QuoteMode} (hmode : s.mode = .quoted quote mode)
    (hcomment : s.inComment = false) (offset : Nat) (c : Char) :
    s.step offset c = s.inQuoted offset quote mode c := by
  rw [State.step, if_neg (by simp [hcomment]), hmode]

/-- Every quoted head can be closed: a quote ends all escapes but that of a single character. -/
theorem completes_of_quoted {quote : Char} {mode : QuoteMode} (hquote : IsQuote quote)
    (hsane : mode.Sane) (hmode : s.mode = .quoted quote mode) (hcomment : s.inComment = false) :
    Completes s := by
  have hplain : ∀ {s : State}, s.mode = .quoted quote .plain → s.inComment = false →
      Completes s := fun hmode hcomment => .of_step quote fun offset =>
    ⟨_, step_quoted hmode hcomment offset quote, completes_inPlain hquote hcomment⟩
  have hdigit (base : Nat) : ¬ isDigit base quote := fun h =>
    not_mem_digits_of_isQuote hquote (fun _ hc => List.mem_singleton.mp hc ▸ h)
      (List.mem_singleton_self quote)
  cases mode with
  | plain => exact hplain hmode hcomment
  | escape =>
    refine .of_step '\\' fun offset => ?_
    exact ⟨_, step_quoted hmode hcomment offset '\\', hplain rfl hcomment⟩
  | octal value count =>
    have hvalid : value.isValidChar := by
      refine isValidChar_of_lt (Nat.lt_of_lt_of_le hsane.1 ?_)
      exact Nat.le_trans (Nat.pow_le_pow_right (by decide) (Nat.le_of_lt hsane.2)) (by decide)
    refine .of_step quote fun offset => ⟨_, ?_, completes_inPlain hquote
      (s := { s with text := Char.ofNat value :: s.text }) hcomment⟩
    have hnone : digit? 8 quote = none := by simpa [isDigit] using hdigit 8
    rw [step_quoted hmode hcomment, State.inQuoted, hnone, State.addCodePoint, if_pos hvalid]
    rfl
  | hex letter width digits =>
    refine .of_step quote fun offset => ⟨_, ?_, completes_inPlain hquote
      (s := { s with text := digits.reverse ++ letter :: s.text }) hcomment⟩
    rw [step_quoted hmode hcomment, State.inQuoted, if_neg (hdigit 16)]

/-- No state of the reader is hopeless. -/
theorem completes_of_sane (hsane : s.mode.Sane) : Completes s := by
  have hquiet : ∀ {s : State}, s.mode.Sane → s.inComment = false → Completes s := by
    intro s hsane hcomment
    cases hmode : s.mode with
    | head => exact completes_of_isOutside (Or.inl hmode) hcomment
    | headEscape =>
      -- The escape takes any character.
      refine .of_step 'a' fun offset => ⟨({ s with mode := .head } : State).addToHead offset 'a',
        ?_, completes_of_isOutside (Or.inl rfl) hcomment⟩
      rw [State.step, if_neg (by simp [hcomment]), hmode]
    | quoted quote mode =>
      rw [hmode] at hsane
      exact completes_of_quoted hsane.1 hsane.2 hmode hcomment
    | afterQuoted => exact completes_of_isOutside (Or.inr (Or.inl hmode)) hcomment
    | afterList => exact completes_of_isOutside (Or.inr (Or.inr hmode)) hcomment
  cases hcomment : s.inComment with
  | false => exact hquiet hsane hcomment
  | true =>
    refine .of_step '\n' fun offset => ⟨{ s with inComment := false }, ?_, hquiet hsane rfl⟩
    rw [State.step, if_pos hcomment]
    rfl

/-! ## Sources

So whatever the reader has gone over is the beginning of a source that is read, and no source
goes on with a character that it refuses. A fault that is not at the end is at such a character. -/

theorem finish_of_accepts (h : Accepts s) (offset : Nat) : ∃ t, s.finish offset = .ok t := by
  have hopen : (!s.openLists.isEmpty) = false := by rw [h.openLists]; rfl
  rcases h.mode with hmode | hmode | hmode <;>
    exact ⟨_, by rw [State.finish, hmode]; simp only [hopen]; rfl⟩

theorem finish_error (h : s.finish offset = .error f) : f.fault.atEnd = true := by
  rw [State.finish] at h
  cases hmode : s.mode <;> rw [hmode] at h
  case headEscape | quoted =>
    cases h
    rfl
  all_goals
    dsimp only at h
    split at h
    · cases h
      rfl
    · cases h

/-- What the reader goes over can be completed. -/
theorem viable_of_run (h : State.run {} 0 cs = .ok s) : Viable cs := by
  have hsane : s.mode.Sane := run_sane (s := {}) trivial h
  obtain ⟨rest, e, hrest, haccepts⟩ := completes_of_sane hsane (endOffset 0 cs)
  obtain ⟨t, hfinish⟩ := finish_of_accepts haccepts (String.ofList (cs ++ rest)).utf8ByteSize
  refine ⟨rest, t, Tree.read_eq_ok_iff.mpr ?_⟩
  rw [Tree.read?, String.toList_ofList, run_append_of_eq rest h, hrest]
  exact hfinish

/-- No source goes on with a character that the reader refuses. -/
theorem not_viable_of_refused (h : State.run {} 0 cs = .ok s)
    (hstep : s.step (endOffset 0 cs) c = .error f) : ¬ Viable (cs ++ [c]) := by
  rintro ⟨rest, t, hread⟩
  rw [Tree.read_eq_ok_iff, Tree.read?, String.toList_ofList, List.append_assoc,
    run_append_of_eq _ h, List.singleton_append, State.run, hstep] at hread
  cases hread

end Reader

open Reader

/-- Faults are reported at the earliest place. A fault at the end of a source leaves all of it as the
beginning of some source that is read. Any other one is reported at a character of the source: what
is before it is the beginning of a source that is read, what goes up to it and with it is not, and
the fault names that character, or a code point that is none. -/
theorem Tree.read_fault_earliest {source : String} {e : SyntaxError}
    (h : Tree.read source = .error e) :
    (e.fault.atEnd = true → Viable source.toList) ∧
      (e.fault.atEnd = false → ∃ before c after, source.toList = before ++ c :: after ∧
        e.offset = String.utf8Len before ∧ Viable before ∧ ¬ Viable (before ++ [c]) ∧
        e.fault.Names c) := by
  obtain ⟨f, hread, rfl⟩ : ∃ f, Tree.read? source = .error f ∧
      e = ⟨f.fault, f.offset, Position.locate source f.offset⟩ := by
    rw [Tree.read] at h
    cases hread : Tree.read? source with
    | ok t => rw [hread] at h; cases h
    | error f =>
      rw [hread] at h
      cases h
      exact ⟨f, rfl, rfl⟩
  rw [Tree.read?] at hread
  cases hrun : State.run {} 0 source.toList with
  | ok s =>
    -- The reader has gone over the whole source.
    rw [hrun] at hread
    have hend := finish_error hread
    exact ⟨fun _ => viable_of_run hrun, fun hnot => by rw [hend] at hnot; cases hnot⟩
  | error f' =>
    rw [hrun] at hread
    cases hread
    obtain ⟨before, c, after, s, hsource, hbefore, hstep⟩ := run_error hrun
    obtain ⟨hoffset, hnames⟩ := step_error hstep
    refine ⟨fun hend => ?_, fun _ => ⟨before, c, after, hsource, ?_, viable_of_run hbefore,
      not_viable_of_refused hbefore hstep, hnames⟩⟩
    · exact absurd (hend : f.fault.atEnd = true) (Bool.eq_false_iff.mp hnames.atEnd_eq_false)
    · rw [← Nat.zero_add (String.utf8Len before), ← endOffset_eq]
      exact hoffset

/-- A letter may not follow a quoted head; up to there, closing the list would have been enough. -/
theorem Tree.read_fault_earliest_letter :
    Tree.read "f(\"é\" x)" = .error ⟨.unexpectedCharacter 'x', 7, ⟨1, 7⟩⟩ ∧
      ∃ before after, "f(\"é\" x)".toList = before ++ 'x' :: after ∧
        7 = String.utf8Len before ∧ Viable before ∧ ¬ Viable (before ++ ['x']) := by
  have hread : Tree.read "f(\"é\" x)" = .error ⟨.unexpectedCharacter 'x', 7, ⟨1, 7⟩⟩ := by
    decide +kernel
  obtain ⟨before, c, after, hsource, hoffset, hviable, hnot, rfl⟩ :=
    (Tree.read_fault_earliest hread).2 rfl
  exact ⟨hread, before, after, hsource, hoffset, hviable, hnot⟩

end SexprAsm
