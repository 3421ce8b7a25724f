import SexprAsm.Proofs.Reader.Items
import SexprAsm.Proofs.Reader.Split

/-!
# The reader accepts exactly its grammar

The reader goes over everything that the grammar derives (`run_item`). Here is the converse: where
the reader gets to the end of a source, the source has a derivation. The source is split along the
grammar, and the reader is run over the part split off; what could follow besides the grammar's
next part is an error of the reader, or leaves it inside a quoted head, an escape or a list at
the end.

Main statement: `Tree.read_iff_document`.
-/

namespace SexprAsm.Reader

open Text Grammar

variable {s e : State} {offset : Nat}

/-- The reader may stand so at the end of a source. -/
structure Accepts (e : State) : Prop where
  mode : e.mode.IsOutside
  openLists : e.openLists = []

/-! ## Quoted heads

Inside a quoted head only the quote leads out (`step_quoted_of_ne`), so a source that ends there
is not accepted. A run that comes out has gone over a body and the quote, by induction on the
length of what it goes over. -/

variable {quote : Char}

theorem addCodePoint_ok {s' : State} {value : Nat} (h : s.addCodePoint offset value = .ok s') :
    s' = { s with text := Char.ofNat value :: s.text } := by
  rw [State.addCodePoint] at h
  split at h
  · exact (Except.ok.inj h).symm
  · cases h

/-- The reader stands inside a quoted head. -/
def InQuoted (s : State) (quote : Char) : Prop :=
  (∃ mode, s.mode = .quoted quote mode) ∧ s.inComment = false

theorem not_accepts_of_inQuoted (h : InQuoted e quote) : ¬ Accepts e := by
  intro haccepts
  obtain ⟨⟨mode, hmode⟩, -⟩ := h
  rcases haccepts.mode with h' | h' | h' <;> rw [hmode] at h' <;> cases h'

theorem inQuoted_insideQuoted (hcomment : s.inComment = false) (mode : QuoteMode)
    (text : List Char) : InQuoted (s.insideQuoted quote mode text) quote :=
  ⟨⟨mode, rfl⟩, hcomment⟩

theorem inQuoted_inPlain {c : Char} (hne : c ≠ quote) (hcomment : s.inComment = false) :
    InQuoted (s.inPlain quote c) quote := by
  rw [State.inPlain, if_neg hne]
  split <;> exact ⟨⟨_, rfl⟩, hcomment⟩

/-- Only its quote leads out of a quoted head. -/
theorem step_quoted_of_ne {s' : State} {c : Char} (hne : c ≠ quote) (h : InQuoted s quote)
    (hstep : s.step offset c = .ok s') : InQuoted s' quote := by
  obtain ⟨⟨mode, hmode⟩, hcomment⟩ := h
  rw [State.step, if_neg (by simp [hcomment]), hmode] at hstep
  cases mode with
  | plain =>
    obtain rfl := Except.ok.inj hstep
    exact inQuoted_inPlain hne hcomment
  | escape =>
    obtain rfl := Except.ok.inj hstep
    rw [State.inEscape]
    split <;> exact ⟨⟨_, rfl⟩, hcomment⟩
  | octal value count =>
    simp only [State.inQuoted] at hstep
    split at hstep
    · split at hstep
      · obtain rfl := addCodePoint_ok hstep
        exact ⟨⟨_, rfl⟩, hcomment⟩
      · obtain rfl := Except.ok.inj hstep
        exact ⟨⟨_, rfl⟩, hcomment⟩
    · cases hadd : s.addCodePoint offset value with
      | error f => rw [hadd] at hstep; cases hstep
      | ok added =>
        rw [hadd] at hstep
        obtain rfl := Except.ok.inj hstep
        obtain rfl := addCodePoint_ok hadd
        exact inQuoted_inPlain hne hcomment
  | hex letter width digits =>
    simp only [State.inQuoted] at hstep
    split at hstep
    · split at hstep
      · obtain rfl := addCodePoint_ok hstep
        exact ⟨⟨_, rfl⟩, hcomment⟩
      · obtain rfl := Except.ok.inj hstep
        exact ⟨⟨_, rfl⟩, hcomment⟩
    · obtain rfl := Except.ok.inj hstep
      exact inQuoted_inPlain hne hcomment

theorem run_quoted_of_not_mem {cs : List Char} (hnot : quote ∉ cs) (h : InQuoted s quote)
    (hrun : s.run offset cs = .ok e) : InQuoted e quote := by
  induction cs generalizing s offset with
  | nil =>
    obtain rfl := Except.ok.inj hrun
    exact h
  | cons c cs ih =>
    rw [List.mem_cons, not_or] at hnot
    rw [State.run] at hrun
    cases hstep : s.step offset c with
    | error f => rw [hstep] at hrun; cases hrun
    | ok s' =>
      rw [hstep] at hrun
      exact ih hnot.2 (step_quoted_of_ne (Ne.symm hnot.1) h hstep) hrun

/-- A quote is no digit and no letter of an escape. -/
theorem not_mem_digits_of_isQuote (hquote : IsQuote quote) {base : Nat} {digits : List Char}
    (hdigits : ∀ c ∈ digits, isDigit base c) : quote ∉ digits := by
  intro hmem
  have hdigit := hdigits quote hmem
  rcases hquote with rfl | rfl <;> simp [isDigit, digit?] at hdigit

theorem hexEscapeWidth?_of_isQuote (hquote : IsQuote quote) : hexEscapeWidth? quote = none := by
  rcases hquote with rfl | rfl <;> rfl

/-- A piece at the end of a source leaves the reader inside the quoted head. -/
theorem run_piece_end (hcomment : s.inComment = false) (hquote : IsQuote quote)
    {piece chars text : List Char} (h : Piece quote [] piece chars)
    (hrun : (s.insideQuoted quote .plain text).run offset piece = .ok e) :
    InQuoted e quote := by
  -- Only an escape can hold the quote itself; other pieces cannot close the head.
  have inside (hnot : quote ∉ piece) : InQuoted e quote :=
    run_quoted_of_not_mem hnot (inQuoted_insideQuoted hcomment .plain text) hrun
  have hslash := ne_slash_of_isQuote hquote
  have hletter {letter : Char} {width : Nat} (h : hexEscapeWidth? letter = some width) :
      quote ≠ letter := by
    rintro rfl
    rw [hexEscapeWidth?_of_isQuote hquote] at h
    cases h
  cases h with
  | plain hne _ => exact inside (by simpa using Ne.symm hne)
  | @named c control hc =>
    rw [run_cons_of_eq _ (step_insideQuoted_slash hcomment text offset)] at hrun
    have hstep (o : Nat) : (s.insideQuoted quote .escape text).step o c =
        .ok (s.insideQuoted quote .plain (control :: text)) := by
      rw [step_insideQuoted hcomment, State.inQuoted, State.inEscape, hc]
      rfl
    rw [run_singleton (hstep _)] at hrun
    obtain rfl := Except.ok.inj hrun
    exact inQuoted_insideQuoted hcomment _ _
  | octal _ _ hdigits _ =>
    refine inside ?_
    simpa [hslash] using not_mem_digits_of_isQuote hquote hdigits
  | hex hwidth _ hdigits _ =>
    refine inside ?_
    simpa [hslash, hletter hwidth] using not_mem_digits_of_isQuote hquote hdigits
  | cutHex hwidth _ hdigits _ =>
    refine inside ?_
    simpa [hslash, hletter hwidth] using not_mem_digits_of_isQuote hquote hdigits
  | @other c hnamed hoctal hhex =>
    rw [run_cons_of_eq _ (step_insideQuoted_slash hcomment text offset)] at hrun
    have hdigit : digit? 8 c = none := by
      rw [isDigit, Option.isSome_iff_ne_none, not_not] at hoctal
      exact hoctal
    have hstep (o : Nat) : (s.insideQuoted quote .escape text).step o c =
        .ok (s.insideQuoted quote .plain (c :: text)) := by
      rw [step_insideQuoted hcomment, State.inQuoted, State.inEscape, hnamed, hdigit, hhex]
      rfl
    rw [run_singleton (hstep _)] at hrun
    obtain rfl := Except.ok.inj hrun
    exact inQuoted_insideQuoted hcomment _ _

/-- The reader comes out of a quoted head only over a body and its closing quote. -/
theorem exists_body (hcomment : s.inComment = false) (hquote : IsQuote quote) {cs text : List Char}
    (hrun : (s.insideQuoted quote .plain text).run offset cs = .ok e) (haccepts : Accepts e) :
    ∃ body chars rest, cs = body ++ quote :: rest ∧ Body quote body chars := by
  -- On the number of characters left, since a piece may be several of them.
  induction hn : cs.length using Nat.strongRecOn generalizing cs text offset with
  | _ n ih =>
    subst hn
    cases cs with
    | nil =>
      obtain rfl := Except.ok.inj hrun
      exact absurd haccepts (not_accepts_of_inQuoted (inQuoted_insideQuoted hcomment _ _))
    | cons c cs =>
      by_cases hc : c = quote
      · subst hc
        exact ⟨[], [], cs, rfl, .nil⟩
      rcases piece_cases hc cs with ⟨piece, rest, chars, hcs, hlt, hpiece⟩ | ⟨rfl, rfl⟩ |
        ⟨letter, width, digits, rest, hcs, hletter, hlen, hdigits, hinvalid⟩
      · rw [hcs] at hrun hlt ⊢
        cases rest with
        | nil =>
          rw [List.append_nil] at hrun
          exact absurd haccepts
            (not_accepts_of_inQuoted (run_piece_end hcomment hquote hpiece hrun))
        | cons d rest =>
          rw [run_piece hcomment (by simp) hpiece] at hrun
          obtain ⟨body, chars', rest', hrest, hbody⟩ := ih _ (hcs ▸ hlt) hrun rfl
          refine ⟨piece ++ body, chars ++ chars', rest', by rw [hrest, List.append_assoc], ?_⟩
          refine .cons (hpiece.mono fun base hnext => ?_) hbody
          rw [hrest]
          exact hnext.append _
      · rw [run_singleton (step_insideQuoted_slash hcomment text offset)] at hrun
        obtain rfl := Except.ok.inj hrun
        exact absurd haccepts (not_accepts_of_inQuoted (inQuoted_insideQuoted hcomment _ _))
      · have hsome : digits ≠ [] := by
          rintro rfl
          have := (namedEscape?_eq_none_of_hexEscapeWidth? hletter).2.2
          rw [List.length_nil] at hlen
          omega
        rw [hcs, run_hexLetter hcomment hletter] at hrun
        obtain ⟨last, hhex⟩ := run_hex (s := s) hcomment text rest letter width
          digits [] hdigits hsome hlen (offset + '\\'.utf8Size + letter.utf8Size)
        rw [hhex, List.nil_append, State.addCodePoint, if_neg hinvalid] at hrun
        cases hrun

/-! ## Heads

A head is nothing, bare or quoted, with gaps around it. Which one it is shows in the first
character after the gap, and a comment that does not end goes to the end of the source. -/

/-- The reader goes to the end over a comment that does not end. -/
theorem run_openComment (hmode : s.mode.IsOutside) (hcomment : s.inComment = false)
    {src : List Char} (h : OpenComment src) (offset : Nat) :
    s.run offset src = .ok { s with inComment := true } := by
  obtain ⟨line, rfl, hline⟩ := h
  rw [run_cons_of_eq _ (step_semicolon hmode hcomment offset)]
  exact run_comment_line rfl _ hline

/-- After a quoted head comes a gap, and then what may follow a head. -/
theorem exists_gap_afterQuoted (hmode : s.mode = .afterQuoted) (hcomment : s.inComment = false)
    {cs : List Char} (hrun : s.run offset cs = .ok e) :
    ∃ after rest, cs = after ++ rest ∧ Gap after ∧ HeadStop rest := by
  obtain ⟨after, rest, rfl, hgap, hstop⟩ := exists_gap cs
  refine ⟨after, rest, rfl, hgap, ?_⟩
  rw [run_append_of_eq _ (run_gap (Or.inl hmode) hcomment hgap offset)] at hrun
  cases hstop with
  | nil => exact .nil
  | comment h => exact .comment h
  | @char c rest hc hsemi =>
    by_cases hdelimiter : c = '(' ∨ c = ',' ∨ c = ')'
    · exact .delimiter rest hdelimiter
    · rw [State.run, State.step, if_neg (by simp [hcomment]), hmode] at hrun
      simp only [State.inAfterQuoted, if_neg hdelimiter, if_neg hsemi, if_neg hc] at hrun
      cases hrun

/-- Where the reader gets to the end, a source begins with a head. -/
theorem exists_head (hfresh : Fresh s) {cs : List Char} (hrun : s.run offset cs = .ok e)
    (haccepts : Accepts e) :
    ∃ head tag rest, cs = head ++ rest ∧ Head head tag ∧ HeadStop rest := by
  obtain ⟨src, text, rest, rfl, hbare, hstop⟩ := exists_bare cs
  obtain ⟨start, hsrc, hstart⟩ := run_bare hbare hfresh.mode hfresh.inComment offset
  rw [run_append_of_eq _ hsrc] at hrun
  -- A bare head goes on to a backslash, to a quote, or to what may follow a head.
  cases hstop with
  | head h => exact ⟨src, _, rest, rfl, .bare hbare, h⟩
  | slash =>
    have hstep (o : Nat) : ({ s with text := text.reverse ++ s.text, start := start } :
        State).step o '\\' =
          .ok { s with text := text.reverse ++ s.text, start := start, mode := .headEscape } := by
      simp [State.step, hfresh.inComment, hfresh.mode, State.inHead]
    rw [run_singleton (hstep _)] at hrun
    obtain rfl := Except.ok.inj hrun
    rcases haccepts.mode with h | h | h <;> cases h
  | @quote c rest hquote =>
    have hstep (o : Nat) : ({ s with text := text.reverse ++ s.text, start := start } :
        State).step o c =
          if start.isSome then .error ⟨.unexpectedQuote c, o⟩
          else .ok ({ s with start := some o }.insideQuoted c .plain []) := by
      rcases hquote with rfl | rfl <;>
        simp [State.step, hfresh.inComment, hfresh.mode, State.inHead, State.insideQuoted]
    rw [State.run, hstep] at hrun
    cases start with
    | some o => cases hrun
    | none =>
      have hblank : Blank src := ⟨text, hbare, (hstart.mp rfl).2⟩
      obtain ⟨body, chars, rest', rfl, hbody⟩ :=
        exists_body (s := { s with start := some _ }) hfresh.inComment hquote hrun haccepts
      have hrun' : (({ s with start := some (endOffset offset src) } : State).insideQuoted c .plain
          []).run _ (body ++ c :: rest') = .ok e := hrun
      rw [run_body (s := { s with start := some _ }) hfresh.inComment hquote hbody] at hrun'
      obtain ⟨after, rest'', rfl, hgap, hstop⟩ :=
        exists_gap_afterQuoted (s := { s with mode := .afterQuoted, text := _, start := _ }) rfl
          hfresh.inComment hrun'
      exact ⟨src ++ c :: body ++ c :: after, _, rest'', by simp, .quoted hblank hquote hbody hgap,
        hstop⟩

/-! ## Items

An item is a head and maybe a list. Lists hold items, so the two statements are proved together,
by induction on the length of the source (`exists_item`, `readsItems`). -/

variable {s' : State} {x : Sexpr} {blank : Bool}

theorem ItemRead.openLists (h : ItemRead s s' x blank) : s'.openLists = s.openLists := by
  cases h with
  | leaf h => exact h.kept.1
  | list hafter _ => exact hafter.openLists

theorem ItemRead.isOutside (h : ItemRead s s' x blank) (hfresh : Fresh s) :
    s'.mode.IsOutside ∧ s'.inComment = false := by
  cases h with
  | leaf h =>
    cases h with
    | bare => exact ⟨Or.inl hfresh.mode, hfresh.inComment⟩
    | quoted => exact ⟨Or.inr (Or.inl rfl), hfresh.inComment⟩
  | list hafter _ => exact ⟨Or.inr (Or.inr hafter.mode), hafter.inComment⟩

/-- What may follow an item: the end, a comma, a closing parenthesis, or a comment that does not
end. -/
inductive ItemStop : List Char → Prop where
  | ended {src : List Char} (h : Trailer src) : ItemStop src
  | comma (rest : List Char) : ItemStop (',' :: rest)
  | close (rest : List Char) : ItemStop (')' :: rest)

/-- After a list comes a gap, and then what may follow an item. -/
theorem exists_gap_afterList (hmode : s.mode = .afterList) (hcomment : s.inComment = false)
    {cs : List Char} (hrun : s.run offset cs = .ok e) :
    ∃ after rest, cs = after ++ rest ∧ Gap after ∧ ItemStop rest := by
  obtain ⟨after, rest, rfl, hgap, hstop⟩ := exists_gap cs
  refine ⟨after, rest, rfl, hgap, ?_⟩
  rw [run_append_of_eq _ (run_gap (Or.inr hmode) hcomment hgap offset)] at hrun
  cases hstop with
  | nil => exact .ended (Or.inl rfl)
  | comment h => exact .ended (Or.inr h)
  | @char c rest hc hsemi =>
    by_cases hcomma : c = ','
    · subst hcomma
      exact .comma rest
    by_cases hclose : c = ')'
    · subst hclose
      exact .close rest
    rw [State.run, State.step, if_neg (by simp [hcomment]), hmode] at hrun
    simp only [State.inAfterList, if_neg hsemi, if_neg hcomma, if_neg hclose, if_neg hc] at hrun
    cases hrun

/-- Where the reader gets to the end from inside a list, the source begins with the items of that
list. -/
def ReadsItems (cs : List Char) : Prop :=
  ∀ {s e : State} {offset : Nat}, Fresh s → s.openLists ≠ [] → s.run offset cs = .ok e →
    Accepts e → ∃ inner after xs, cs = inner ++ ')' :: after ∧ Items inner xs

/-- The reader gets over a list to its closing parenthesis, and the list with its head is an
item. -/
theorem exists_list {head inner after : List Char} {tag : Value} {xs : List Sexpr}
    (hhead : Head head tag) (hinner : Items inner xs) (hfresh : Fresh s)
    (hrun : s.run offset (head ++ '(' :: (inner ++ ')' :: after)) = .ok e) :
    ∃ item y rest, head ++ '(' :: (inner ++ ')' :: after) = item ++ rest ∧ Item item y ∧
      ItemStop rest := by
  obtain ⟨ys, hitem, s', hread, hafter, -⟩ : ∃ ys,
      (∀ gap, Gap gap → Item (head ++ '(' :: inner ++ ')' :: gap) (.node tag ys)) ∧
      ∃ s', s.run offset (head ++ '(' :: inner ++ ')' :: []) = .ok s' ∧
        AfterList s' s.openLists ∧ ItemRead s s' (.node tag ys) false := by
    by_cases hblank : Blank inner
    · exact ⟨[], fun gap => .empty hhead hblank, run_list hhead .nil hfresh
        (fun s' hfresh' hcomma p ps hopen => run_blank_close hblank hfresh' hcomma hopen) offset⟩
    · exact ⟨xs, fun gap => .list hhead hblank hinner, run_list hhead .nil hfresh
        (fun s' hfresh' _ p ps hopen => run_items hinner hfresh' hopen (Or.inr hblank)) offset⟩
  have hsplit : head ++ '(' :: (inner ++ ')' :: after) =
      (head ++ '(' :: inner ++ ')' :: []) ++ after := by simp
  rw [hsplit, run_append_of_eq _ hread] at hrun
  obtain ⟨gap, rest, rfl, hgap, hstop⟩ := exists_gap_afterList hafter.mode hafter.inComment hrun
  exact ⟨_, _, rest, by simp, hitem gap hgap, hstop⟩

/-- Where the reader gets to the end, a source begins with an item, if it does so with the items of
the lists inside. -/
theorem exists_item (hfresh : Fresh s) {cs : List Char} (hrun : s.run offset cs = .ok e)
    (haccepts : Accepts e) (hinner : ∀ ds, ds.length < cs.length → ReadsItems ds) :
    ∃ item y rest, cs = item ++ rest ∧ Item item y ∧ ItemStop rest := by
  obtain ⟨head, tag, rest, rfl, hhead, hstop⟩ := exists_head hfresh hrun haccepts
  cases hstop with
  | nil => exact ⟨head, _, [], rfl, .leaf hhead, .ended (Or.inl rfl)⟩
  | comment h => exact ⟨head, _, rest, rfl, .leaf hhead, .ended (Or.inr h)⟩
  | @delimiter c rest hc =>
    rcases hc with rfl | rfl | rfl
    · obtain ⟨s₁, blank, hrun₁, hread, -⟩ := run_head hhead hfresh offset
      obtain ⟨s₂, hstep, hfresh₂, -, hopen, -⟩ := hread.open hfresh (endOffset offset head)
      have hrest := hrun
      rw [run_append_of_eq _ hrun₁, run_cons_of_eq _ hstep] at hrest
      obtain ⟨inner, after, xs, rfl, hitems⟩ :=
        hinner rest (by simp; omega) hfresh₂ (by simp [hopen]) hrest haccepts
      exact exists_list hhead hitems hfresh hrun
    · exact ⟨head, _, ',' :: rest, rfl, .leaf hhead, .comma rest⟩
    · exact ⟨head, _, ')' :: rest, rfl, .leaf hhead, .close rest⟩

theorem readsItems (cs : List Char) : ReadsItems cs := by
  induction hn : cs.length using Nat.strongRecOn generalizing cs with
  | _ n ih =>
    subst hn
    intro s e offset hfresh hopen hrun haccepts
    obtain ⟨item, x, rest, rfl, hitem, hstop⟩ :=
      exists_item hfresh hrun haccepts fun ds hlt => ih _ hlt ds rfl
    obtain ⟨s₁, blank, hrun₁, hread, -⟩ := run_item hitem hfresh offset
    obtain ⟨hmode, hcomment⟩ := hread.isOutside hfresh
    rw [run_append_of_eq _ hrun₁] at hrun
    cases hstop with
    | ended h =>
      -- The list is still open at the end of the source.
      have hend : e.openLists = s.openLists := by
        rcases h with rfl | h
        · obtain rfl := Except.ok.inj hrun
          exact hread.openLists
        · rw [run_openComment hmode hcomment h] at hrun
          obtain rfl := Except.ok.inj hrun
          exact hread.openLists
      exact absurd (hend ▸ haccepts.openLists) hopen
    | close rest => exact ⟨item, rest, [x], rfl, .one hitem⟩
    | comma rest =>
      obtain ⟨p, ps, hlists⟩ := List.exists_cons_of_ne_nil hopen
      obtain ⟨s₂, hstep, hfresh₂, -, hopen₂, -⟩ :=
        hread.comma hfresh (endOffset offset item) hlists
      rw [run_cons_of_eq _ hstep] at hrun
      obtain ⟨inner, after, xs, rfl, hitems⟩ :=
        ih rest.length (by simp; omega) rest rfl hfresh₂ (by simp [hopen₂]) hrun haccepts
      exact ⟨item ++ ',' :: inner, after, x :: xs, by simp, .more hitem hitems⟩

/-! ## Documents

A document is one item, as outside of all lists nothing may follow it. The converse
(`read?_of_document`) is the run over what the grammar derives. -/

/-- Outside of all lists there is no comma and no closing parenthesis after an item. -/
theorem ItemRead.step_outside (h : ItemRead {} s' x blank) {c : Char} (hc : c = ',' ∨ c = ')')
    (offset : Nat) : ∃ f, s'.step offset c = .error f := by
  cases h with
  | leaf h =>
    rw [h.step_delimiter fresh_init offset (Or.inr hc), State.delimiter, h.kept.1]
    rcases hc with rfl | rfl <;> exact ⟨_, rfl⟩
  | list hafter _ =>
    rw [State.step, if_neg (by simp [hafter.inComment]), hafter.mode]
    rcases hc with rfl | rfl <;>
      simp [State.inAfterList, State.delimiter, hafter.openLists]

/-- A source that the reader goes over is a document. -/
theorem exists_document {cs : List Char} (hrun : State.run {} 0 cs = .ok e) (haccepts : Accepts e) :
    ∃ y, Document cs y := by
  obtain ⟨item, y, rest, rfl, hitem, hstop⟩ :=
    exists_item fresh_init hrun haccepts fun ds _ => readsItems ds
  obtain ⟨s₁, blank, hrun₁, hread, -⟩ := run_item hitem fresh_init 0
  rw [run_append_of_eq _ hrun₁] at hrun
  have refused {c : Char} {tail : List Char} (hc : c = ',' ∨ c = ')')
      (h : s₁.run (endOffset 0 item) (c :: tail) = .ok e) : False := by
    obtain ⟨f, hstep⟩ := hread.step_outside hc (endOffset 0 item)
    rw [State.run, hstep] at h
    cases h
  cases hstop with
  | ended h => exact ⟨y, item, rest, rfl, hitem, h⟩
  | comma => exact (refused (Or.inl rfl) hrun).elim
  | close => exact (refused (Or.inr rfl) hrun).elim

/-- The end of the source does not ask whether a comment is open. -/
theorem finish_inComment (s : State) (inComment : Bool) (offset : Nat) :
    ({ s with inComment := inComment } : State).finish offset = s.finish offset := by
  have hend : (({ s with inComment := inComment } : State).endHead offset true).nodes =
      (s.endHead offset true).nodes := by
    cases htag : s.pendingTag? true with
    | none =>
      rw [endHead_of_none htag, endHead_of_none (s := { s with inComment := inComment }) htag]
    | some tag =>
      rw [endHead_of_some htag, endHead_of_some (s := { s with inComment := inComment }) htag]
  simp only [State.finish, hend]

/-- The reader goes over every document, and its arena holds what the document says. -/
theorem read?_of_document {source : String} (h : Document source.toList x) :
    ∃ t, Tree.read? source = .ok t ∧ t.Holds x := by
  obtain ⟨item, trailer, hsource, hitem, htrailer⟩ := h
  obtain ⟨s₁, blank, hrun, hread, -⟩ := run_item hitem fresh_init 0
  obtain ⟨hmode, hcomment⟩ := hread.isOutside fresh_init
  obtain ⟨t, hfinish, hholds⟩ := hread.finish source.utf8ByteSize
  refine ⟨t, ?_, hholds⟩
  rw [Tree.read?, hsource, run_append_of_eq _ hrun]
  rcases htrailer with rfl | h
  · exact hfinish
  · rw [run_openComment hmode hcomment h]
    exact (finish_inComment s₁ true _).trans hfinish

theorem accepts_of_finish {t : Tree} (h : e.finish offset = .ok t) : Accepts e := by
  have hopen (h : e.mode.IsOutside) (hfinish : e.finish offset = .ok t) : e.openLists = [] := by
    by_contra hsome
    have hsome : e.openLists.isEmpty = false := by
      rw [Bool.eq_false_iff, ne_eq, List.isEmpty_iff]
      exact hsome
    rcases h with h | h | h <;> simp [State.finish, h, hsome] at hfinish
  cases hmode : e.mode with
  | head => exact ⟨Or.inl hmode, hopen (Or.inl hmode) h⟩
  | headEscape => rw [State.finish, hmode] at h; cases h
  | quoted quote mode => rw [State.finish, hmode] at h; cases h
  | afterQuoted => exact ⟨Or.inr (Or.inl hmode), hopen (Or.inr (Or.inl hmode)) h⟩
  | afterList => exact ⟨Or.inr (Or.inr hmode), hopen (Or.inr (Or.inr hmode)) h⟩

end SexprAsm.Reader

namespace SexprAsm

open Reader Grammar

/-- What the reader makes of a source is a document laid out in pre-order. -/
theorem Tree.read?_ok {source : String} {t : Tree} (h : Tree.read? source = .ok t) :
    ∃ x, Document source.toList x ∧ t.Holds x := by
  obtain ⟨e, hrun, hfinish⟩ : ∃ e, State.run {} 0 source.toList = .ok e ∧
      e.finish source.utf8ByteSize = .ok t := by
    rw [Tree.read?] at h
    cases hrun : State.run {} 0 source.toList with
    | error f => rw [hrun] at h; cases h
    | ok e => exact ⟨e, rfl, by rw [hrun] at h; exact h⟩
  obtain ⟨x, hdocument⟩ := exists_document hrun (accepts_of_finish hfinish)
  obtain ⟨t', hread, hholds⟩ := read?_of_document hdocument
  rw [h] at hread
  obtain rfl := Except.ok.inj hread
  exact ⟨x, hdocument, hholds⟩

theorem Tree.read_eq_ok_iff {source : String} {t : Tree} :
    Tree.read source = .ok t ↔ Tree.read? source = .ok t := by
  rw [Tree.read]
  cases Tree.read? source with
  | ok t' => simp
  | error f => simp

/-- The reader accepts exactly the documents of the grammar. The tree that it makes holds what a
document says the source is, and it makes such a tree of every document. -/
theorem Tree.read_iff_document (source : String) :
    (∀ t, Tree.read source = .ok t → ∃ x, Document source.toList x ∧ t.Holds x) ∧
      ∀ x, (∃ t, Tree.read source = .ok t ∧ t.Holds x ∧ t.sexpr Tree.root = x) ↔
        Document source.toList x := by
  refine ⟨fun t hread => Tree.read?_ok (Tree.read_eq_ok_iff.mp hread), fun x => ⟨?_, ?_⟩⟩
  · rintro ⟨t, hread, -, rfl⟩
    obtain ⟨x, hdocument, hholds⟩ := Tree.read?_ok (Tree.read_eq_ok_iff.mp hread)
    rwa [hholds.sexpr_eq]
  · intro h
    obtain ⟨t, hread, hholds⟩ := read?_of_document h
    exact ⟨t, Tree.read_eq_ok_iff.mpr hread, hholds, hholds.sexpr_eq⟩

/-- A comment within a bare head, an escaped quote in a quoted one, an item with nothing in it between
two commas, and a list without a head. -/
theorem Tree.read_iff_document_commented :
    let source := "f; a\n o(\"\\\"\" , , (a))"
    let x : Sexpr := .node (.string "f o") [.node (.string "\"") [], .node .null [],
      .node .null [.node (.string "a") []]]
    Document source.toList x ∧ ∃ t, Tree.read source = .ok t ∧ t.Holds x := by
  intro source x
  let t : Tree := ⟨#[⟨.string "f o", [1, 2, 3], none, some 0⟩, ⟨.string "\"", [], some 0, some 8⟩,
    ⟨.null, [], some 0, some 15⟩, ⟨.null, [4], some 0, some 17⟩, ⟨.string "a", [], some 3, some 18⟩]⟩
  have hread : Tree.read source = .ok t := by decide +kernel
  obtain ⟨y, hdocument, hholds⟩ := (Tree.read_iff_document source).1 t hread
  have hy : y = x := hholds.sexpr_eq.symm
  rw [hy] at hdocument hholds
  exact ⟨hdocument, t, hread, hholds⟩

end SexprAsm
