import Mathlib.Data.List.DropRight
import Mathlib.Data.String.Basic
import Mathlib.Tactic.Common
import SexprAsm.Position
import SexprAsm.Proofs.Text.Cut

/-!
# Lines and columns as counts

A position is found by a walk that keeps one flag. Here it is counted instead: every carriage
return ends a line, and so does every line feed that no carriage return precedes at once; the
column counts the characters since the last of either (`walk_eq`).

With every character the position moves on, except over the line feed of a carriage return and a
line feed (`Cursor.precedes_advance`). So along the character boundaries of a source the positions
increase but for that one case (`walk_append`).

Main statement: `locate_counts`.
-/

namespace SexprAsm.Position

open Text

/-! ## Counting

The two counts of a position with the lemma that each needs: what one more character adds.
Appending at the end is the right induction, since whether a line feed counts depends on the
character before it and on none behind. -/

/-- A line feed that no carriage return precedes at once stands at a place of a text. -/
def IsLoneFeed (cs : List Char) (i : Nat) : Prop :=
  cs[i]? = some '\n' ∧ ¬ (0 < i ∧ cs[i - 1]? = some '\r')

instance (cs : List Char) (i : Nat) : Decidable (IsLoneFeed cs i) :=
  inferInstanceAs (Decidable (_ ∧ _))

/-- The places of these line feeds. -/
def loneFeeds (cs : List Char) : List Nat := (List.range cs.length).filter (IsLoneFeed cs ·)

/-- The characters after the last carriage return or line feed. -/
def lastLine (cs : List Char) : List Char := cs.rtakeWhile fun c => c ≠ '\r' ∧ c ≠ '\n'

/-- The position after some characters, by counting. -/
def counted (cs : List Char) : Position :=
  ⟨1 + cs.count '\r' + (loneFeeds cs).length, 1 + (lastLine cs).length⟩

theorem isLoneFeed_concat_of_lt {cs : List Char} {i : Nat} (h : i < cs.length) (c : Char) :
    IsLoneFeed (cs ++ [c]) i ↔ IsLoneFeed cs i := by
  rw [IsLoneFeed, IsLoneFeed, List.getElem?_append_left h,
    List.getElem?_append_left (show i - 1 < cs.length by omega)]

theorem isLoneFeed_concat (cs : List Char) (c : Char) :
    IsLoneFeed (cs ++ [c]) cs.length ↔ c = '\n' ∧ cs.getLast? ≠ some '\r' := by
  have hbefore : (0 < cs.length ∧ (cs ++ [c])[cs.length - 1]? = some '\r') ↔
      cs.getLast? = some '\r' := by
    rw [List.getLast?_eq_getElem?]
    cases cs with
    | nil => simp
    | cons d cs => rw [List.getElem?_append_left (by simp)]; simp
  rw [IsLoneFeed, hbefore, List.getElem?_concat_length, Option.some.injEq]

/-- One character more only brings its own place in. -/
theorem length_loneFeeds_concat (cs : List Char) (c : Char) :
    (loneFeeds (cs ++ [c])).length =
      (loneFeeds cs).length + if c = '\n' ∧ cs.getLast? ≠ some '\r' then 1 else 0 := by
  have hsame : (List.range cs.length).filter (IsLoneFeed (cs ++ [c]) ·) = loneFeeds cs :=
    List.filter_congr fun i hi =>
      decide_eq_decide.mpr (isLoneFeed_concat_of_lt (List.mem_range.mp hi) c)
  rw [loneFeeds, List.length_append, List.length_singleton, List.range_succ, List.filter_append,
    hsame, List.length_append]
  congr 1
  by_cases hlone : c = '\n' ∧ cs.getLast? ≠ some '\r'
  · rw [if_pos hlone, List.filter_singleton, decide_eq_true ((isLoneFeed_concat cs c).mpr hlone)]
    rfl
  · rw [if_neg hlone, List.filter_singleton,
      decide_eq_false (fun h => hlone ((isLoneFeed_concat cs c).mp h))]
    rfl

theorem lastLine_concat (cs : List Char) (c : Char) :
    lastLine (cs ++ [c]) = if c = '\r' ∨ c = '\n' then [] else lastLine cs ++ [c] := by
  rw [lastLine, List.rtakeWhile_concat]
  by_cases hc : c = '\r' ∨ c = '\n'
  · rw [if_pos hc, if_neg (by simpa only [decide_eq_true_eq, not_and_or, not_not] using hc)]
  · rw [if_neg hc, if_pos (by simpa only [decide_eq_true_eq, not_or] using hc)]
    rfl

/-! ## The walk

The walk is a fold, and `walk_eq` says what it has computed: the counted position, and whether it
has just passed a carriage return. The flag is part of the statement because the next character
depends on it. -/

/-- Where a walk over some characters ends. -/
def walk (cs : List Char) : Cursor := cs.foldl Cursor.advance {}

theorem walk_concat (cs : List Char) (c : Char) : walk (cs ++ [c]) = (walk cs).advance c := by
  rw [walk, List.foldl_append]
  rfl

/-- The walk counts, and its flag tells whether the last character is a carriage return. -/
theorem walk_eq (cs : List Char) : walk cs = ⟨counted cs, cs.getLast? = some '\r'⟩ := by
  induction cs using List.reverseRecOn with
  | nil => rfl
  | append_singleton cs c ih =>
    rw [walk_concat, ih, Cursor.advance, counted, counted, length_loneFeeds_concat, lastLine_concat,
      List.count_append, List.getLast?_concat]
    by_cases hreturn : c = '\r'
    · subst hreturn
      simp [Nat.add_assoc, Nat.add_comm]
    · by_cases hfeed : c = '\n'
      · subst hfeed
        -- The flag decides whether the line feed ends a line of its own.
        by_cases hlast : cs.getLast? = some '\r'
        · simp [hlast]
        · simp [hlast, Nat.add_assoc]
      · simp [hreturn, hfeed, Nat.add_assoc]

/-! ## Positions along a text

One character moves the position on, with the single exception of a line feed right after a
carriage return. `Sane` is what the walk needs to get over that exception: after the line feed it
still stands at the beginning of a line, so the character behind it moves on from there. -/

/-- The order of positions: by line, and by column in a line. -/
def Precedes (p q : Position) : Prop := p.line < q.line ∨ p.line = q.line ∧ p.column < q.column

theorem Precedes.trans {p q r : Position} (h : p.Precedes q) (h' : q.Precedes r) :
    p.Precedes r := by
  unfold Precedes at h h' ⊢
  omega

/-- A walk that has just passed a carriage return stands at the beginning of a line. -/
def Cursor.Sane (k : Cursor) : Prop := k.afterReturn = true → k.position.column = 1

theorem Cursor.sane_advance (k : Cursor) (c : Char) : (k.advance c).Sane := by
  unfold Cursor.advance
  split
  · exact fun _ => rfl
  · split <;> intro hafter <;> cases hafter

/-- A character moves the position on, unless it is the line feed after a carriage return. -/
theorem Cursor.precedes_advance (k : Cursor) {c : Char} (h : ¬ (c = '\n' ∧ k.afterReturn)) :
    k.position.Precedes (k.advance c).position := by
  unfold Cursor.advance
  split
  · exact Or.inl (Nat.lt_succ_self _)
  · split
    next hfeed =>
      have hafter : ¬ k.afterReturn = true := fun hafter => h ⟨hfeed, hafter⟩
      rw [if_neg hafter]
      exact Or.inl (Nat.lt_succ_self _)
    next => exact Or.inr ⟨rfl, Nat.lt_succ_self _⟩

/-- That line feed leaves it where it is, and the next character moves it on. -/
theorem Cursor.advance_feed {k : Cursor} (hsane : k.Sane) (hafter : k.afterReturn = true) :
    k.advance '\n' = ⟨k.position, false⟩ := by
  have hcolumn : k.position.column = 1 := hsane hafter
  rw [Cursor.advance, if_neg (by decide), if_pos rfl, if_pos hafter, ← hcolumn]

theorem Cursor.precedes_foldl {k : Cursor} (hsane : k.Sane) {cs : List Char} (hsome : cs ≠ [])
    (h : ¬ (cs = ['\n'] ∧ k.afterReturn)) :
    k.position.Precedes (cs.foldl Cursor.advance k).position := by
  induction cs generalizing k with
  | nil => exact absurd rfl hsome
  | cons c cs ih =>
    rw [List.foldl_cons]
    by_cases hpair : c = '\n' ∧ k.afterReturn
    · -- The position stays, and more characters follow.
      obtain ⟨rfl, hafter⟩ := hpair
      have hrest : cs ≠ [] := fun hnil => h ⟨by rw [hnil], hafter⟩
      have hstay := Cursor.advance_feed hsane hafter
      have hmove := ih (k.sane_advance '\n') hrest (by rw [hstay]; rintro ⟨-, hafter⟩; cases hafter)
      rwa [hstay] at hmove ⊢
    · have hmove := k.precedes_advance hpair
      by_cases hrest : cs = [] ∨ cs = ['\n'] ∧ (k.advance c).afterReturn
      · rcases hrest with rfl | ⟨rfl, hafter⟩
        · exact hmove
        · rwa [List.foldl_cons, Cursor.advance_feed (k.sane_advance c) hafter]
      · rw [not_or] at hrest
        exact hmove.trans (ih (k.sane_advance c) hrest.1 hrest.2)

theorem sane_walk (cs : List Char) : (walk cs).Sane := by
  induction cs using List.reverseRecOn with
  | nil => exact fun h => by cases h
  | append_singleton cs c _ => exact walk_concat cs c ▸ (walk cs).sane_advance c

/-- More characters move the position on, unless they only are the line feed after a carriage
return. -/
theorem walk_append (cs : List Char) {ds : List Char} (hsome : ds ≠ [])
    (h : ¬ (ds = ['\n'] ∧ cs.getLast? = some '\r')) :
    (walk cs).position.Precedes (walk (cs ++ ds)).position := by
  have hafter : (walk cs).afterReturn = true ↔ cs.getLast? = some '\r' := by
    rw [walk_eq]
    exact decide_eq_true_iff
  rw [walk, walk, List.foldl_append]
  exact Cursor.precedes_foldl (sane_walk cs) hsome (by rwa [← hafter] at h)

/-! ## Byte offsets

Positions are asked for by byte offsets. `StartBefore` gives the characters that an offset stands
behind, also where it lies inside of a character or past the end, and with it the lemmas on
characters are carried over to offsets. -/

/-- The characters of a source that start before a byte offset. -/
structure StartBefore (source : String) (offset : Nat) (before : List Char) : Prop where
  front : before <+: source.toList
  mem_iff : ∀ i < source.toList.length,
    i < before.length ↔ String.utf8Len (source.toList.take i) < offset

theorem startingBefore_spec (cs : List Char) (offset : Nat) :
    startingBefore cs offset <+: cs ∧ ∀ i < cs.length,
      i < (startingBefore cs offset).length ↔ String.utf8Len (cs.take i) < offset := by
  induction cs generalizing offset with
  | nil => exact ⟨List.nil_prefix, fun i hi => by cases hi⟩
  | cons c cs ih =>
    have hpos : 0 < c.utf8Size := c.utf8Size_pos
    obtain ⟨hfront, hmem⟩ := ih (offset - c.utf8Size)
    rw [startingBefore]
    split
    next hzero => exact ⟨List.nil_prefix, fun i hi => by simp [hzero]⟩
    next hzero =>
      refine ⟨List.cons_prefix_cons.mpr ⟨rfl, hfront⟩, fun i hi => ?_⟩
      cases i with
      | zero => simpa using Nat.pos_of_ne_zero hzero
      | succ i =>
        rw [List.length_cons] at hi
        rw [List.take_succ_cons, String.utf8Len_cons, List.length_cons]
        have := hmem i (by omega)
        omega

theorem locate_boundary (front rest : String) :
    locate (front ++ rest) front.utf8ByteSize = (walk front.toList).position := by
  have hsize : front.utf8ByteSize = byteLength front.toList := by
    rw [byteLength, String.ofList_toList]
  rw [locate, String.toList_append, hsize, startingBefore_append]
  rfl

/-- Of two fronts of a source the longer one goes on from the shorter one. -/
theorem exists_between {front tail front' tail' : String} (h : front ++ tail = front' ++ tail')
    (hlt : front.utf8ByteSize < front'.utf8ByteSize) :
    ∃ between ≠ [], front'.toList = front.toList ++ between := by
  have hchars := congrArg String.toList h
  rw [String.toList_append, String.toList_append, List.append_eq_append_iff] at hchars
  rcases hchars with ⟨between, hbetween, -⟩ | ⟨between, hbetween, -⟩
  · refine ⟨between, ?_, hbetween⟩
    rintro rfl
    rw [List.append_nil, String.toList_inj] at hbetween
    rw [hbetween] at hlt
    exact Nat.lt_irrefl _ hlt
  · have hle : front'.utf8ByteSize ≤ front.utf8ByteSize := by
      rw [← String.ofList_toList (s := front), hbetween, String.ofList_append,
        String.ofList_toList, String.utf8ByteSize_append]
      omega
    omega

/-- The second of two boundaries comes right after the line feed that a carriage return and a line
feed end with, and the first one before it. -/
def FeedBetween (source : String) (o₁ o₂ : Nat) : Prop :=
  ∃ lead rest, source = lead ++ "\r\n" ++ rest ∧ o₁ = (lead ++ "\r").utf8ByteSize ∧
    o₂ = (lead ++ "\r\n").utf8ByteSize

/-- Positions count lines and columns. For any offset, also inside of a character or past the end,
they count the line ends and the characters that start before it; and from one character boundary
to a later one they increase, except that the line feed after a carriage return changes nothing. -/
theorem locate_counts (source : String) :
    (∀ offset, ∃ before, StartBefore source offset before ∧
      locate source offset =
        ⟨1 + before.count '\r' + (loneFeeds before).length, 1 + (lastLine before).length⟩) ∧
    ∀ o₁ o₂, String.Pos.Raw.IsValid source ⟨o₁⟩ → String.Pos.Raw.IsValid source ⟨o₂⟩ → o₁ < o₂ →
      (FeedBetween source o₁ o₂ → locate source o₁ = locate source o₂) ∧
      (¬ FeedBetween source o₁ o₂ → (locate source o₁).Precedes (locate source o₂)) := by
  refine ⟨fun offset => ?_, fun o₁ o₂ h₁ h₂ hlt => ⟨?_, fun hfeed => ?_⟩⟩
  · obtain ⟨hfront, hmem⟩ := startingBefore_spec source.toList offset
    refine ⟨_, ⟨hfront, hmem⟩, ?_⟩
    exact congrArg Cursor.position (walk_eq (startingBefore source.toList offset))
  · rintro ⟨lead, rest, rfl, rfl, rfl⟩
    have hsplit : lead ++ "\r\n" ++ rest = (lead ++ "\r") ++ ("\n" ++ rest) := by
      rw [String.append_assoc, String.append_assoc]
      rfl
    have hlast : (lead ++ "\r").toList = lead.toList ++ ['\r'] := String.toList_append
    have hpair : (lead ++ "\r\n").toList = lead.toList ++ ['\r'] ++ ['\n'] := by simp
    have hafter : (walk (lead.toList ++ ['\r'])).afterReturn = true := by simp [walk_eq]
    rw [locate_boundary, hsplit, locate_boundary, hlast, hpair, walk_concat _ '\n',
      Cursor.advance_feed (sane_walk _) hafter]
  · obtain ⟨front, tail, rfl, hfront⟩ := String.Pos.Raw.isValid_iff_exists_append.mp h₁
    obtain ⟨front', tail', hsource, hfront'⟩ := String.Pos.Raw.isValid_iff_exists_append.mp h₂
    obtain rfl : o₁ = front.utf8ByteSize := congrArg String.Pos.Raw.byteIdx hfront
    obtain rfl : o₂ = front'.utf8ByteSize := congrArg String.Pos.Raw.byteIdx hfront'
    obtain ⟨between, hsome, hbetween⟩ := exists_between hsource hlt
    rw [locate_boundary, hsource, locate_boundary, hbetween]
    refine walk_append _ hsome fun ⟨hpair, hlast⟩ => hfeed ?_
    -- The characters in between are that line feed, so the source shows the pair.
    obtain ⟨lead, hlead⟩ := List.getLast?_eq_some_iff.mp hlast
    have hfront : front = String.ofList lead ++ "\r" := by
      rw [← String.toList_inj, hlead]
      simp
    have hfront' : front' = String.ofList lead ++ "\r\n" := by
      rw [← String.toList_inj, hbetween, hlead, hpair]
      simp
    exact ⟨String.ofList lead, tail', by rw [hsource, hfront'], by rw [hfront], by rw [hfront']⟩

/-- Over a carriage return with its line feed, and over the line feed alone. -/
theorem locate_counts_pair :
    (String.Pos.Raw.IsValid "é\r\n" ⟨2⟩ ∧ String.Pos.Raw.IsValid "é\r\n" ⟨3⟩ ∧
        String.Pos.Raw.IsValid "é\r\n" ⟨4⟩) ∧
      (¬ FeedBetween "é\r\n" 2 4 ∧ (locate "é\r\n" 2).Precedes (locate "é\r\n" 4)) ∧
      FeedBetween "é\r\n" 3 4 ∧ locate "é\r\n" 3 = locate "é\r\n" 4 := by
  have hvalid (front rest : String) : String.Pos.Raw.IsValid (front ++ rest) front.rawEndPos :=
    String.Pos.Raw.isValid_iff_exists_append.mpr ⟨front, rest, rfl, rfl⟩
  have h₂ : String.Pos.Raw.IsValid "é\r\n" ⟨2⟩ := hvalid "é" "\r\n"
  have h₃ : String.Pos.Raw.IsValid "é\r\n" ⟨3⟩ := hvalid "é\r" "\n"
  have h₄ : String.Pos.Raw.IsValid "é\r\n" ⟨4⟩ := hvalid "é\r\n" ""
  have hpair : ¬ FeedBetween "é\r\n" 2 4 := by
    rintro ⟨lead, rest, -, hfirst, hsecond⟩
    rw [String.utf8ByteSize_append] at hfirst hsecond
    have hreturn : "\r".utf8ByteSize = 1 := by decide
    have hboth : "\r\n".utf8ByteSize = 2 := by decide
    omega
  have hfeed : FeedBetween "é\r\n" 3 4 := ⟨"é", "", by decide, by decide, by decide⟩
  obtain ⟨-, hincrease⟩ := locate_counts "é\r\n"
  exact ⟨⟨h₂, h₃, h₄⟩, ⟨hpair, (hincrease 2 4 h₂ h₄ (by decide)).2 hpair⟩,
    hfeed, (hincrease 3 4 h₃ h₄ (by decide)).1 hfeed⟩

end SexprAsm.Position
