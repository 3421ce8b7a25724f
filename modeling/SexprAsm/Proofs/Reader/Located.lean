import Mathlib.Data.String.Basic
import SexprAsm.Proofs.Reader.Items

/-!
# Where the tags of a source text are

The grammar says what a source text stands for; here it also says where. A tag is known by a place
in its head (`HeadAt`): the opening quote, or the first character of a bare head that is not
ignorable, which comes after the backslash if it is escaped. A head with neither is empty, and known
by its end, which is the place of the delimiter that follows. `ItemAt` and `ItemsAt` add these
places up to byte offsets in the source.

Every derivation of the grammar has its places (`exists_itemAt`). Along the source they increase
(`ItemAt.increasing`), and each of them is the place of its tag in the source (`ItemAt.tagAt`).
-/

namespace SexprAsm.Grammar

open Text

/-- An S-expression with the place of each tag. -/
inductive Located where
  | node (tag : Value) (offset : Nat) (items : List Located)

namespace Located

mutual

/-- The S-expression without the places. -/
def sexpr : Located → Sexpr
  | .node tag _ items => .node tag (sexprs items)

/-- A row of S-expressions without the places. -/
def sexprs : List Located → List Sexpr
  | [] => []
  | y :: ys => y.sexpr :: sexprs ys

end

mutual

/-- All tags with their places, a tag before those of its items. -/
def tokens : Located → List (Value × Nat)
  | .node tag offset items => (tag, offset) :: tokensAll items

/-- All tags of a row with their places. -/
def tokensAll : List Located → List (Value × Nat)
  | [] => []
  | y :: ys => y.tokens ++ tokensAll ys

end

end Located

/-- A head with its tag, and the place of the tag in it, in bytes. -/
inductive HeadAt : List Char → Value → Nat → Prop where
  /-- At the opening quote. -/
  | quoted {before body text after : List Char} {quote : Char} (hbefore : Blank before)
      (hquote : IsQuote quote) (hbody : Body quote body text) (hafter : Gap after) :
      HeadAt (before ++ quote :: body ++ quote :: after) (.string (String.ofList text))
        (String.utf8Len before)
  /-- At the first character that is not ignorable. -/
  | plain {before src text : List Char} {c : Char} (hbefore : Blank before) (hc : c ∉ structural)
      (hsome : ¬ isIgnorable c) (h : Bare src text) :
      HeadAt (before ++ c :: src) (bareValue (c :: text)) (String.utf8Len before)
  /-- At that character, which is escaped. -/
  | escaped {before src text : List Char} {c : Char} (hbefore : Blank before)
      (hsome : ¬ isIgnorable c) (h : Bare src text) :
      HeadAt (before ++ '\\' :: c :: src) (bareValue (c :: text))
        (String.utf8Len before + '\\'.utf8Size)
  /-- At the end of a head that is empty. -/
  | blank {src : List Char} (h : Blank src) : HeadAt src .null (String.utf8Len src)

mutual

/-- An item that starts at a byte of the source. -/
inductive ItemAt : Nat → List Char → Located → Prop where
  | leaf {base place : Nat} {head : List Char} {tag : Value} (hhead : HeadAt head tag place) :
      ItemAt base head (.node tag (base + place) [])
  | empty {base place : Nat} {head inner after : List Char} {tag : Value}
      (hhead : HeadAt head tag place) (hinner : Blank inner) (hafter : Gap after) :
      ItemAt base (head ++ '(' :: inner ++ ')' :: after) (.node tag (base + place) [])
  | list {base place : Nat} {head inner after : List Char} {tag : Value} {ys : List Located}
      (hhead : HeadAt head tag place) (hsome : ¬ Blank inner)
      (hinner : ItemsAt (base + String.utf8Len head + '('.utf8Size) inner ys) (hafter : Gap after) :
      ItemAt base (head ++ '(' :: inner ++ ')' :: after) (.node tag (base + place) ys)

/-- A row of items that starts at a byte of the source. -/
inductive ItemsAt : Nat → List Char → List Located → Prop where
  | one {base : Nat} {src : List Char} {y : Located} (h : ItemAt base src y) : ItemsAt base src [y]
  | more {base : Nat} {src rest : List Char} {y : Located} {ys : List Located}
      (h : ItemAt base src y) (hrest : ItemsAt (base + String.utf8Len src + ','.utf8Size) rest ys) :
      ItemsAt base (src ++ ',' :: rest) (y :: ys)

end

/-! ## Heads

Every head has a place, and only one. Blanks in front of it move the place along. -/

theorem Bare.append {src src' text text' : List Char} (h : Bare src text) (h' : Bare src' text') :
    Bare (src ++ src') (text ++ text') := by
  induction h with
  | nil => exact h'
  | plain hc _ ih => exact .plain hc ih
  | escaped _ ih => exact .escaped ih
  | @comment line src text hline _ ih =>
    rw [List.append_assoc, List.cons_append]
    exact .comment hline ih

/-- Trimming drops ignorable characters in front. -/
theorem bareValue_append {blanks : List Char} (hblanks : ∀ c ∈ blanks, isIgnorable c)
    (text : List Char) : bareValue (blanks ++ text) = bareValue text := by
  rw [bareValue, bareValue, trimBy, trimBy, List.dropWhile_append_of_pos hblanks]

theorem HeadAt.head {src : List Char} {tag : Value} {place : Nat} (h : HeadAt src tag place) :
    Head src tag := by
  cases h with
  | quoted hbefore hquote hbody hafter => exact .quoted hbefore hquote hbody hafter
  | plain hbefore hc _ h =>
    obtain ⟨blanks, hbare, hblanks⟩ := hbefore
    rw [← bareValue_append hblanks]
    exact .bare (hbare.append (.plain hc h))
  | escaped hbefore _ h =>
    obtain ⟨blanks, hbare, hblanks⟩ := hbefore
    rw [← bareValue_append hblanks]
    exact .bare (hbare.append (.escaped h))
  | blank h =>
    obtain ⟨text, hbare, hblank⟩ := h
    have hnull : bareValue text = .null := by
      rw [bareValue, Reader.trimBy_eq_nil_iff.mpr hblank]
      rfl
    rw [← hnull]
    exact .bare hbare

theorem Blank.append {src src' : List Char} (h : Blank src) (h' : Blank src') :
    Blank (src ++ src') := by
  obtain ⟨text, hbare, hblank⟩ := h
  obtain ⟨text', hbare', hblank'⟩ := h'
  refine ⟨text ++ text', hbare.append hbare', fun c hc => ?_⟩
  exact (List.mem_append.mp hc).elim (hblank c) (hblank' c)

/-- What is blank in front of a head moves its place and nothing else. -/
theorem HeadAt.prepend {front src : List Char} {tag : Value} {place : Nat} (hfront : Blank front)
    (h : HeadAt src tag place) : HeadAt (front ++ src) tag (String.utf8Len front + place) := by
  cases h with
  | @quoted before body text after quote hbefore hquote hbody hafter =>
    rw [← String.utf8Len_append, List.append_assoc, ← List.append_assoc front, List.cons_append]
    have hquoted := HeadAt.quoted (hfront.append hbefore) hquote hbody hafter
    rwa [List.append_assoc, List.cons_append] at hquoted
  | plain hbefore hc hsome h =>
    rw [← String.utf8Len_append, ← List.append_assoc]
    exact .plain (hfront.append hbefore) hc hsome h
  | escaped hbefore hsome h =>
    rw [← Nat.add_assoc, ← String.utf8Len_append, ← List.append_assoc]
    exact .escaped (hfront.append hbefore) hsome h
  | blank h =>
    rw [← String.utf8Len_append]
    exact .blank (hfront.append h)

/-- Every bare head has its place: at the first character that is not ignorable, or at the end. -/
theorem Bare.exists_headAt {src text : List Char} (h : Bare src text) :
    ∃ place, HeadAt src (bareValue text) place := by
  have hempty : Blank [] := ⟨[], .nil, by simp⟩
  induction h with
  | nil => exact ⟨_, .blank hempty⟩
  | @plain c src text hc h ih =>
    by_cases hblank : isIgnorable c
    · have hone : ∀ d ∈ [c], isIgnorable d := by simpa using hblank
      have hsame : bareValue (c :: text) = bareValue text := bareValue_append hone text
      obtain ⟨place, hplace⟩ := ih
      rw [hsame]
      exact ⟨_, hplace.prepend ⟨[c], .plain hc .nil, hone⟩⟩
    · exact ⟨_, .plain hempty hc hblank h⟩
  | @escaped c src text h ih =>
    by_cases hblank : isIgnorable c
    · have hone : ∀ d ∈ [c], isIgnorable d := by simpa using hblank
      have hsame : bareValue (c :: text) = bareValue text := bareValue_append hone text
      obtain ⟨place, hplace⟩ := ih
      rw [hsame]
      exact ⟨_, hplace.prepend ⟨[c], .escaped .nil, hone⟩⟩
    · exact ⟨_, .escaped hempty hblank h⟩
  | @comment line src text hline h ih =>
    obtain ⟨place, hplace⟩ := ih
    have hfront : Blank (';' :: line ++ ['\n']) := ⟨[], .comment hline .nil, by simp⟩
    have hcomment := hplace.prepend hfront
    rw [List.append_assoc, List.singleton_append] at hcomment
    exact ⟨_, hcomment⟩

theorem exists_headAt {src : List Char} {tag : Value} (h : Head src tag) :
    ∃ place, HeadAt src tag place := by
  cases h with
  | quoted hbefore hquote hbody hafter => exact ⟨_, .quoted hbefore hquote hbody hafter⟩
  | bare h => exact h.exists_headAt

/-! ## Items

The places are added to the derivations of the grammar, items and rows of items at once. Leaving
them out gives the derivation again. -/

mutual

theorem ItemAt.item : ∀ {base : Nat} {src : List Char} {y : Located}, ItemAt base src y →
    Item src y.sexpr
  | _, _, _, .leaf hhead => .leaf hhead.head
  | _, _, _, .empty hhead hinner hafter => .empty hhead.head hinner hafter
  | _, _, _, .list hhead hsome hinner hafter => .list hhead.head hsome hinner.items hafter

theorem ItemsAt.items : ∀ {base : Nat} {src : List Char} {ys : List Located}, ItemsAt base src ys →
    Items src (Located.sexprs ys)
  | _, _, _, .one h => .one h.item
  | _, _, _, .more h hrest => .more h.item hrest.items

end

mutual

/-- Every item has its places. -/
theorem exists_itemAt : ∀ {src : List Char} {x : Sexpr}, Item src x →
    ∀ base, ∃ y : Located, ItemAt base src y ∧ y.sexpr = x
  | _, _, .leaf hhead, base => by
    obtain ⟨place, hplace⟩ := exists_headAt hhead
    exact ⟨_, .leaf hplace, rfl⟩
  | _, _, .empty hhead hinner hafter, base => by
    obtain ⟨place, hplace⟩ := exists_headAt hhead
    exact ⟨_, .empty hplace hinner hafter, rfl⟩
  | _, _, .list hhead hsome hinner hafter, base => by
    obtain ⟨place, hplace⟩ := exists_headAt hhead
    obtain ⟨ys, hys, rfl⟩ := exists_itemsAt hinner _
    exact ⟨_, .list hplace hsome hys hafter, rfl⟩

/-- Every row of items has its places. -/
theorem exists_itemsAt : ∀ {src : List Char} {xs : List Sexpr}, Items src xs →
    ∀ base, ∃ ys : List Located, ItemsAt base src ys ∧ Located.sexprs ys = xs
  | _, _, .one h, base => by
    obtain ⟨y, hy, rfl⟩ := exists_itemAt h base
    exact ⟨[y], .one hy, rfl⟩
  | _, _, .more h hrest, base => by
    obtain ⟨y, hy, rfl⟩ := exists_itemAt h base
    obtain ⟨ys, hys, rfl⟩ := exists_itemsAt hrest _
    exact ⟨y :: ys, .more hy hys, rfl⟩

end

/-! ## The order of the places

Each part of an item lies behind the one before it, with a delimiter between, so the places
increase. -/

theorem HeadAt.place_le {src : List Char} {tag : Value} {place : Nat} (h : HeadAt src tag place) :
    place ≤ String.utf8Len src := by
  cases h <;> simp [String.utf8Len_append]

mutual

/-- The places of an item are in it, or at its end. -/
theorem ItemAt.bounds : ∀ {base : Nat} {src : List Char} {y : Located}, ItemAt base src y →
    ∀ token ∈ y.tokens, base ≤ token.2 ∧ token.2 ≤ base + String.utf8Len src
  | _, _, _, .leaf hhead, token, htoken => by
    have hle := hhead.place_le
    obtain rfl := List.mem_singleton.mp htoken
    exact ⟨Nat.le_add_right _ _, Nat.add_le_add_left hle _⟩
  | _, _, _, .empty hhead _ _, token, htoken => by
    have hle := hhead.place_le
    obtain rfl := List.mem_singleton.mp htoken
    simp only [String.utf8Len_append]
    omega
  | _, _, _, .list hhead _ hinner _, token, htoken => by
    have hle := hhead.place_le
    simp only [String.utf8Len_append, String.utf8Len_cons]
    rcases List.mem_cons.mp htoken with rfl | htoken
    · dsimp only
      omega
    · have hinside := hinner.bounds token htoken
      omega

/-- The places of a row are in it, or at its end. -/
theorem ItemsAt.bounds : ∀ {base : Nat} {src : List Char} {ys : List Located},
    ItemsAt base src ys →
    ∀ token ∈ Located.tokensAll ys, base ≤ token.2 ∧ token.2 ≤ base + String.utf8Len src
  | _, _, _, .one h, token, htoken => by
    rw [Located.tokensAll, Located.tokensAll, List.append_nil] at htoken
    exact h.bounds token htoken
  | _, _, _, .more h hrest, token, htoken => by
    rw [Located.tokensAll] at htoken
    simp only [String.utf8Len_append, String.utf8Len_cons]
    rcases List.mem_append.mp htoken with htoken | htoken
    · have hinside := h.bounds token htoken
      omega
    · have hinside := hrest.bounds token htoken
      omega

end

mutual

/-- Along the source the places increase: a delimiter separates each from the next. -/
theorem ItemAt.increasing : ∀ {base : Nat} {src : List Char} {y : Located}, ItemAt base src y →
    y.tokens.Pairwise (·.2 < ·.2)
  | _, _, _, .leaf _ => List.pairwise_singleton _ _
  | _, _, _, .empty _ _ _ => List.pairwise_singleton _ _
  | _, _, _, .list hhead _ hinner _ => by
    have hle := hhead.place_le
    have hpos := Char.utf8Size_pos '('
    -- The head ends before the parenthesis, and the items come after it.
    refine List.pairwise_cons.mpr ⟨fun token htoken => ?_, hinner.increasing⟩
    have hinside := hinner.bounds token htoken
    dsimp only
    omega

theorem ItemsAt.increasing : ∀ {base : Nat} {src : List Char} {ys : List Located},
    ItemsAt base src ys → (Located.tokensAll ys).Pairwise (·.2 < ·.2)
  | _, _, _, .one h => by
    rw [Located.tokensAll, Located.tokensAll, List.append_nil]
    exact h.increasing
  | _, _, _, .more h hrest => by
    have hpos := Char.utf8Size_pos ','
    rw [Located.tokensAll]
    refine List.pairwise_append.mpr
      ⟨h.increasing, hrest.increasing, fun token htoken later hlater => ?_⟩
    have hhere := h.bounds token htoken
    have hthere := hrest.bounds later hlater
    omega

end

/-! ## Tags in the source

What a reader of the source can check: at the place of a tag there is a head with this tag, and a
delimiter or the end of the source comes after it. -/

/-- What ends a head: a delimiter, or the end of a document, which does not end an empty one. -/
inductive HeadEnd (head : List Char) : List Char → Prop where
  | delimiter {c : Char} (rest : List Char) (hc : c = '(' ∨ c = ',' ∨ c = ')') :
      HeadEnd head (c :: rest)
  | ended {trailer : List Char} (hsome : ¬ Blank head) (h : Trailer trailer) : HeadEnd head trailer

/-- A source text that starts at byte `base` has a head with the tag, and the tag is at the
offset. -/
def TagAt (base : Nat) (src : List Char) (tag : Value) (offset : Nat) : Prop :=
  ∃ before head next place, src = before ++ head ++ next ∧ HeadAt head tag place ∧
    HeadEnd head next ∧ offset = base + String.utf8Len before + place

theorem HeadAt.tagAt {base place : Nat} {head next : List Char} {tag : Value}
    (h : HeadAt head tag place) (hend : HeadEnd head next) :
    TagAt base (head ++ next) tag (base + place) :=
  ⟨[], head, next, place, rfl, h, hend, by simp⟩

theorem TagAt.prepend {base offset : Nat} {src : List Char} {tag : Value} (front : List Char)
    (h : TagAt (base + String.utf8Len front) src tag offset) :
    TagAt base (front ++ src) tag offset := by
  obtain ⟨before, head, next, place, rfl, hhead, hend, rfl⟩ := h
  refine ⟨front ++ before, head, next, place, by simp, hhead, hend, ?_⟩
  rw [String.utf8Len_append, Nat.add_assoc base]

/-- There is a character at the place of a tag: the end of a head that is not empty comes after it,
and an empty one has a delimiter there. -/
theorem TagAt.exists_char {base offset : Nat} {src : List Char} {tag : Value}
    (h : TagAt base src tag offset) :
    ∃ before c after, src = before ++ c :: after ∧ offset = base + String.utf8Len before := by
  obtain ⟨front, head, next, place, rfl, hhead, hend, rfl⟩ := h
  cases hhead with
  | @quoted before body text after quote =>
    exact ⟨front ++ before, quote, body ++ quote :: after ++ next, by simp,
      by rw [String.utf8Len_append, Nat.add_assoc]⟩
  | @plain before src text c =>
    exact ⟨front ++ before, c, src ++ next, by simp, by rw [String.utf8Len_append, Nat.add_assoc]⟩
  | @escaped before src text c =>
    exact ⟨front ++ before ++ ['\\'], c, src ++ next, by simp,
      by simp [String.utf8Len_append, Nat.add_assoc]⟩
  | blank h =>
    cases hend with
    | @delimiter c rest =>
      exact ⟨front ++ head, c, rest, rfl, by rw [String.utf8Len_append, Nat.add_assoc]⟩
    | ended hsome => exact absurd h hsome

mutual

/-- The tags of an item are where it says they are, whatever ends the item. -/
theorem ItemAt.tagAt : ∀ {base : Nat} {src : List Char} {y : Located}, ItemAt base src y →
    ∀ {next : List Char}, HeadEnd src next → ∀ token ∈ y.tokens,
      TagAt base (src ++ next) token.1 token.2
  | _, _, _, .leaf hhead, next, hend, token, htoken => by
    obtain rfl := List.mem_singleton.mp htoken
    exact hhead.tagAt hend
  | _, _, _, @ItemAt.empty base place head inner after tag hhead _ _, next, _, token, htoken => by
    obtain rfl := List.mem_singleton.mp htoken
    rw [List.append_assoc, List.append_assoc, List.cons_append]
    exact hhead.tagAt (.delimiter _ (Or.inl rfl))
  | _, _, _, @ItemAt.list base place head inner after tag ys hhead _ hinner _, next, _, token,
      htoken => by
    rcases List.mem_cons.mp htoken with rfl | htoken
    · rw [List.append_assoc, List.append_assoc, List.cons_append]
      exact hhead.tagAt (.delimiter _ (Or.inl rfl))
    · -- The items are placed from behind the head and its parenthesis on.
      have hinside := hinner.tagAt (after ++ next) (Or.inr rfl) token htoken
      rw [show base + String.utf8Len head + '('.utf8Size = base + String.utf8Len (head ++ ['(']) from
        by simp [String.utf8Len_append, Nat.add_assoc]] at hinside
      simpa using hinside.prepend (head ++ ['('])

/-- The tags of a row are where it says they are, if a delimiter ends the row. -/
theorem ItemsAt.tagAt : ∀ {base : Nat} {src : List Char} {ys : List Located}, ItemsAt base src ys →
    ∀ {c : Char} (next : List Char), c = ',' ∨ c = ')' → ∀ token ∈ Located.tokensAll ys,
      TagAt base (src ++ c :: next) token.1 token.2
  | _, _, _, .one h, c, next, hc, token, htoken => by
    rw [Located.tokensAll, Located.tokensAll, List.append_nil] at htoken
    exact h.tagAt (.delimiter next (Or.inr hc)) token htoken
  | _, _, _, @ItemsAt.more base src rest y ys h hrest, c, next, hc, token, htoken => by
    rw [Located.tokensAll] at htoken
    rcases List.mem_append.mp htoken with htoken | htoken
    · rw [List.append_assoc, List.cons_append]
      exact h.tagAt (.delimiter _ (Or.inr (Or.inl rfl))) token htoken
    · -- The rest of the row is placed from behind the comma on.
      have hinside := hrest.tagAt next hc token htoken
      rw [show base + String.utf8Len src + ','.utf8Size = base + String.utf8Len (src ++ [',']) from
        by simp [String.utf8Len_append, Nat.add_assoc]] at hinside
      simpa using hinside.prepend (src ++ [','])

end

end SexprAsm.Grammar
