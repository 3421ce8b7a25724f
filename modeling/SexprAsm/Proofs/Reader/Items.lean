import Mathlib.Data.List.TakeWhile
import SexprAsm.Proofs.Reader.Machine

/-!
# The reader on heads and items

A node is only made by the delimiter after its head. So after an item the reader stands either
before that delimiter, with the tag still pending, or after a list, with the node in place
(`ItemRead`). What the delimiter does then is the same for every item: `ItemRead.comma`,
`ItemRead.close` and `ItemRead.finish`.

The main statement, `run_item`, is that the reader goes over every item of the grammar and plants
the S-expression that the item says.
-/

namespace SexprAsm.Reader

open Text Grammar

/-! ## Trimming

A blank head is one of which nothing is left when it is trimmed. -/

theorem trimBy_eq_nil_iff {p : Char → Bool} {cs : List Char} :
    trimBy p cs = [] ↔ ∀ c ∈ cs, p c := by
  constructor
  · intro h c hc
    rw [trimBy, List.reverse_eq_nil_iff, List.dropWhile_eq_nil_iff] at h
    -- The first character that is not dropped would be dropped from the other end.
    cases hdrop : cs.dropWhile p with
    | nil => exact List.dropWhile_eq_nil_iff.mp hdrop c hc
    | cons d ds =>
      have hd : ¬ p d := by
        have := List.head?_dropWhile_not p cs
        rw [hdrop] at this
        simpa using this
      exact absurd (h d (by rw [hdrop]; simp)) hd
  · intro h
    rw [trimBy, List.dropWhile_eq_nil_iff.mpr h]
    rfl

/-! ## States between heads

`Fresh`, `HeadRead`, `ItemRead` and `AfterList` are the states in which the reader is between two
parts of the grammar. The lemmas below go from one of them to the next. -/

/-- The reader stands where an item may begin. -/
structure Fresh (s : State) : Prop where
  mode : s.mode = .head
  inComment : s.inComment = false
  text : s.text = []
  start : s.start = none
  /-- The lists that are open are nodes already made. -/
  openLists : ∀ p ∈ s.openLists, p < s.nodes.size

/-- The reader stands after a list, inside the lists `openLists`. -/
structure AfterList (s : State) (openLists : List NodeId) : Prop where
  mode : s.mode = .afterList
  inComment : s.inComment = false
  text : s.text = []
  start : s.start = none
  openLists : s.openLists = openLists

/-- The reader stands at the end of a head that it began in state `s`: the tag is pending. A head
that is blank makes no node right after the opening of a list. -/
inductive HeadRead (s : State) : State → Value → Bool → Prop where
  | bare (text : List Char) (start : Option Nat) :
      HeadRead s { s with text := text.reverse, start := start } (bareValue text)
        (trimBy isIgnorable text).isEmpty
  | quoted (text : List Char) (start : Option Nat) :
      HeadRead s { s with mode := .afterQuoted, text := text.reverse, start := start }
        (.string (String.ofList text)) false

/-- The reader stands at the end of an item that it began in state `s`. -/
inductive ItemRead (s : State) : State → Sexpr → Bool → Prop where
  | leaf {s' : State} {tag : Value} {blank : Bool} (h : HeadRead s s' tag blank) :
      ItemRead s s' (.node tag []) blank
  | list {s' : State} {x : Sexpr} (hafter : AfterList s' s.openLists)
      (hplanted : Planted s.nodes s'.nodes s.openLists.head? [s.nodes.size] [x]) :
      ItemRead s s' x false

variable {s s' : State} {tag : Value} {blank : Bool} {x : Sexpr}

theorem Fresh.head_lt (hfresh : Fresh s) (p : Nat) (hp : s.openLists.head? = some p) :
    p < s.nodes.size := hfresh.openLists p (List.mem_of_mem_head? hp)

/-! ## Heads

Over a head the reader gathers a tag, and makes no node. The node comes with the delimiter, so
the tag is pending until then. -/

/-- The reader goes over a blank without anything having started. -/
theorem run_blank {src : List Char} (h : Blank src) (hfresh : Fresh s) (offset : Nat) :
    ∃ text : List Char, (∀ c ∈ text, isIgnorable c) ∧
      s.run offset src = .ok { s with text := text.reverse, start := none } := by
  obtain ⟨text, hbare, hblank⟩ := h
  obtain ⟨start, hrun, hstart⟩ := run_bare hbare hfresh.mode hfresh.inComment offset
  obtain rfl : start = none := hstart.mpr ⟨hfresh.start, hblank⟩
  rw [hfresh.text, List.append_nil] at hrun
  exact ⟨text, hblank, hrun⟩

/-- The reader goes over a quoted head, which starts at its opening quote. -/
theorem run_quotedHead {before body text after : List Char} {quote : Char} (hbefore : Blank before)
    (hquote : IsQuote quote) (hbody : Body quote body text) (hafter : Gap after) (hfresh : Fresh s)
    (offset : Nat) :
    s.run offset (before ++ quote :: body ++ quote :: after) =
      .ok { s with
        mode := .afterQuoted, text := text.reverse, start := some (endOffset offset before) } := by
  obtain ⟨blanks, -, hrun⟩ := run_blank hbefore hfresh offset
  -- The opening quote drops the blanks.
  have hopen (o : Nat) : ({ s with text := blanks.reverse, start := none } : State).step o quote =
      .ok ({ s with start := some o }.insideQuoted quote .plain []) := by
    rcases hquote with rfl | rfl <;>
      simp [State.step, hfresh.inComment, hfresh.mode, State.inHead, State.insideQuoted]
  rw [List.append_assoc, run_append_of_eq _ hrun, List.cons_append, run_cons_of_eq _ (hopen _),
    run_body (s := { s with start := some _ }) hfresh.inComment hquote hbody [] after]
  rw [List.append_nil]
  exact run_gap (s := { s with mode := .afterQuoted, text := text.reverse, start := some _ })
    (Or.inl rfl) hfresh.inComment hafter _

/-- The reader goes over every head. -/
theorem run_head {src : List Char} (h : Head src tag) (hfresh : Fresh s) (offset : Nat) :
    ∃ s' blank, s.run offset src = .ok s' ∧ HeadRead s s' tag blank ∧ (blank = true → Blank src) := by
  cases h with
  | @bare src text h =>
    obtain ⟨start, hrun, -⟩ := run_bare h hfresh.mode hfresh.inComment offset
    rw [hfresh.text, List.append_nil] at hrun
    refine ⟨_, _, hrun, .bare text start, fun hblank => ⟨text, h, ?_⟩⟩
    exact trimBy_eq_nil_iff.mp (List.isEmpty_iff.mp hblank)
  | @quoted before body text after quote hbefore hquote hbody hafter =>
    exact ⟨_, _, run_quotedHead hbefore hquote hbody hafter hfresh offset,
      .quoted text (some (endOffset offset before)), fun h => by cases h⟩

/-- A head changes nothing but what is pending. -/
theorem HeadRead.kept (h : HeadRead s s' tag blank) :
    s'.openLists = s.openLists ∧ s'.nodes = s.nodes ∧ s'.afterComma = s.afterComma ∧
      s'.inComment = s.inComment := by
  cases h <;> exact ⟨rfl, rfl, rfl, rfl⟩

/-- A delimiter after a head takes the pending tag. -/
theorem HeadRead.step_delimiter (h : HeadRead s s' tag blank) (hfresh : Fresh s) (offset : Nat)
    {c : Char} (hc : c = '(' ∨ c = ',' ∨ c = ')') :
    s'.step offset c = s'.delimiter offset c := by
  cases h with
  | bare text start =>
    rcases hc with rfl | rfl | rfl <;>
      simp [State.step, hfresh.inComment, hfresh.mode, State.inHead]
  | quoted text start =>
    rcases hc with rfl | rfl | rfl <;>
      simp [State.step, hfresh.inComment, State.inAfterQuoted]

/-- The arena after a node has been made inside the open lists. -/
def attached (nodes : Array Node) (openLists : List NodeId) (node : Node) : Array Node :=
  match openLists with
  | [] => nodes.push node
  | parent :: _ =>
    (nodes.modify parent fun n => n.withChildren [nodes.size]).push
      { node with parent := some parent }

theorem planted_attached (nodes : Array Node) (openLists : List NodeId) {node : Node}
    (hchildren : node.children = []) (hparent : node.parent = none) :
    Planted nodes (attached nodes openLists node) openLists.head? [nodes.size]
      [.node node.tag []] := by
  cases openLists with
  | nil => exact .leaf hchildren hparent rfl fun i _ => by simp
  | cons parent rest =>
    have hsize : (nodes.modify parent fun n => n.withChildren [nodes.size]).size = nodes.size := by
      simp
    have hkept (i : Nat) (_ : i < nodes.size) :
        (nodes.modify parent fun n => n.withChildren [nodes.size])[i]? =
          nodes[i]?.map fun n =>
            if some parent = some i then n.withChildren [nodes.size] else n := by
      rw [Array.getElem?_modify]
      by_cases hp : parent = i <;> simp [hp]
    have hleaf : ({ node with parent := some parent } : Node).children = [] := hchildren
    exact .leaf hleaf rfl hsize hkept

/-- The tag that is pending at the end of a head. -/
def State.pendingTag? (s : State) (skipEmpty : Bool) : Option Value :=
  let bare := trimBy isIgnorable s.text.reverse
  if s.mode = .afterQuoted then some (.string (String.ofList s.text.reverse))
  else if !bare.isEmpty then some (Value.ofToken (String.ofList bare))
  else if skipEmpty then none
  else some .null

theorem endHead_of_some {offset : Nat} {skipEmpty : Bool}
    (htag : s.pendingTag? skipEmpty = some tag) :
    s.endHead offset skipEmpty =
      { s with
        nodes := attached s.nodes s.openLists { tag := tag, offset := some (s.start.getD offset) }
        text := [], start := none } := by
  rw [State.pendingTag?] at htag
  rw [State.endHead, htag]
  cases hopen : s.openLists <;> simp [attached, Node.withChildren]

theorem endHead_of_none {offset : Nat} {skipEmpty : Bool}
    (htag : s.pendingTag? skipEmpty = none) :
    s.endHead offset skipEmpty = { s with text := [], start := none } := by
  rw [State.pendingTag?] at htag
  rw [State.endHead, htag]

theorem HeadRead.pendingTag? (h : HeadRead s s' tag blank) (hfresh : Fresh s) (skipEmpty : Bool) :
    s'.pendingTag? skipEmpty = if blank && skipEmpty then none else some tag := by
  cases h with
  | bare text start =>
    have hmode : s.mode ≠ .afterQuoted := by rw [hfresh.mode]; decide
    rw [State.pendingTag?, List.reverse_reverse, if_neg hmode, bareValue]
    cases (trimBy isIgnorable text).isEmpty <;> cases skipEmpty <;> rfl
  | quoted text start => simp [State.pendingTag?]

/-- A head that is not skipped becomes a leaf of the innermost open list. -/
theorem HeadRead.endHead (h : HeadRead s s' tag blank) (hfresh : Fresh s) (offset : Nat)
    {skipEmpty : Bool} (hskip : (blank && skipEmpty) = false) :
    ∃ nodes, s'.endHead offset skipEmpty = { s' with nodes := nodes, text := [], start := none } ∧
      Planted s.nodes nodes s.openLists.head? [s.nodes.size] [.node tag []] := by
  have htag := h.pendingTag? hfresh skipEmpty
  rw [hskip] at htag
  obtain ⟨hopen, hnodes, -, -⟩ := h.kept
  refine ⟨_, endHead_of_some htag, ?_⟩
  rw [hopen, hnodes]
  exact planted_attached _ _ rfl rfl

/-! ## Delimiters

A delimiter settles what is before it: it makes a leaf of the pending tag, and then opens a list,
goes on in one, or closes it. A blank head makes no leaf right after the opening of a list. -/

/-- An opening parenthesis makes the node of the head before it, whose list is then open. -/
theorem HeadRead.open (h : HeadRead s s' tag blank) (hfresh : Fresh s) (offset : Nat) :
    ∃ s'', s'.step offset '(' = .ok s'' ∧ Fresh s'' ∧ s''.afterComma = false ∧
      s''.openLists = s.nodes.size :: s.openLists ∧
      Planted s.nodes s''.nodes s.openLists.head? [s.nodes.size] [.node tag []] := by
  obtain ⟨nodes, hend, hplanted⟩ := h.endHead hfresh offset (Bool.and_false blank)
  obtain ⟨hopen, hnodes, -, hcomment⟩ := h.kept
  have hstep : s'.step offset '(' =
      .ok { s' with
        nodes := nodes, text := [], start := none, mode := .head, afterComma := false
        openLists := s'.nodes.size :: s'.openLists } := by
    rw [h.step_delimiter hfresh offset (Or.inl rfl), State.delimiter, if_pos rfl, hend]
  refine ⟨_, hstep, ⟨rfl, by rw [hcomment, hfresh.inComment], rfl, rfl, ?_⟩, rfl, ?_, hplanted⟩
  · rw [hopen, hnodes]
    intro p hp
    have hlt := hplanted.size_lt
    rcases List.mem_cons.mp hp with rfl | hp
    · exact hlt
    · exact Nat.lt_trans (hfresh.openLists p hp) hlt
  · simp [hopen, hnodes]

section

variable {p : NodeId} {ps : List NodeId}

theorem HeadRead.step_comma (h : HeadRead s s' tag blank) (hfresh : Fresh s)
    (hopen : s.openLists = p :: ps) (offset : Nat) :
    s'.step offset ',' = .ok { s'.endHead offset false with mode := .head, afterComma := true } := by
  rw [h.step_delimiter hfresh offset (Or.inr (Or.inl rfl)), State.delimiter, if_neg (by decide),
    if_pos rfl, if_neg (by simp [h.kept.1, hopen])]

theorem HeadRead.step_close (h : HeadRead s s' tag blank) (hfresh : Fresh s)
    (hopen : s.openLists = p :: ps) (offset : Nat) :
    s'.step offset ')' =
      .ok { s'.endHead offset (!s.afterComma) with mode := .afterList, openLists := ps } := by
  obtain ⟨hopen', -, hafterComma, -⟩ := h.kept
  rw [h.step_delimiter hfresh offset (Or.inr (Or.inr rfl)), State.delimiter, if_neg (by decide),
    if_neg (by decide), hopen', hopen, hafterComma]
  rfl

theorem AfterList.step_comma (h : AfterList s (p :: ps)) (offset : Nat) :
    s.step offset ',' = .ok { s with mode := .head, afterComma := true } := by
  simp [State.step, h.inComment, h.mode, State.inAfterList, h.openLists]

/-- After a list nothing is pending, so that no node is made. -/
theorem AfterList.step_close (h : AfterList s (p :: ps)) (offset : Nat) :
    s.step offset ')' =
      .ok { s with
        mode := .afterList, afterComma := false, text := [], start := none, openLists := ps } := by
  have hnone : ({ s with mode := .head, afterComma := false } : State).pendingTag? true = none := by
    simp [State.pendingTag?, h.text, trimBy]
  have hdelimiter : s.step offset ')' =
      ({ s with mode := .head, afterComma := false } : State).delimiter offset ')' := by
    simp [State.step, h.inComment, h.mode, State.inAfterList]
  have hsome : s.openLists.isEmpty = false := by rw [h.openLists]; rfl
  rw [hdelimiter, State.delimiter, if_neg (by decide), if_neg (by decide), if_neg (by simp [hsome])]
  rw [show (!({ s with mode := .head, afterComma := false } : State).afterComma) = true from rfl,
    endHead_of_none hnone, h.openLists]
  rfl

/-- A comma settles the item before it. -/
theorem ItemRead.comma (h : ItemRead s s' x blank) (hfresh : Fresh s) (offset : Nat)
    (hopen : s.openLists = p :: ps) :
    ∃ s'', s'.step offset ',' = .ok s'' ∧ Fresh s'' ∧ s''.afterComma = true ∧
      s''.openLists = p :: ps ∧ Planted s.nodes s''.nodes (some p) [s.nodes.size] [x] := by
  cases h with
  | leaf h =>
    obtain ⟨nodes, hend, hplanted⟩ := h.endHead hfresh offset (Bool.and_false blank)
    obtain ⟨hopen', -, -, hcomment⟩ := h.kept
    have hstep := h.step_comma hfresh hopen offset
    rw [hend] at hstep
    rw [hopen] at hplanted
    refine ⟨_, hstep, ⟨rfl, by rw [hcomment, hfresh.inComment], rfl, rfl, fun q hq => ?_⟩, rfl,
      by rw [hopen', hopen], hplanted⟩
    exact Nat.lt_trans (hfresh.openLists q (hopen' ▸ hq)) hplanted.size_lt
  | list hafter hplanted =>
    rw [hopen] at hafter hplanted
    refine ⟨_, hafter.step_comma offset, ⟨rfl, hafter.inComment, hafter.text, hafter.start,
      fun q hq => ?_⟩, rfl, hafter.openLists, hplanted⟩
    rw [hafter.openLists, ← hopen] at hq
    exact Nat.lt_trans (hfresh.openLists q hq) hplanted.size_lt

/-- A closing parenthesis settles the item before it, and drops a blank one that no comma
precedes. -/
theorem ItemRead.close (h : ItemRead s s' x blank) (hfresh : Fresh s) (offset : Nat)
    (hopen : s.openLists = p :: ps) :
    ∃ s'', s'.step offset ')' = .ok s'' ∧ AfterList s'' ps ∧
      if (blank && !s.afterComma) = true then s''.nodes = s.nodes
      else Planted s.nodes s''.nodes (some p) [s.nodes.size] [x] := by
  cases h with
  | leaf h =>
    obtain ⟨-, hnodes, -, hcomment⟩ := h.kept
    refine ⟨_, h.step_close hfresh hopen offset, ?_⟩
    cases hskip : blank && !s.afterComma with
    | true =>
      have hnone := h.pendingTag? hfresh (!s.afterComma)
      rw [hskip, if_pos rfl] at hnone
      rw [endHead_of_none hnone]
      exact ⟨⟨rfl, by rw [hcomment, hfresh.inComment], rfl, rfl, rfl⟩, by simpa using hnodes⟩
    | false =>
      obtain ⟨nodes, hend, hplanted⟩ := h.endHead hfresh offset hskip
      rw [hend]
      rw [hopen] at hplanted
      exact ⟨⟨rfl, by rw [hcomment, hfresh.inComment], rfl, rfl, rfl⟩, by simpa using hplanted⟩
  | list hafter hplanted =>
    rw [hopen] at hafter hplanted
    exact ⟨_, hafter.step_close offset, ⟨rfl, hafter.inComment, rfl, rfl, rfl⟩,
      by simpa using hplanted⟩

end

/-! ## Items

By recursion on the derivations of the grammar, items and rows of items at once (`run_item`,
`run_items`). -/

/-- The reader after a list that it began to read in state `s`, right after the parenthesis: the
items have been planted under the node of the list. -/
def ItemsRead (s : State) (p : NodeId) (ps : List NodeId) (s' : State) (xs : List Sexpr) : Prop :=
  AfterList s' ps ∧ ∃ ids, Planted s.nodes s'.nodes (some p) ids xs

/-- The list after a head, once its items are read, is an item. -/
theorem ItemsRead.itemRead {s'' : State} {xs : List Sexpr}
    (hplanted : Planted s.nodes s'.nodes s.openLists.head? [s.nodes.size] [.node tag []])
    (h : ItemsRead s' s.nodes.size s.openLists s'' xs) :
    ItemRead s s'' (.node tag xs) false := by
  obtain ⟨hafter, ids, hitems⟩ := h
  exact .list hafter (hplanted.close hitems)

/-- A blank between parentheses makes no item. -/
theorem run_blank_close {src : List Char} (h : Blank src) (hfresh : Fresh s)
    (hcomma : s.afterComma = false) {p : NodeId} {ps : List NodeId}
    (hopen : s.openLists = p :: ps) (offset : Nat) :
    ∃ s', s.run offset (src ++ [')']) = .ok s' ∧ ItemsRead s p ps s' [] := by
  obtain ⟨text, hblank, hrun⟩ := run_blank h hfresh offset
  have hread : ItemRead s _ _ _ := .leaf (.bare text none)
  rw [List.isEmpty_iff.mpr (trimBy_eq_nil_iff.mpr hblank)] at hread
  obtain ⟨s', hstep, hafter, hnodes⟩ := hread.close hfresh (endOffset offset src) hopen
  rw [hcomma, if_pos (by rfl)] at hnodes
  refine ⟨s', ?_, hafter, [], ?_⟩
  · rw [run_append_of_eq _ hrun]
    exact run_singleton hstep
  · rw [hnodes]
    exact .refl _ _

/-- The reader goes over a head with a list, given how it goes over the inside of the list. -/
theorem run_list {head inner after : List Char} {xs : List Sexpr} (hhead : Head head tag)
    (hafter : Gap after) (hfresh : Fresh s)
    (hinner : ∀ s' : State, Fresh s' → s'.afterComma = false → ∀ p ps, s'.openLists = p :: ps →
      ∀ offset, ∃ s'', s'.run offset (inner ++ [')']) = .ok s'' ∧ ItemsRead s' p ps s'' xs)
    (offset : Nat) :
    ∃ s', s.run offset (head ++ '(' :: inner ++ ')' :: after) = .ok s' ∧
      AfterList s' s.openLists ∧ ItemRead s s' (.node tag xs) false := by
  obtain ⟨s₁, blank, hrun₁, hread, -⟩ := run_head hhead hfresh offset
  obtain ⟨s₂, hstep, hfresh₂, hcomma, hopen, hplanted⟩ :=
    hread.open hfresh (endOffset offset head)
  obtain ⟨s₃, hrun₃, hitems⟩ := hinner s₂ hfresh₂ hcomma _ _ hopen
    (endOffset offset head + '('.utf8Size)
  have hgap := run_gap (Or.inr hitems.1.mode) hitems.1.inComment hafter
  refine ⟨s₃, ?_, hitems.1, hitems.itemRead hplanted⟩
  rw [show head ++ '(' :: inner ++ ')' :: after = head ++ '(' :: ((inner ++ [')']) ++ after) from by
      simp, run_append_of_eq _ hrun₁, run_cons_of_eq _ hstep, run_append_of_eq _ hrun₃, hgap]

mutual

/-- The reader goes over every item. -/
theorem run_item : ∀ {src : List Char} {x : Sexpr}, Item src x → ∀ {s : State}, Fresh s →
    ∀ offset, ∃ s' blank, s.run offset src = .ok s' ∧ ItemRead s s' x blank ∧
      (blank = true → Blank src)
  | _, _, .leaf hhead, s, hfresh, offset => by
    obtain ⟨s', blank, hrun, hread, hblank⟩ := run_head hhead hfresh offset
    exact ⟨s', blank, hrun, .leaf hread, hblank⟩
  | _, _, .empty hhead hinner hafter, s, hfresh, offset => by
    obtain ⟨s', hrun, -, hread⟩ := run_list hhead hafter hfresh
      (fun s' hfresh' hcomma p ps hopen => run_blank_close hinner hfresh' hcomma hopen) offset
    exact ⟨s', false, hrun, hread, fun h => by cases h⟩
  | _, _, .list hhead hsome hinner hafter, s, hfresh, offset => by
    obtain ⟨s', hrun, -, hread⟩ := run_list hhead hafter hfresh
      (fun s' hfresh' _ p ps hopen => run_items hinner hfresh' hopen (Or.inr hsome)) offset
    exact ⟨s', false, hrun, hread, fun h => by cases h⟩

/-- The reader goes over every row of items up to the end of the list. A row that is only a blank
would be dropped right after the opening of the list. -/
theorem run_items : ∀ {src : List Char} {xs : List Sexpr}, Items src xs → ∀ {s : State}, Fresh s →
    ∀ {p : NodeId} {ps : List NodeId}, s.openLists = p :: ps →
      s.afterComma = true ∨ ¬ Blank src → ∀ offset, ∃ s',
        s.run offset (src ++ [')']) = .ok s' ∧ ItemsRead s p ps s' xs
  | src, _, .one hitem, s, hfresh, p, ps, hopen, hkeep, offset => by
    obtain ⟨s₁, blank, hrun, hread, hblank⟩ := run_item hitem hfresh offset
    obtain ⟨s₂, hstep, hafter, hplanted⟩ := hread.close hfresh (endOffset offset src) hopen
    have hnot : ¬ (blank && !s.afterComma) = true := by
      rcases hkeep with h | h
      · simp [h]
      · simp [Bool.eq_false_iff.mpr (mt hblank h)]
    rw [if_neg hnot] at hplanted
    refine ⟨s₂, ?_, hafter, _, hplanted⟩
    rw [run_append_of_eq _ hrun]
    exact run_singleton hstep
  | _, _, @Items.more src rest _ _ hitem hrest, s, hfresh, p, ps, hopen, _, offset => by
    obtain ⟨s₁, blank, hrun, hread, -⟩ := run_item hitem hfresh offset
    obtain ⟨s₂, hstep, hfresh₂, hcomma, hopen₂, hplanted⟩ :=
      hread.comma hfresh (endOffset offset src) hopen
    obtain ⟨s₃, hrun₃, hafter, ids, hplanted₃⟩ :=
      run_items hrest hfresh₂ hopen₂ (Or.inl hcomma) (endOffset offset src + ','.utf8Size)
    refine ⟨s₃, ?_, hafter, _, hplanted.trans hplanted₃ fun q hq => ?_⟩
    · rw [show src ++ ',' :: rest ++ [')'] = src ++ ',' :: (rest ++ [')']) from by simp,
        run_append_of_eq _ hrun, run_cons_of_eq _ hstep, hrun₃]
    · obtain rfl := Option.some.inj hq
      exact hfresh.openLists p (by rw [hopen]; exact List.mem_cons_self)

end

/-! ## The end of the source

The end settles the last head like a delimiter does. The arena has then grown from nothing to one
S-expression. -/

theorem HeadRead.tag_eq_null (h : HeadRead s s' tag true) : tag = .null := by
  generalize hblank : true = blank at h
  cases h with
  | bare text start => rw [bareValue, ← hblank, if_pos rfl]
  | quoted => cases hblank

theorem fresh_init : Fresh {} := ⟨rfl, rfl, rfl, rfl, by simp⟩

/-- An arena that has grown from nothing is not empty, and is one S-expression. -/
theorem Planted.holds_of_empty {nodes : Array Node} (h : Planted #[] nodes none [0] [x]) :
    nodes.isEmpty = false ∧ Tree.Holds ⟨nodes⟩ x := by
  have hlt : 0 < nodes.size := h.size_lt
  exact ⟨by rw [Array.isEmpty, decide_eq_false_iff_not]; omega, h.forest⟩

/-- The end of the source settles a head outside of all lists; a blank one leaves a single null. -/
theorem HeadRead.finish (h : HeadRead {} s' tag blank) (offset : Nat) :
    s'.finish offset =
      .ok (if blank then Tree.single .null else ⟨(s'.endHead offset true).nodes⟩) := by
  have hfinish : s'.finish offset =
      .ok (if (s'.endHead offset true).nodes.isEmpty then Tree.single .null
        else ⟨(s'.endHead offset true).nodes⟩) := by
    cases h <;> simp [State.finish]
  rw [hfinish]
  cases blank with
  | true =>
    rw [endHead_of_none (h.pendingTag? fresh_init true), h.kept.2.1]
    rfl
  | false =>
    obtain ⟨nodes, hend, hplanted⟩ := h.endHead fresh_init offset (Bool.false_and true)
    rw [hend, if_neg (by simp [(Planted.holds_of_empty hplanted).1]), if_neg Bool.false_ne_true]

theorem AfterList.finish (h : AfterList s []) (hsome : s.nodes.isEmpty = false) (offset : Nat) :
    s.finish offset = .ok ⟨s.nodes⟩ := by
  simp [State.finish, h.mode, h.openLists, hsome]

/-- The end of the source settles the item of a document, which then fills the whole arena. -/
theorem ItemRead.finish (h : ItemRead {} s' x blank) (offset : Nat) :
    ∃ t, s'.finish offset = .ok t ∧ t.Holds x := by
  cases h with
  | leaf h =>
    refine ⟨_, h.finish offset, ?_⟩
    cases blank with
    | true =>
      obtain rfl := h.tag_eq_null
      exact .single .null none
    | false =>
      obtain ⟨nodes, hend, hplanted⟩ := h.endHead fresh_init offset (Bool.false_and true)
      rw [hend]
      exact (Planted.holds_of_empty hplanted).2
  | list hafter hplanted =>
    obtain ⟨hsome, hholds⟩ := Planted.holds_of_empty hplanted
    exact ⟨_, hafter.finish hsome offset, hholds⟩

end SexprAsm.Reader
