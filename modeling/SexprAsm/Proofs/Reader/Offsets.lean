import SexprAsm.Proofs.Reader.Acceptance
import SexprAsm.Proofs.Reader.Located
import SexprAsm.Proofs.Tree.Links

/-!
# Where the nodes of a tree come from

A tree that is read from a source has its nodes in pre-order (`Tree.Preordered`), and each of them
records the place of its tag in the source (`Tree.LocatedIn`).

The reader only makes a node at the delimiter after its head, but remembers where the head began.
So what is compared with the places of the grammar is the arena together with the head that is
pending (`State.settled`). Over an item it grows by the tags of the item with their places
(`settled_item`); the delimiter after the item, or the end of the source, makes it the arena.
-/

namespace SexprAsm.Reader

open Text Grammar

/-- The tags of an arena, with the offsets that are recorded for them. -/
def tokensOf (nodes : Array Node) : List (Value × Option Nat) :=
  nodes.toList.map fun n => (n.tag, n.offset)

/-- Tags with their places, as an arena records them. -/
def recorded (tokens : List (Value × Nat)) : List (Value × Option Nat) :=
  tokens.map fun token => (token.1, some token.2)

/-- The tags of the arena once the pending head, if there is one, has ended at `stop`. -/
def State.settled (s : State) (stop : Nat) : List (Value × Option Nat) :=
  tokensOf s.nodes ++
    if s.mode = .afterList then []
    else [((s.pendingTag? false).getD .null, some (s.start.getD stop))]

variable {s s' s'' : State} {tag : Value} {blank : Bool} {x : Sexpr} {base offset place stop : Nat}

theorem tokensOf_attached (nodes : Array Node) (openLists : List NodeId) (node : Node) :
    tokensOf (attached nodes openLists node) = tokensOf nodes ++ [(node.tag, node.offset)] := by
  cases openLists with
  | nil => simp [tokensOf, attached]
  | cons parent rest =>
    have hsame : tokensOf (nodes.modify parent fun n => n.withChildren [nodes.size]) =
        tokensOf nodes := by
      refine List.ext_getElem? fun i => ?_
      simp only [tokensOf, List.getElem?_map, Array.getElem?_toList, Array.getElem?_modify]
      split
      · cases nodes[i]? <;> rfl
      · rfl
    rw [← hsame]
    simp [tokensOf, attached]

/-! ## Starts of heads

The reader notes where a head starts when its first character comes in. `start_of_bare` says that
later characters do not move the note, and `start_of_headAt` adds the heads that start with a
quote or a backslash and those that are blank, which have no start and are placed at their end. -/

theorem addToHead_start {start : Nat} (h : s.start = some start) (offset : Nat) (c : Char) :
    (s.addToHead offset c).start = some start := by
  simp [State.addToHead, h]

/-- What follows does not move the start of a bare head. -/
theorem start_of_bare {src text : List Char} (h : Bare src text) (hmode : s.mode = .head)
    (hcomment : s.inComment = false) {start : Nat} (hstart : s.start = some start)
    (hrun : s.run offset src = .ok s') : s'.start = some start := by
  induction h generalizing s offset with
  | nil =>
    obtain rfl := Except.ok.inj hrun
    exact hstart
  | @plain c src text hc _ ih =>
    rw [run_cons_of_eq _ (step_plain hmode hcomment offset hc)] at hrun
    exact ih (s := s.addToHead _ c) hmode hcomment (addToHead_start hstart _ c) hrun
  | @escaped c src text _ ih =>
    rw [show '\\' :: c :: src = ['\\', c] ++ src from rfl,
      run_append_of_eq _ (run_escaped hmode hcomment offset c)] at hrun
    exact ih (s := s.addToHead _ c) hmode hcomment (addToHead_start hstart _ c) hrun
  | @comment line src text hline _ ih =>
    rw [show ';' :: line ++ '\n' :: src = (';' :: line ++ ['\n']) ++ src from by simp,
      run_append_of_eq _ (run_comment (Or.inl hmode) hcomment offset hline)] at hrun
    exact ih hmode hcomment hstart hrun

/-- At the end of a head the reader knows its place: where it started, or else its end. -/
theorem start_of_headAt {src : List Char} (h : HeadAt src tag place) (hfresh : Fresh s)
    (hrun : s.run base src = .ok s') (hstop : Blank src → stop = base + String.utf8Len src) :
    s'.start.getD stop = base + place := by
  cases h with
  | quoted hbefore hquote hbody hafter =>
    -- The opening quote is the start whatever blanks the reader has gathered before it.
    rw [run_quotedHead hbefore hquote hbody hafter hfresh base] at hrun
    obtain rfl := Except.ok.inj hrun
    exact endOffset_eq base _
  | @plain before src text c hbefore hc hsome h =>
    obtain ⟨blanks, -, hrun₁⟩ := run_blank hbefore hfresh base
    -- After the blanks nothing has started, so this character is the start.
    let skipped : State := { s with text := blanks.reverse, start := none }
    have hstep := step_plain (s := skipped) hfresh.mode hfresh.inComment (endOffset base before) hc
    have hstart : (skipped.addToHead (endOffset base before) c).start =
        some (base + String.utf8Len before) := by
      simp [skipped, State.addToHead, hsome, endOffset_eq]
    rw [run_append_of_eq _ hrun₁, run_cons_of_eq _ hstep] at hrun
    rw [start_of_bare (s := skipped.addToHead _ c) h hfresh.mode hfresh.inComment hstart hrun]
    rfl
  | @escaped before src text c hbefore hsome h =>
    obtain ⟨blanks, -, hrun₁⟩ := run_blank hbefore hfresh base
    let skipped : State := { s with text := blanks.reverse, start := none }
    have hstep := run_escaped (s := skipped) hfresh.mode hfresh.inComment (endOffset base before) c
    have hstart : (skipped.addToHead (endOffset base before + '\\'.utf8Size) c).start =
        some (base + String.utf8Len before + '\\'.utf8Size) := by
      simp [skipped, State.addToHead, hsome, endOffset_eq]
    rw [run_append_of_eq _ hrun₁, show '\\' :: c :: src = ['\\', c] ++ src from rfl,
      run_append_of_eq _ hstep] at hrun
    rw [start_of_bare (s := skipped.addToHead _ c) h hfresh.mode hfresh.inComment hstart hrun,
      Option.getD_some, Nat.add_assoc]
  | blank h =>
    obtain ⟨blanks, -, hrun₁⟩ := run_blank h hfresh base
    obtain rfl := Except.ok.inj (hrun₁.symm.trans hrun)
    exact hstop h

/-! ## Delimiters

What each delimiter adds to the arena is what `settled` has announced for the head before it: one
lemma for the opening parenthesis, one for the comma and one for the closing parenthesis, which
alone may drop a blank item. -/

theorem HeadRead.settled (h : HeadRead s s' tag blank) (hfresh : Fresh s) (stop : Nat) :
    s'.settled stop = tokensOf s.nodes ++ [(tag, some (s'.start.getD stop))] := by
  have htag := h.pendingTag? hfresh false
  rw [Bool.and_false, if_neg Bool.false_ne_true] at htag
  have hmode : s'.mode ≠ .afterList := by
    cases h with
    | bare => simp [hfresh.mode]
    | quoted => simp
  rw [State.settled, if_neg hmode, htag, h.kept.2.1]
  rfl

theorem AfterList.settled {openLists : List NodeId} (h : AfterList s openLists) (stop : Nat) :
    s.settled stop = tokensOf s.nodes := by
  rw [State.settled, if_pos h.mode, List.append_nil]

/-- A head that is not skipped is settled where it ends. -/
theorem HeadRead.tokensOf_endHead (h : HeadRead s s' tag blank) (hfresh : Fresh s) (offset : Nat)
    {skipEmpty : Bool} (hskip : (blank && skipEmpty) = false) :
    tokensOf (s'.endHead offset skipEmpty).nodes = s'.settled offset := by
  have htag := h.pendingTag? hfresh skipEmpty
  rw [hskip, if_neg Bool.false_ne_true] at htag
  rw [endHead_of_some htag, h.settled hfresh offset]
  dsimp only
  rw [tokensOf_attached, h.kept.2.1]

theorem HeadRead.tokensOf_open (h : HeadRead s s' tag blank) (hfresh : Fresh s)
    (hstep : s'.step offset '(' = .ok s'') : tokensOf s''.nodes = s'.settled offset := by
  rw [h.step_delimiter hfresh offset (Or.inl rfl), State.delimiter, if_pos rfl] at hstep
  obtain rfl := Except.ok.inj hstep
  exact h.tokensOf_endHead hfresh offset (Bool.and_false blank)

section

variable {p : NodeId} {ps : List NodeId}

theorem ItemRead.tokensOf_comma (h : ItemRead s s' x blank) (hfresh : Fresh s)
    (hopen : s.openLists = p :: ps) (hstep : s'.step offset ',' = .ok s'') :
    tokensOf s''.nodes = s'.settled offset := by
  cases h with
  | leaf h =>
    rw [h.step_comma hfresh hopen] at hstep
    obtain rfl := Except.ok.inj hstep
    exact h.tokensOf_endHead hfresh offset (Bool.and_false blank)
  | list hafter _ =>
    rw [hopen] at hafter
    rw [hafter.step_comma] at hstep
    obtain rfl := Except.ok.inj hstep
    exact (hafter.settled offset).symm

/-- A closing parenthesis settles the item before it, unless it drops it. -/
theorem ItemRead.tokensOf_close (h : ItemRead s s' x blank) (hfresh : Fresh s)
    (hopen : s.openLists = p :: ps) (hskip : (blank && !s.afterComma) = false)
    (hstep : s'.step offset ')' = .ok s'') : tokensOf s''.nodes = s'.settled offset := by
  cases h with
  | leaf h =>
    rw [h.step_close hfresh hopen] at hstep
    obtain rfl := Except.ok.inj hstep
    exact h.tokensOf_endHead hfresh offset hskip
  | list hafter _ =>
    rw [hopen] at hafter
    rw [hafter.step_close] at hstep
    obtain rfl := Except.ok.inj hstep
    exact (hafter.settled offset).symm

end

/-! ## Items

By mutual induction on the located grammar: an item in `settled_item`, a row with the end of its
list in `tokensOf_items`. What is common to heads with lists, empty or not, is `settled_list`,
which takes what happens inside the parentheses as a hypothesis. -/

/-- Over a head with a list the arena grows by the tag of the head, and by what it grows inside of
the list. -/
theorem settled_list {head inner after : List Char} {tokens : List (Value × Nat)}
    (hhead : HeadAt head tag place) (hafter : Gap after) (hfresh : Fresh s)
    (hinner : ∀ s₂ : State, Fresh s₂ → s₂.afterComma = false → ∀ p ps, s₂.openLists = p :: ps →
      ∃ s₃, s₂.run (base + String.utf8Len head + '('.utf8Size) (inner ++ [')']) = .ok s₃ ∧
        AfterList s₃ ps ∧ tokensOf s₃.nodes = tokensOf s₂.nodes ++ recorded tokens)
    (hrun : s.run base (head ++ '(' :: inner ++ ')' :: after) = .ok s') (stop : Nat) :
    s'.settled stop = tokensOf s.nodes ++ recorded ((tag, base + place) :: tokens) := by
  obtain ⟨s₁, blank, hrun₁, hread, -⟩ := run_head hhead.head hfresh base
  obtain ⟨s₂, hstep, hfresh₂, hcomma, hopen, -⟩ := hread.open hfresh (endOffset base head)
  obtain ⟨s₃, hrun₃, hclosed, htokens⟩ := hinner s₂ hfresh₂ hcomma _ _ hopen
  rw [← endOffset_eq] at hrun₃
  have hgap := run_gap (Or.inr hclosed.mode) hclosed.inComment hafter
  rw [show head ++ '(' :: inner ++ ')' :: after = head ++ '(' :: ((inner ++ [')']) ++ after) from by
      simp, run_append_of_eq _ hrun₁, run_cons_of_eq _ hstep, run_append_of_eq _ hrun₃, hgap] at hrun
  obtain rfl := Except.ok.inj hrun
  have hstart := start_of_headAt hhead hfresh hrun₁ fun _ => endOffset_eq base head
  rw [hclosed.settled, htokens, hread.tokensOf_open hfresh hstep, hread.settled hfresh, hstart]
  simp [recorded]

mutual

/-- Over an item the arena grows by its tags with their places. -/
theorem settled_item : ∀ {base : Nat} {src : List Char} {y : Located}, ItemAt base src y →
    ∀ {s s' : State} {stop : Nat}, Fresh s → s.run base src = .ok s' →
      (Blank src → stop = base + String.utf8Len src) →
        s'.settled stop = tokensOf s.nodes ++ recorded y.tokens
  | base, _, _, .leaf hhead, s, s', stop, hfresh, hrun, hstop => by
    obtain ⟨s₁, blank, hrun₁, hread, -⟩ := run_head hhead.head hfresh base
    obtain rfl := Except.ok.inj (hrun₁.symm.trans hrun)
    rw [hread.settled hfresh, start_of_headAt hhead hfresh hrun hstop]
    rfl
  | base, _, _, .empty hhead hinner hafter, s, s', stop, hfresh, hrun, _ => by
    refine settled_list hhead hafter hfresh (fun s₂ hfresh₂ hcomma p ps hopen => ?_) hrun stop
    obtain ⟨s₃, hrun₃, hclosed, ids, hplanted⟩ := run_blank_close hinner hfresh₂ hcomma hopen _
    -- Nothing is planted: the node of the head stays without items.
    refine ⟨s₃, hrun₃, hclosed, ?_⟩
    rw [hplanted.eq_of_nil]
    exact (List.append_nil _).symm
  | base, _, _, .list hhead hsome hinner hafter, s, s', stop, hfresh, hrun, _ => by
    refine settled_list hhead hafter hfresh (fun s₂ hfresh₂ _ p ps hopen => ?_) hrun stop
    obtain ⟨s₃, hrun₃, hclosed, -⟩ := run_items hinner.items hfresh₂ hopen (Or.inr hsome) _
    exact ⟨s₃, hrun₃, hclosed, tokensOf_items hinner hfresh₂ hopen (Or.inr hsome) hrun₃⟩

/-- Over a row of items and the end of its list the arena grows by the tags of the row. -/
theorem tokensOf_items : ∀ {base : Nat} {src : List Char} {ys : List Located},
    ItemsAt base src ys → ∀ {s s' : State}, Fresh s →
      ∀ {p : NodeId} {ps : List NodeId}, s.openLists = p :: ps → s.afterComma = true ∨ ¬ Blank src →
        s.run base (src ++ [')']) = .ok s' →
          tokensOf s'.nodes = tokensOf s.nodes ++ recorded (Located.tokensAll ys)
  | base, src, _, .one hitem, s, s', hfresh, p, ps, hopen, hkeep, hrun => by
    obtain ⟨s₁, blank, hrun₁, hread, hblank⟩ := run_item hitem.item hfresh base
    -- The one item of a row is dropped only if it is blank and no comma precedes it.
    have hskip : (blank && !s.afterComma) = false := by
      rcases hkeep with h | h
      · simp [h]
      · simp [Bool.eq_false_iff.mpr (mt hblank h)]
    obtain ⟨s₂, hstep, -⟩ := hread.close hfresh (endOffset base src) hopen
    rw [run_append_of_eq _ hrun₁, run_singleton hstep] at hrun
    obtain rfl := Except.ok.inj hrun
    rw [hread.tokensOf_close hfresh hopen hskip hstep,
      settled_item hitem hfresh hrun₁ fun _ => endOffset_eq base src]
    simp [Located.tokensAll]
  | base, _, _, @ItemsAt.more _ src rest _ _ hitem hrest, s, s', hfresh, p, ps, hopen, _, hrun => by
    obtain ⟨s₁, blank, hrun₁, hread, -⟩ := run_item hitem.item hfresh base
    obtain ⟨s₂, hstep, hfresh₂, hcomma, hopen₂, -⟩ :=
      hread.comma hfresh (endOffset base src) hopen
    rw [show src ++ ',' :: rest ++ [')'] = src ++ ',' :: (rest ++ [')']) from by simp,
      run_append_of_eq _ hrun₁, run_cons_of_eq _ hstep, endOffset_eq] at hrun
    -- The comma settles the first item; the rest of the row begins behind it.
    rw [tokensOf_items hrest hfresh₂ hopen₂ (Or.inl hcomma) hrun,
      hread.tokensOf_comma hfresh hopen hstep,
      settled_item hitem hfresh hrun₁ fun _ => endOffset_eq base src]
    simp [Located.tokensAll, recorded]

end

/-! ## The end of the source

The end settles the last item, or leaves the single null of a blank source. With what is known of
the shape of the tree this gives `read_located`: pre-order from the links, places from the tokens
of the grammar. -/

/-- A blank leaves nothing pending. -/
theorem ItemRead.eq_true_of_blank {src : List Char} (h : ItemRead s s' x blank) (hfresh : Fresh s)
    (hblank : Blank src) (hrun : s.run base src = .ok s') : blank = true := by
  obtain ⟨text, htext, hrun'⟩ := run_blank hblank hfresh base
  obtain rfl := Except.ok.inj (hrun'.symm.trans hrun)
  cases h with
  | leaf h =>
    have hpending := h.pendingTag? hfresh true
    have hnone : ({ s with text := text.reverse, start := none } : State).pendingTag? true =
        none := by
      simp [State.pendingTag?, hfresh.mode, trimBy_eq_nil_iff.mpr htext]
    rw [hnone] at hpending
    cases blank with
    | true => rfl
    | false => cases hpending
  | list hafter _ =>
    -- The reader has not left the mode of a bare head.
    have hmode := hafter.mode
    rw [show ({ s with text := text.reverse, start := none } : State).mode = s.mode from rfl,
      hfresh.mode] at hmode
    cases hmode

/-- The end of the source settles the item of a document, unless it is blank. -/
theorem ItemRead.tokensOf_finish (h : ItemRead {} s' x blank) {t : Tree}
    (hfinish : s'.finish offset = .ok t) :
    if blank then t = .single .null else tokensOf t.nodes = s'.settled offset := by
  cases h with
  | leaf h =>
    rw [h.finish] at hfinish
    obtain rfl := Except.ok.inj hfinish
    cases blank with
    | true => rfl
    | false => exact h.tokensOf_endHead fresh_init offset (Bool.false_and true)
  | list hafter hplanted =>
    rw [hafter.finish (Planted.holds_of_empty hplanted).1] at hfinish
    obtain rfl := Except.ok.inj hfinish
    exact (hafter.settled offset).symm

end SexprAsm.Reader

namespace SexprAsm

open Reader Grammar

/-- The numbers of the nodes are their places in the walk down from the root, which meets all of
them, and the links of parents and children agree. -/
structure Tree.Preordered (t : Tree) : Prop where
  preorder_root : t.preorder Tree.root = List.range t.size
  root : t.parent? Tree.root = none
  mem_iff : ∀ p c, c ∈ t.children p ↔ t.parent? c = some p
  increasing : ∀ p, (t.children p).Pairwise (· < ·)

/-- Every node records the place of its tag in the source, which is at a character, and places
increase with the numbers of the nodes. -/
structure Tree.LocatedIn (t : Tree) (source : List Char) : Prop where
  tagAt : ∀ id < t.size, ∃ offset, (t.node id).offset = some offset ∧
    TagAt 0 source (t.tag id) offset
  boundary : ∀ id offset, (t.node id).offset = some offset →
    ∃ before c after, source = before ++ c :: after ∧ offset = String.utf8Len before
  increasing : ∀ id later offset offset', id < later → (t.node id).offset = some offset →
    (t.node later).offset = some offset' → offset < offset'

namespace Tree

variable {t : Tree}

theorem Holds.preordered {x : Sexpr} (h : t.Holds x) : t.Preordered where
  preorder_root := h.preorder_eq
  root := by
    obtain ⟨-, -, n, hn, hparent⟩ := h.of_mem (List.mem_singleton_self 0)
    rw [parent?, node_eq, root, hn]
    exact hparent
  mem_iff := h.linked.mem_iff
  increasing := h.increasing

/-- A tree that records the tags where the grammar has them is located. -/
theorem located_of_tokensOf {source : List Char} {tokens : List (Value × Nat)}
    (h : tokensOf t.nodes = recorded tokens)
    (htagAt : ∀ token ∈ tokens, TagAt 0 source token.1 token.2)
    (hincreasing : tokens.Pairwise (·.2 < ·.2)) : t.LocatedIn source := by
  -- The equation of the lists, read at one node.
  have htoken (id : Nat) (hid : id < t.size) :
      ∃ token, tokens[id]? = some token ∧ t.tag id = token.1 ∧
        (t.node id).offset = some token.2 := by
    have hget : (t.nodes[id]?).map (fun n => (n.tag, n.offset)) =
        tokens[id]?.map fun token => (token.1, some token.2) := by
      have hget := congrArg (·[id]?) h
      simpa only [tokensOf, recorded, List.getElem?_map, Array.getElem?_toList] using hget
    rw [getElem?_nodes hid, Option.map_some] at hget
    obtain ⟨token, htoken, heq⟩ := Option.map_eq_some_iff.mp hget.symm
    obtain ⟨htag, hoffset⟩ := Prod.mk.inj heq
    exact ⟨token, htoken, htag.symm, hoffset.symm⟩
  have hlt (id offset : Nat) (hoffset : (t.node id).offset = some offset) : id < t.size := by
    by_contra hle
    rw [node_of_le (Nat.le_of_not_lt hle)] at hoffset
    cases hoffset
  refine ⟨fun id hid => ?_, fun id offset hoffset => ?_,
    fun id later offset offset' hlater hoffset hoffset' => ?_⟩
  · obtain ⟨token, htoken, htag, hoffset⟩ := htoken id hid
    rw [htag]
    exact ⟨token.2, hoffset, htagAt token (List.mem_of_getElem? htoken)⟩
  · obtain ⟨token, htoken, -, hoffset'⟩ := htoken id (hlt id offset hoffset)
    obtain rfl := Option.some.inj (hoffset.symm.trans hoffset')
    obtain ⟨before, c, after, hsource, hbefore⟩ :=
      (htagAt token (List.mem_of_getElem? htoken)).exists_char
    exact ⟨before, c, after, hsource, by rwa [Nat.zero_add] at hbefore⟩
  · obtain ⟨token, htoken₁, -, hsame⟩ := htoken id (hlt id offset hoffset)
    obtain ⟨token', htoken₂, -, hsame'⟩ := htoken later (hlt later offset' hoffset')
    obtain rfl := Option.some.inj (hoffset.symm.trans hsame)
    obtain rfl := Option.some.inj (hoffset'.symm.trans hsame')
    obtain ⟨hid, rfl⟩ := List.getElem?_eq_some_iff.mp htoken₁
    obtain ⟨hid', rfl⟩ := List.getElem?_eq_some_iff.mp htoken₂
    exact List.pairwise_iff_getElem.mp hincreasing id later hid hid' hlater

/-- A tree that is read is numbered in pre-order, and holds what the source says. Its nodes are
located in the source; only the single null of a blank source has no place. -/
theorem read_located {source : String} (h : Tree.read source = .ok t) :
    t.Preordered ∧ ∃ item trailer y, source.toList = item ++ trailer ∧ Trailer trailer ∧
      ItemAt 0 item y ∧ t.Holds y.sexpr ∧ (Blank item → t = .single .null) ∧
        (¬ Blank item → tokensOf t.nodes = recorded y.tokens ∧ t.LocatedIn source.toList) := by
  have hread := read_eq_ok_iff.mp h
  obtain ⟨x, ⟨item, trailer, hsource, hitem, htrailer⟩, hholds⟩ := read?_ok hread
  obtain ⟨y, hy, rfl⟩ := exists_itemAt hitem 0
  obtain ⟨s, blank, hrun, hitemRead, hblank⟩ := run_item hitem fresh_init 0
  -- The source ends with the item, since what may come after it changes nothing.
  have hfinish : s.finish source.utf8ByteSize = .ok t := by
    obtain ⟨hmode, hcomment⟩ := hitemRead.isOutside fresh_init
    rw [Tree.read?, hsource, run_append_of_eq _ hrun] at hread
    rcases htrailer with rfl | hopen
    · exact hread
    · rw [run_openComment hmode hcomment hopen] at hread
      exact (finish_inComment s true _).symm.trans hread
  have htokens := hitemRead.tokensOf_finish hfinish
  refine ⟨hholds.preordered, item, trailer, y, hsource, htrailer, hy, hholds, fun hsome => ?_,
    fun hsome => ?_⟩
  · rwa [hitemRead.eq_true_of_blank fresh_init hsome hrun, if_pos rfl] at htokens
  · rw [if_neg (mt hblank hsome), settled_item hy fresh_init hrun fun h => absurd h hsome] at htokens
    refine ⟨htokens, located_of_tokensOf htokens (fun token htoken => ?_) hy.increasing⟩
    rw [hsource]
    exact hy.tagAt (.ended hsome htrailer) token htoken

/-- Places count bytes. An escaped character is the place of its tag, after the backslash, and a comma
that of the empty tag before it. -/
theorem read_located_escaped :
    let t : Tree := ⟨#[⟨.string "é", [1, 2, 3], none, some 0⟩, ⟨.string "ab", [], some 0, some 4⟩,
      ⟨.null, [], some 0, some 8⟩, ⟨.string "c", [], some 0, some 9⟩]⟩
    Tree.read "é(\\ab, ,'c' )" = .ok t ∧ t.Preordered ∧ t.LocatedIn "é(\\ab, ,'c' )".toList := by
  intro t
  have hread : Tree.read "é(\\ab, ,'c' )" = .ok t := by decide +kernel
  obtain ⟨hpreordered, item, trailer, y, -, -, -, -, hblank, hlocated⟩ := read_located hread
  have hsome : ¬ Blank item := fun h => absurd (hblank h) (by decide)
  exact ⟨hread, hpreordered, (hlocated hsome).2⟩

end Tree

end SexprAsm
