import SexprAsm.Proofs.Tree.Links
import SexprAsm.Proofs.Value.Spelling
import SexprAsm.Tree.Printer

/-!
# Printing and reading a tree

The text of a node is an item of the grammar that says the S-expression below the node, with its
tags as they are read back. The blanks that the printer puts between the lines belong to the items
around them: those in front of a child to its head, those behind the last child to the end of that
child.

Main statement: `Tree.read_printNode`.
-/

namespace SexprAsm

open Text Grammar

/-! ## Items with blanks around them -/

/-- A text is an item that says an S-expression, also with blanks around it, and shows where it
begins. -/
structure ItemText (text : List Char) (x : Sexpr) : Prop where
  visible : ∃ c rest, text = c :: rest ∧ ¬ isIgnorable c ∧ c ≠ '\\' ∧ c ≠ ';'
  item : ∀ before after : List Char, (∀ c ∈ before, isIgnorable c) → (∀ c ∈ after, isIgnorable c) →
    Item (before ++ text ++ after) x

theorem HeadText.itemText {text : List Char} {tag : Value} (h : HeadText text tag) :
    ItemText text (.node tag []) :=
  ⟨h.visible, fun before after hbefore hafter => .leaf (h.head before after hbefore hafter)⟩

/-- Blanks before something visible are no blank. -/
theorem not_blank_of_visible {before rest : List Char} {c : Char}
    (hbefore : ∀ c ∈ before, isIgnorable c) (hc : ¬ isIgnorable c) (hslash : c ≠ '\\')
    (hsemi : c ≠ ';') : ¬ Blank (before ++ c :: rest) := by
  rintro ⟨text, hbare, htext⟩
  generalize hsrc : before ++ c :: rest = src at hbare
  induction hbare generalizing before with
  | nil => simp at hsrc
  | @plain d src text hd _ ih =>
    obtain ⟨hignorable, htext⟩ := List.forall_mem_cons.mp htext
    cases before with
    | nil =>
      obtain rfl := (List.cons.inj hsrc).1
      exact hc hignorable
    | cons b before =>
      exact ih (List.forall_mem_cons.mp hbefore).2 htext (List.cons.inj hsrc).2
  | escaped _ _ =>
    cases before with
    | nil => exact hslash (List.cons.inj hsrc).1
    | cons b before =>
      obtain rfl := (List.cons.inj hsrc).1
      exact absurd (hbefore _ List.mem_cons_self) (by decide)
  | comment _ _ _ =>
    cases before with
    | nil => exact hsemi (List.cons.inj hsrc).1
    | cons b before =>
      obtain rfl := (List.cons.inj hsrc).1
      exact absurd (hbefore _ List.mem_cons_self) (by decide)

/-- Lines with a comma between them are a row of items. -/
theorem items_intercalate {ι : Type} {line : ι → List Char} {x : ι → Sexpr} {ids : List ι}
    (hsome : ids ≠ [])
    (h : ∀ id ∈ ids, ∀ after : List Char, (∀ c ∈ after, isIgnorable c) →
      Item (line id ++ after) (x id))
    {after : List Char} (hafter : ∀ c ∈ after, isIgnorable c) :
    Items ([','].intercalate (ids.map line) ++ after) (ids.map x) := by
  induction ids with
  | nil => exact absurd rfl hsome
  | cons id ids ih =>
    obtain ⟨hid, hids⟩ := List.forall_mem_cons.mp h
    cases ids with
    | nil =>
      rw [List.map_cons, List.map_nil, List.intercalate_singleton]
      exact .one (hid after hafter)
    | cons id' ids =>
      have hitem := hid [] (by simp)
      rw [List.append_nil] at hitem
      have hrest := ih (by simp) hids
      rw [List.map_cons] at hrest
      rw [List.map_cons, List.map_cons, List.intercalate_cons_cons, List.append_assoc,
        List.append_assoc]
      exact .more hitem hrest

/-! ## The text of a node -/

namespace Tree

variable (t : Tree)

theorem ignorable_indentation (depth : Nat) :
    ∀ c ∈ (indentation depth).toList, isIgnorable c := by
  intro c hc
  rw [indentation, repeated, String.toList_ofList] at hc
  rw [List.eq_of_mem_replicate hc]
  decide

/-- What the printer puts in front of a list: nothing for a null, which an empty head says too. -/
theorem head_layout (id : NodeId) {before : List Char} (hbefore : ∀ c ∈ before, isIgnorable c) :
    Head (before ++ (if (t.tag id).isNull then "" else (t.tag id).spelling ++ " ").toList)
      (t.tag id).reread := by
  cases hnull : (t.tag id).isNull with
  | true =>
    have htag : t.tag id = .null := by
      cases htag : t.tag id with
      | null => rfl
      | _ => rw [htag] at hnull; cases hnull
    have hhead := Head.bare (bare_of_ignorable hbefore)
    rw [bareValue, Reader.trimBy_eq_nil_iff.mpr hbefore, if_pos (by rfl)] at hhead
    rw [htag, if_pos rfl, show "".toList = [] from rfl, List.append_nil]
    exact hhead
  | false =>
    have hhead := (Value.head_spelling (t.tag id)).head before [' '] hbefore
      (List.all_iff_forall_prop.mp (by decide))
    rw [if_neg (by decide), String.toList_append]
    simpa using hhead

/-- The blanks in front of a child. -/
def lead (depth : Nat) : List Char := '\n' :: (indentation depth).toList

theorem ignorable_lead (depth : Nat) : ∀ c ∈ lead depth, isIgnorable c :=
  List.forall_mem_cons.mpr ⟨by decide, ignorable_indentation depth⟩

/-- The lines of the children and the blanks behind them are the inside of a list. -/
theorem items_lines (depth : Nat) {ids : List NodeId} (hsome : ids ≠ [])
    {text : NodeId → List Char} {x : NodeId → Sexpr} (h : ∀ id ∈ ids, ItemText (text id) (x id)) :
    Items ([','].intercalate (ids.map fun id => lead (depth + 1) ++ text id) ++ lead depth)
        (ids.map x) ∧
      ¬ Blank ([','].intercalate (ids.map fun id => lead (depth + 1) ++ text id) ++ lead depth) := by
  refine ⟨items_intercalate hsome (fun id hid after hafter => ?_) (ignorable_lead depth), ?_⟩
  · exact (h id hid).item _ _ (ignorable_lead _) hafter
  · obtain ⟨id, ids, rfl⟩ := List.exists_cons_of_ne_nil hsome
    obtain ⟨c, rest, htext, hc, hslash, hsemi⟩ := (h id List.mem_cons_self).visible
    obtain ⟨tail, htail⟩ : ∃ tail, [','].intercalate
        ((id :: ids).map fun id => lead (depth + 1) ++ text id) =
          lead (depth + 1) ++ text id ++ tail := by
      cases ids with
      | nil => exact ⟨[], by simp [List.intercalate_singleton]⟩
      | cons id' ids =>
        exact ⟨[','] ++ [','].intercalate ((id' :: ids).map fun id => lead (depth + 1) ++ text id),
          by simp [List.intercalate_cons_cons]⟩
    rw [htail, htext, List.append_assoc, List.append_assoc, List.cons_append]
    exact not_blank_of_visible (ignorable_lead _) hc hslash hsemi

theorem itemText_layout (levels depth : Nat) (id : NodeId) :
    ItemText (t.layout levels depth id).toList ((t.sexprWithin levels id).map Value.reread) := by
  induction levels generalizing depth id with
  | zero => exact (Value.head_spelling (t.tag id)).itemText
  | succ levels ih =>
    rw [layout, sexprWithin, Sexpr.map, Sexpr.mapAll_eq_map, List.map_map]
    by_cases hleaf : (t.node id).isLeaf = true
    · have hchildren : t.children id = [] := List.isEmpty_iff.mp hleaf
      rw [if_pos hleaf, hchildren]
      exact (Value.head_spelling (t.tag id)).itemText
    · have hsome : t.children id ≠ [] := fun h => hleaf (List.isEmpty_iff.mpr h)
      obtain ⟨hitems, hblank⟩ := items_lines depth hsome fun child _ => ih (depth + 1) child
      let head := if (t.tag id).isNull then "" else (t.tag id).spelling ++ " "
      let inner := [','].intercalate ((t.children id).map fun child =>
        lead (depth + 1) ++ (t.layout levels (depth + 1) child).toList) ++ lead depth
      have htext : (head ++ "(" ++ ",".intercalate ((t.children id).map fun child =>
          "\n" ++ indentation (depth + 1) ++ t.layout levels (depth + 1) child) ++ "\n" ++
          indentation depth ++ ")").toList = head.toList ++ '(' :: inner ++ [')'] := by
        simp [inner, lead, String.toList_intercalate, Function.comp_def]
      rw [if_neg hleaf]
      dsimp only
      rw [htext]
      refine ⟨?_, fun before after hbefore hafter => ?_⟩
      · cases hnull : (t.tag id).isNull with
        | true => exact ⟨'(', inner ++ [')'], by simp [head, hnull], by decide, by decide, by decide⟩
        | false =>
          obtain ⟨c, rest, hspelling, hc⟩ := (Value.head_spelling (t.tag id)).visible
          exact ⟨c, rest ++ ' ' :: '(' :: (inner ++ [')']), by simp [head, hnull, hspelling], hc⟩
      · have hitem := Item.list (t.head_layout id hbefore) hblank hitems (gap_of_ignorable hafter)
        simpa [head, inner, Function.comp_def] using hitem

/-- The canonical text of a node reads back as what is below the node. -/
theorem read_printNode {t : Tree} (h : t.Reachable) {id : NodeId} (hid : id < t.size) :
    ∃ x t', t.Row [id] [x] ∧ Tree.read (t.printNode id) = .ok t' ∧
      t'.Holds (x.map Value.reread) := by
  have hitem := (t.itemText_layout t.size 0 id).item [] [] (by simp) (by simp)
  rw [List.nil_append, List.append_nil] at hitem
  have hdocument : Document (t.printNode id).toList ((t.sexpr id).map Value.reread) :=
    ⟨_, [], (List.append_nil _).symm, hitem, Or.inl rfl⟩
  obtain ⟨t', hread, hholds⟩ := Reader.read?_of_document hdocument
  exact ⟨t.sexpr id, t', h.linked.row_sexpr hid, read_eq_ok_iff.mpr hread, hholds⟩

/-- A tree that is put together from the leaves up: a type with a NaN and a text below it, which has
quotes and a line feed in it and a null as its only child. -/
theorem read_printNode_created :
    let t : Tree := ⟨#[⟨.typeName "SystemInt32", [1, 2], none, none⟩,
      ⟨.float .single 0xFFFFFFFF, [], some 0, none⟩, ⟨.string "a \"b\"\n", [3], some 0, none⟩,
      ⟨.null, [], some 2, none⟩]⟩
    t.Reachable ∧ ∃ x t', t.Row [root] [x] ∧ Tree.read (t.printNode root) = .ok t' ∧
      t'.Holds (x.map Value.reread) ∧ x.map Value.reread =
        .node (.string "SystemInt32") [.node (.float .single 0x7FC00000) [],
          .node (.string "a \"b\"\n") [.node .null []]] := by
  intro t
  let apart : Tree := ((((single (.typeName "SystemInt32")).create (.float .single 0xFFFFFFFF)).2.create
    (.string "a \"b\"\n")).2.create .null).2
  have hapart : apart.Reachable := .create (.create (.create (.single _ _) _ _) _ _) _ _
  -- The null comes below the text while that has no parent yet.
  have hnull : apart.addChild 2 3 = .ok (apart.link 2 0 3) := rfl
  have hfloat : (apart.link 2 0 3).addChild root 1 = .ok ((apart.link 2 0 3).link root 0 1) := rfl
  have htext : ((apart.link 2 0 3).link root 0 1).addChild root 2 = .ok t := by
    decide +kernel
  have ht : t.Reachable :=
    .addChild (.addChild (.addChild hapart (by decide) (by decide) hnull) (by decide) (by decide)
      hfloat) (by decide) (by decide) htext
  obtain ⟨x, t', hrow, hread, hholds⟩ := read_printNode ht (show root < t.size by decide)
  have ht' : t' = ⟨#[⟨.string "SystemInt32", [1, 2], none, some 0⟩,
      ⟨.float .single 0x7FC00000, [], some 0, some 16⟩, ⟨.string "a \"b\"\n", [3], some 0, some 24⟩,
      ⟨.null, [], some 2, some 42⟩]⟩ :=
    Except.ok.inj (hread.symm.trans (by decide +kernel))
  refine ⟨ht, x, t', hrow, hread, hholds, ?_⟩
  rw [← hholds.sexpr_eq, ht']
  rfl

end Tree

end SexprAsm
