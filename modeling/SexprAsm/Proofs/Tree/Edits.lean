import SexprAsm.Proofs.MadeOf
import SexprAsm.Proofs.Tree.Links

/-!
# Editing a tree

A tree is edited by adding nodes, and by attaching and detaching them (`Tree.Edit`). Edits may come
in any order, and may fail. All of them keep the links of a forest: a child stands once in the list
of its parent and in no other list, and the way up from every node ends (`Tree.Depth`). An edit
fails for the reasons of `Edit.Fails` and for no other; if it succeeds, it changes what `Edit.Gives`
says and nothing else (`Tree.edits_keep_forest`).

An arena is written in place, one link after the other (`Edit.inPlace`). All checks come before the
first link, so an edit that fails has written nothing (`Edit.inPlace_eq`).
-/

namespace SexprAsm.Tree

/-- An edit of a tree. -/
inductive Edit where
  | create (tag : Value)
  | addChild (parent child : NodeId)
  | insertChild (parent : NodeId) (index : Nat) (child : NodeId)
  | removeChild (parent : NodeId) (index : Nat)
  deriving DecidableEq, Repr

namespace Edit

/-- The nodes that an edit names are in the tree. -/
def Names (t : Tree) : Edit → Prop
  | create _ => True
  | addChild parent child => parent < t.size ∧ child < t.size
  | insertChild parent _ child => parent < t.size ∧ child < t.size
  | removeChild parent _ => parent < t.size

/-- The node that an edit returns, if it returns one, and the edited tree. -/
def apply (t : Tree) : Edit → Except TreeError (Option NodeId × Tree)
  | create tag => .ok (some (t.create tag).1, (t.create tag).2)
  | addChild parent child => (t.addChild parent child).map fun t' => (none, t')
  | insertChild parent index child => (t.insertChild parent index child).map fun t' => (none, t')
  | removeChild parent index =>
    (t.removeChild parent index).map fun found => (some found.1, found.2)

/-! ## Edits in place -/

/-- Writes a node of the arena. -/
def write (id : NodeId) (f : Node → Node) : EStateM TreeError Tree Unit :=
  modify fun t => ⟨t.nodes.modify id f⟩

/-- Attaches a node: three checks, then one link after the other. -/
def attach (parent : NodeId) (index : Nat) (child : NodeId) : EStateM TreeError Tree Unit := do
  let t ← get
  if t.isAncestorOrSelf child parent then throw (.cycle parent child)
  if let some owner := t.parent? child then throw (.alreadyOwned child owner)
  let count := (t.children parent).length
  if count < index then throw (.indexOutOfRange index count)
  write parent fun n => { n with children := n.children.insertIdx index child }
  write child fun n => { n with parent := some parent }

/-- Detaches a node: one check, then one link after the other. -/
def detach (parent : NodeId) (index : Nat) : EStateM TreeError Tree NodeId := do
  let t ← get
  match (t.children parent)[index]? with
  | none => throw (.indexOutOfRange index (t.children parent).length)
  | some child =>
    write parent fun n => { n with children := n.children.eraseIdx index }
    write child fun n => { n with parent := none }
    return child

/-- An edit of an arena that is written in place. -/
def inPlace : Edit → EStateM TreeError Tree (Option NodeId)
  | create tag => do
    let (id, t') := (← get).create tag
    set t'
    return some id
  | addChild parent child => do
    let t ← get
    attach parent (t.children parent).length child
    return none
  | insertChild parent index child => do
    attach parent index child
    return none
  | removeChild parent index => do
    let child ← detach parent index
    return some child

theorem get_bind {α : Type} (t : Tree) (next : Tree → EStateM TreeError Tree α) :
    (get >>= next) t = next t t := rfl

theorem attach_eq (t : Tree) (parent : NodeId) (index : Nat) (child : NodeId) :
    attach parent index child t =
      match t.insertChild parent index child with
      | .ok t' => .ok () t'
      | .error e => .error e t := by
  unfold attach Tree.insertChild
  rw [get_bind]
  cases t.isAncestorOrSelf child parent with
  | true => rfl
  | false =>
    cases t.parent? child with
    | some owner => rfl
    | none =>
      by_cases hindex : (t.children parent).length < index
      · simp only [hindex, if_true]
        rfl
      · simp only [hindex, if_false]
        rfl

theorem detach_eq (t : Tree) (parent : NodeId) (index : Nat) :
    detach parent index t =
      match t.removeChild parent index with
      | .ok (child, t') => .ok child t'
      | .error e => .error e t := by
  unfold detach Tree.removeChild
  rw [get_bind]
  cases (t.children parent)[index]? with
  | none => rfl
  | some child => rfl

/-- In place, an edit comes to the edited tree; if it fails, the arena is as it was. -/
theorem inPlace_eq (t : Tree) (edit : Edit) :
    edit.inPlace t =
      match edit.apply t with
      | .ok (found, t') => .ok found t'
      | .error e => .error e t := by
  have hattach (parent : NodeId) (index : Nat) (child : NodeId) :
      (attach parent index child >>= fun _ => pure none :
          EStateM TreeError Tree (Option NodeId)) t =
        match (t.insertChild parent index child).map fun t' => ((none : Option NodeId), t') with
        | .ok (found, t') => .ok found t'
        | .error e => .error e t := by
    show EStateM.bind _ _ t = _
    rw [EStateM.bind, attach_eq]
    cases t.insertChild parent index child <;> rfl
  cases edit with
  | create tag => rfl
  | addChild parent child => exact hattach parent (t.children parent).length child
  | insertChild parent index child => exact hattach parent index child
  | removeChild parent index =>
    show EStateM.bind _ _ t = _
    rw [EStateM.bind, detach_eq, apply]
    cases t.removeChild parent index <;> rfl

/-- The tree after an edit, also if it fails. -/
def after (t : Tree) (edit : Edit) : Tree := endState edit.inPlace t

end Edit

/-- The tree after a sequence of edits. -/
def afterAll (t : Tree) (edits : List Edit) : Tree := edits.foldl Edit.after t

/-- Every edit of a sequence names nodes that are there when its turn comes. -/
def Editable : Tree → List Edit → Prop
  | _, [] => True
  | t, edit :: edits => edit.Names t ∧ Editable (edit.after t) edits

/-! ## What edits do -/

/-- Only the children of one node and the parent of another differ. -/
structure Relinks (t : Tree) (p : NodeId) (list : List NodeId) (c : NodeId) (up : Option NodeId)
    (t' : Tree) : Prop where
  size : t'.size = t.size
  node : ∀ id, t'.node id =
    { t.node id with
      children := if id = p then list else t.children id
      parent := if id = c then up else t.parent? id }

namespace Edit

/-- Why an edit fails. A circle is looked for first, then an owner, and then the place. -/
inductive Fails (t : Tree) : Edit → TreeError → Prop where
  | cycle {p c : NodeId} {index : Nat} (h : t.AncestorOrSelf c p) :
      Fails t (insertChild p index c) (.cycle p c)
  | owned {p c owner : NodeId} {index : Nat} (h : ¬ t.AncestorOrSelf c p)
      (howner : t.parent? c = some owner) : Fails t (insertChild p index c) (.alreadyOwned c owner)
  | outOfRange {p c : NodeId} {index : Nat} (h : ¬ t.AncestorOrSelf c p)
      (howner : t.parent? c = none) (hindex : (t.children p).length < index) :
      Fails t (insertChild p index c) (.indexOutOfRange index (t.children p).length)
  | add {p c : NodeId} {e : TreeError} (h : Fails t (insertChild p (t.children p).length c) e) :
      Fails t (addChild p c) e
  | remove {p : NodeId} {index : Nat} (hindex : (t.children p).length ≤ index) :
      Fails t (removeChild p index) (.indexOutOfRange index (t.children p).length)

/-- What an edit that succeeds returns, and all that it changes. -/
inductive Gives (t : Tree) : Edit → Option NodeId → Tree → Prop where
  | create {tag : Value} {t' : Tree} (hsize : t'.size = t.size + 1)
      (hnode : ∀ id, t'.node id = if id = t.size then { tag := tag } else t.node id) :
      Gives t (create tag) (some t.size) t'
  | insert {p c : NodeId} {index : Nat} {t' : Tree}
      (h : t.Relinks p ((t.children p).insertIdx index c) c (some p) t') :
      Gives t (insertChild p index c) none t'
  | add {p c : NodeId} {t' : Tree} (h : t.Relinks p (t.children p ++ [c]) c (some p) t') :
      Gives t (addChild p c) none t'
  | remove {p c : NodeId} {index : Nat} {t' : Tree} (hchild : (t.children p)[index]? = some c)
      (h : t.Relinks p ((t.children p).eraseIdx index) c none t') :
      Gives t (removeChild p index) (some c) t'

end Edit

variable {t t' : Tree} {p c : NodeId} {index : Nat}

theorem relinks_relinked {list : List NodeId} {up : Option NodeId} (hp : p < t.size)
    (hc : c < t.size) : t.Relinks p list c up (t.relinked p list c up) :=
  ⟨by simp [relinked, size], node_relinked hp hc⟩

/-- In a linked tree an insertion fails for the reasons given, in that order. -/
theorem Linked.insertChild_error_iff (h : t.Linked) (hp : p < t.size) (e : TreeError) :
    t.insertChild p index c = .error e ↔ (Edit.insertChild p index c).Fails t e := by
  have hiff := h.isAncestorOrSelf_iff (a := c) hp
  unfold Tree.insertChild
  constructor
  · intro herror
    split at herror
    next hanc =>
      obtain rfl := Except.error.inj herror
      exact .cycle (hiff.mp hanc)
    next hanc =>
      have hnot : ¬ t.AncestorOrSelf c p := fun hmem => hanc (hiff.mpr hmem)
      split at herror
      next owner howner =>
        obtain rfl := Except.error.inj herror
        exact .owned hnot howner
      next howner =>
        dsimp only at herror
        split at herror
        next hindex =>
          obtain rfl := Except.error.inj herror
          exact .outOfRange hnot howner hindex
        next => cases herror
  · intro hfails
    cases hfails with
    | cycle hanc => rw [if_pos (hiff.mpr hanc)]
    | owned hanc howner => rw [if_neg fun hmem => hanc (hiff.mp hmem), howner]
    | outOfRange hanc howner hindex =>
      rw [if_neg fun hmem => hanc (hiff.mp hmem), howner]
      exact if_pos hindex

theorem removeChild_error_iff (e : TreeError) :
    t.removeChild p index = .error e ↔ (Edit.removeChild p index).Fails t e := by
  unfold Tree.removeChild
  constructor
  · intro herror
    split at herror
    next hnone =>
      obtain rfl := Except.error.inj herror
      exact .remove (List.getElem?_eq_none_iff.mp hnone)
    next => cases herror
  · intro hfails
    cases hfails with
    | remove hindex => rw [List.getElem?_eq_none hindex]

theorem map_eq_error_iff {α β : Type} {result : Except TreeError α} {f : α → β} {e : TreeError} :
    result.map f = .error e ↔ result = .error e := by
  cases result <;> simp [Except.map]

theorem map_eq_ok_iff {α β : Type} {result : Except TreeError α} {f : α → β} {b : β} :
    result.map f = .ok b ↔ ∃ a, result = .ok a ∧ f a = b := by
  cases result <;> simp [Except.map]

/-- An edit fails exactly for the reasons given. -/
theorem Linked.apply_error_iff (h : t.Linked) {edit : Edit} (hnames : edit.Names t)
    (e : TreeError) : edit.apply t = .error e ↔ edit.Fails t e := by
  cases edit with
  | create tag =>
    constructor
    · intro herror
      cases herror
    · intro hfails
      cases hfails
  | addChild p c =>
    refine map_eq_error_iff.trans ((h.insertChild_error_iff hnames.1 e).trans ⟨.add, ?_⟩)
    intro hfails
    cases hfails with
    | add hfails => exact hfails
  | insertChild p index c => exact map_eq_error_iff.trans (h.insertChild_error_iff hnames.1 e)
  | removeChild p index => exact map_eq_error_iff.trans (removeChild_error_iff e)

/-- An edit that succeeds changes what is said and nothing else. -/
theorem Linked.apply_gives (h : t.Linked) {edit : Edit} (hnames : edit.Names t)
    {found : Option NodeId} (happly : edit.apply t = .ok (found, t')) : edit.Gives t found t' := by
  cases edit with
  | create tag =>
    obtain ⟨rfl, rfl⟩ := Prod.mk.inj (Except.ok.inj happly)
    exact .create (Array.size_push _) (node_create t tag none)
  | addChild p c =>
    obtain ⟨t₁, hinsert, hpair⟩ := map_eq_ok_iff.mp happly
    obtain ⟨rfl, rfl⟩ := Prod.mk.inj hpair
    obtain ⟨-, -, -, rfl⟩ := insertChild_ok hinsert
    rw [List.insertIdx_length_self]
    exact .add (relinks_relinked hnames.1 hnames.2)
  | insertChild p index c =>
    obtain ⟨t₁, hinsert, hpair⟩ := map_eq_ok_iff.mp happly
    obtain ⟨rfl, rfl⟩ := Prod.mk.inj hpair
    obtain ⟨-, -, -, rfl⟩ := insertChild_ok hinsert
    exact .insert (relinks_relinked hnames.1 hnames.2)
  | removeChild p index =>
    obtain ⟨⟨c, t₁⟩, hremove, hpair⟩ := map_eq_ok_iff.mp happly
    obtain ⟨rfl, rfl⟩ := Prod.mk.inj hpair
    obtain ⟨hchild, rfl⟩ := removeChild_ok hremove
    exact .remove hchild (relinks_relinked hnames (h.child_lt (List.mem_of_getElem? hchild)))

/-! ## Sequences of edits -/

theorem Reachable.apply (h : t.Reachable) {edit : Edit} (hnames : edit.Names t)
    {found : Option NodeId} (happly : edit.apply t = .ok (found, t')) : t'.Reachable := by
  cases edit with
  | create tag =>
    obtain ⟨-, rfl⟩ := Prod.mk.inj (Except.ok.inj happly)
    exact h.create tag none
  | addChild p c =>
    obtain ⟨t₁, hadd, hpair⟩ := map_eq_ok_iff.mp happly
    obtain ⟨-, rfl⟩ := Prod.mk.inj hpair
    exact h.addChild hnames.1 hnames.2 hadd
  | insertChild p index c =>
    obtain ⟨t₁, hinsert, hpair⟩ := map_eq_ok_iff.mp happly
    obtain ⟨-, rfl⟩ := Prod.mk.inj hpair
    exact h.insertChild hnames.1 hnames.2 hinsert
  | removeChild p index =>
    obtain ⟨result, hremove, hpair⟩ := map_eq_ok_iff.mp happly
    obtain ⟨-, rfl⟩ := Prod.mk.inj hpair
    exact h.removeChild hremove

theorem Reachable.after (h : t.Reachable) {edit : Edit} (hnames : edit.Names t) :
    (edit.after t).Reachable := by
  rw [Edit.after, endState, Edit.inPlace_eq]
  cases happly : edit.apply t with
  | error e => exact h
  | ok result => exact h.apply hnames happly

theorem Reachable.afterAll (h : t.Reachable) {edits : List Edit} (hedits : t.Editable edits) :
    (t.afterAll edits).Reachable := by
  induction edits generalizing t with
  | nil => exact h
  | cons edit edits ih => exact ih (h.after hedits.1) hedits.2

/-! ## The forest

Links that agree and a rank along them make a forest: a node is a child of one other node at
most, and the way up from it ends. -/

theorem Linked.count_children (h : t.Linked) (p c : NodeId) :
    (t.children p).count c = if t.parent? c = some p then 1 else 0 := by
  split
  next hparent => exact List.count_eq_one_of_mem (h.nodup p) ((h.mem_iff p c).mpr hparent)
  next hparent => exact List.count_eq_zero.mpr fun hmem => hparent ((h.mem_iff p c).mp hmem)

/-- The number of parent links from a node up to one without a parent. -/
inductive Depth (t : Tree) : Nat → NodeId → Prop where
  | top {id : NodeId} (hparent : t.parent? id = none) : Depth t 0 id
  | up {n : Nat} {c p : NodeId} (hparent : t.parent? c = some p) (h : Depth t n p) :
      Depth t (n + 1) c

/-- The way up from every node ends, after fewer links than there are nodes. -/
theorem Linked.exists_depth (h : t.Linked) {id : NodeId} (hid : id < t.size) :
    ∃ n < t.size, t.Depth n id := by
  obtain ⟨rank, hrank, hbound⟩ := h.exists_rank_lt
  -- Ranks grow on the way up and stay below the number of nodes.
  have hclimb : ∀ left id, id < t.size → t.size ≤ rank id + left →
      ∃ n, n + rank id < t.size ∧ t.Depth n id := by
    intro left
    induction left with
    | zero => exact fun id hid hleft => absurd hleft (Nat.not_le_of_lt (hbound id hid))
    | succ left ih =>
      intro id hid hleft
      cases hparent : t.parent? id with
      | none => exact ⟨0, by simpa using hbound id hid, .top hparent⟩
      | some p =>
        have hlt := hrank id p hparent
        obtain ⟨n, hn, hdepth⟩ := ih p (h.parent_lt hparent) (by omega)
        exact ⟨n + 1, by omega, .up hparent hdepth⟩
  obtain ⟨n, hn, hdepth⟩ := hclimb t.size id hid (Nat.le_add_left _ _)
  exact ⟨n, by omega, hdepth⟩

/-- Whatever edits of existing nodes are made to a single node or to a tree that was read, in any
order and with failures among them: the links are those of a forest, and the bounded walk of the
search for circles meets all ancestors. The next edit fails exactly for the reasons given, and in
place it then leaves the whole arena as it was; if it succeeds, nothing changes but what is said. -/
theorem edits_keep_forest {t₀ t : Tree} {edits : List Edit}
    (hstart : (∃ tag, t₀ = single tag) ∨ ∃ source, Tree.read source = .ok t₀)
    (hedits : t₀.Editable edits) (ht : t₀.afterAll edits = t) :
    (∀ p c, (t.children p).count c = if t.parent? c = some p then 1 else 0) ∧
      (∀ id < t.size, ∃ n < t.size, t.Depth n id) ∧
      (∀ a, ∀ id < t.size, t.isAncestorOrSelf a id = true ↔ t.AncestorOrSelf a id) ∧
      ∀ edit : Edit, edit.Names t →
        (∀ e, edit.apply t = .error e ↔ edit.Fails t e) ∧
        (∀ e, edit.apply t = .error e → edit.inPlace t = .error e t) ∧
        ∀ found t', edit.apply t = .ok (found, t') →
          edit.inPlace t = .ok found t' ∧ edit.Gives t found t' := by
  have hreachable : t₀.Reachable := by
    obtain ⟨tag, rfl⟩ | ⟨source, hread⟩ := hstart
    · exact .single tag none
    · exact .read hread
  have hlinked : t.Linked := by
    rw [← ht]
    exact (hreachable.afterAll hedits).linked
  refine ⟨hlinked.count_children, fun id hid => hlinked.exists_depth hid,
    fun a id hid => hlinked.isAncestorOrSelf_iff hid, fun edit hnames => ⟨?_, ?_, ?_⟩⟩
  · exact hlinked.apply_error_iff hnames
  · intro e herror
    rw [Edit.inPlace_eq, herror]
  · intro found t' happly
    refine ⟨?_, hlinked.apply_gives hnames happly⟩
    rw [Edit.inPlace_eq, happly]

/-- The root is attached below a new node; the new node cannot come below the root then, nor can
the root be attached once more. -/
theorem edits_keep_forest_root : ∃ t : Tree,
    t = (single .null).afterAll [.create (.bool true), .addChild 1 0, .create .null] ∧
    (t.children 1).count 0 = 1 ∧ t.Depth 1 0 ∧
    (Edit.addChild 0 1).inPlace t = .error (.cycle 0 1) t ∧
    (Edit.addChild 2 0).inPlace t = .error (.alreadyOwned 0 1) t := by
  have hedits : (single .null).Editable [.create (.bool true), .addChild 1 0, .create .null] :=
    ⟨trivial, ⟨by decide, by decide⟩, trivial, trivial⟩
  obtain ⟨hcount, -, -, hnext⟩ := edits_keep_forest (Or.inl ⟨.null, rfl⟩) hedits rfl
  refine ⟨_, rfl, ?_, ?_, ?_, ?_⟩
  · rw [hcount]
    decide
  · exact .up (p := 1) (by decide) (.top (by decide))
  · exact (hnext (.addChild 0 1) ⟨by decide, by decide⟩).2.1 _ (by decide)
  · exact (hnext (.addChild 2 0) ⟨by decide, by decide⟩).2.1 _ (by decide)

end SexprAsm.Tree
