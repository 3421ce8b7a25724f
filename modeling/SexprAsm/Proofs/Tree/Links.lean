import Mathlib.Data.Finset.Card
import Mathlib.Data.Finset.Range
import Mathlib.Tactic.Common
import SexprAsm.Proofs.Reader.Acceptance

/-!
# The links of a tree

A node names its children, and every child names its parent. `Linked` is the invariant that ties
the two kinds of links together: they agree, no node is listed twice, and parents are ranked above
their children, so that links lead round in no circle. Every tree that can be made has it
(`Reachable.linked`).

The walk of `isAncestorOrSelf` takes no more steps than there are nodes. In a linked tree that is
enough to meet every ancestor (`Linked.isAncestorOrSelf_iff`), so `insertChild` refuses every
circle.
-/

namespace SexprAsm.Tree

variable {t t' : Tree} {p c : Nat} {index : Nat}

/-! ## Nodes after a change

Edits change at most two nodes, the children of one and the parent of another one (`relinked`).
What an edit that succeeds does is brought into this form. -/

theorem node_eq (t : Tree) (id : Nat) : t.node id = t.nodes[id]?.getD { tag := .null } :=
  Array.getD_eq_getD_getElem? ..

theorem node_of_le {id : Nat} (h : t.size ≤ id) : t.node id = { tag := .null } := by
  rw [node_eq, Array.getElem?_eq_none h]
  rfl

theorem lt_size_of_mem_children (h : c ∈ t.children p) : p < t.size := by
  by_contra hle
  rw [children, node_of_le (Nat.le_of_not_lt hle)] at h
  cases h

theorem lt_size_of_parent? (h : t.parent? c = some p) : c < t.size := by
  by_contra hle
  rw [parent?, node_of_le (Nat.le_of_not_lt hle)] at h
  cases h

theorem node_modify (t : Tree) (id : Nat) (f : Node → Node) (other : Nat) (h : id < t.size) :
    node ⟨t.nodes.modify id f⟩ other = if other = id then f (t.node id) else t.node other := by
  rw [node_eq, Array.getElem?_modify]
  by_cases hid : id = other
  · subst hid
    rw [if_pos rfl, if_pos rfl, node_eq, Array.getElem?_eq_getElem h]
    rfl
  · rw [if_neg hid, if_neg (Ne.symm hid), node_eq]

/-- Changes of two nodes: of the children of one, and of the parent of the other. -/
def relinked (t : Tree) (p : NodeId) (list : List NodeId) (c : NodeId) (up : Option NodeId) : Tree :=
  ⟨(t.nodes.modify p fun n => { n with children := list }).modify c fun n =>
    { n with parent := up }⟩

section

variable {list : List NodeId} {up : Option NodeId}

theorem node_relinked (hp : p < t.size) (hc : c < t.size) (id : Nat) :
    (t.relinked p list c up).node id =
      { t.node id with
        children := if id = p then list else t.children id
        parent := if id = c then up else t.parent? id } := by
  have hsize : c < (Tree.mk (t.nodes.modify p fun n => { n with children := list })).size := by
    simpa [size] using hc
  rw [relinked, node_modify ⟨_⟩ c _ id hsize, node_modify t p _ id hp]
  by_cases hic : id = c
  · subst hic
    rw [if_pos rfl, if_pos rfl, node_modify t p _ id hp]
    by_cases hip : id = p
    · subst hip
      simp
    · simp [hip, children]
  · by_cases hip : id = p
    · subst hip
      simp [hic, parent?]
    · simp [hic, hip, children, parent?]

theorem children_relinked (hp : p < t.size) (hc : c < t.size) (id : Nat) :
    (t.relinked p list c up).children id = if id = p then list else t.children id := by
  rw [children, node_relinked hp hc]

theorem parent?_relinked (hp : p < t.size) (hc : c < t.size) (id : Nat) :
    (t.relinked p list c up).parent? id = if id = c then up else t.parent? id := by
  rw [parent?, node_relinked hp hc]

end

theorem modify_eq_relinked (t : Tree) (p : Nat) (f : List NodeId → List NodeId) (c : Nat)
    (up : Option NodeId) :
    (⟨(t.nodes.modify p fun n => { n with children := f n.children }).modify c fun n =>
      { n with parent := up }⟩ : Tree) = t.relinked p (f (t.children p)) c up := by
  have hmodify : (t.nodes.modify p fun n => { n with children := f n.children }) =
      t.nodes.modify p fun n => { n with children := f (t.children p) } := by
    refine Array.ext_getElem? fun i => ?_
    rw [Array.getElem?_modify, Array.getElem?_modify]
    by_cases hi : p = i
    · subst hi
      rw [if_pos rfl, if_pos rfl, children, node_eq]
      cases t.nodes[p]? <;> rfl
    · rw [if_neg hi, if_neg hi]
  rw [relinked, hmodify]

/-- What an insertion that succeeds has checked and does. -/
theorem insertChild_ok (h : t.insertChild p index c = .ok t') :
    t.isAncestorOrSelf c p = false ∧ t.parent? c = none ∧ index ≤ (t.children p).length ∧
      t' = t.relinked p ((t.children p).insertIdx index c) c (some p) := by
  rw [insertChild] at h
  split at h
  · cases h
  next hanc =>
    split at h
    · cases h
    next howner =>
      dsimp only at h
      split at h
      · cases h
      next hindex =>
        refine ⟨by simpa using hanc, howner, by omega, ?_⟩
        rw [← Except.ok.inj h]
        exact modify_eq_relinked t p (fun l => l.insertIdx index c) c (some p)

/-- What a removal that succeeds has checked and does. -/
theorem removeChild_ok (h : t.removeChild p index = .ok (c, t')) :
    (t.children p)[index]? = some c ∧
      t' = t.relinked p ((t.children p).eraseIdx index) c none := by
  rw [removeChild] at h
  split at h
  · cases h
  next child hchild =>
    obtain ⟨rfl, rfl⟩ := Prod.mk.inj (Except.ok.inj h)
    exact ⟨hchild, modify_eq_relinked t p (fun l => l.eraseIdx index) _ none⟩

theorem node_create (t : Tree) (tag : Value) (offset : Option Nat) (id : Nat) :
    (t.create tag offset).2.node id =
      if id = t.size then { tag := tag, offset := offset } else t.node id := by
  rw [create, node_eq, Array.getElem?_push, node_eq]
  rw [size]
  by_cases h : id = t.nodes.size
  · rw [if_pos h, if_pos h]
    rfl
  · rw [if_neg h, if_neg h]

/-! ## Ancestors

The walk up the parent links is bounded by the number of nodes. Along the links some rank
increases, so the walk meets every ancestor before it runs out, and decides whether a node is
one. -/

/-- A chain of parent links leads from a node to its ancestor. -/
inductive AncestorOrSelf (t : Tree) (a : NodeId) : NodeId → Prop where
  | self : AncestorOrSelf t a a
  | up {c p : NodeId} (hparent : t.parent? c = some p) (h : AncestorOrSelf t a p) :
      AncestorOrSelf t a c

theorem AncestorOrSelf.trans_up {a b q : Nat} (h : t.AncestorOrSelf a b)
    (hparent : t.parent? a = some q) : t.AncestorOrSelf q b := by
  induction h with
  | self => exact .up hparent .self
  | up hup _ ih => exact .up hup ih

/-- Links agree, and a rank decreases along them. -/
structure Linked (t : Tree) : Prop where
  mem_iff : ∀ p c, c ∈ t.children p ↔ t.parent? c = some p
  nodup : ∀ p, (t.children p).Nodup
  ranked : ∃ rank : NodeId → Nat, ∀ c p, t.parent? c = some p → rank c < rank p

theorem Linked.parent_lt (h : t.Linked) (hparent : t.parent? c = some p) : p < t.size :=
  lt_size_of_mem_children ((h.mem_iff p c).mpr hparent)

theorem Linked.child_lt (h : t.Linked) (hchild : c ∈ t.children p) : c < t.size :=
  lt_size_of_parent? ((h.mem_iff p c).mp hchild)

theorem ancestorOrSelf_of_climbMeets {a : NodeId} {steps : Nat} {id : NodeId}
    (h : t.climbMeets a steps id = true) : t.AncestorOrSelf a id := by
  induction steps generalizing id with
  | zero =>
    obtain rfl : id = a := by simpa [climbMeets] using h
    exact .self
  | succ steps ih =>
    rw [climbMeets, Bool.or_eq_true, beq_iff_eq] at h
    rcases h with rfl | h
    · exact .self
    · split at h
      next parent hparent => exact .up hparent (ih h)
      next => cases h

/-- Counting the nodes of lesser rank gives ranks below the number of nodes. -/
theorem Linked.exists_rank_lt (h : t.Linked) : ∃ rank : NodeId → Nat,
    (∀ c p, t.parent? c = some p → rank c < rank p) ∧ ∀ id < t.size, rank id < t.size := by
  obtain ⟨rank, hrank⟩ := h.ranked
  let lesser (id : NodeId) : Finset Nat := (Finset.range t.size).filter (rank · < rank id)
  refine ⟨fun id => (lesser id).card, fun c p hparent => ?_, fun id hid => ?_⟩
  · have hlt := hrank c p hparent
    refine Finset.card_lt_card (Finset.ssubset_iff_of_subset ?_ |>.mpr ⟨c, ?_, ?_⟩)
    · intro n hn
      rw [Finset.mem_filter] at hn ⊢
      exact ⟨hn.1, Nat.lt_trans hn.2 hlt⟩
    · exact Finset.mem_filter.mpr ⟨Finset.mem_range.mpr (lt_size_of_parent? hparent), hlt⟩
    · simp [lesser]
  · have hss : lesser id ⊂ Finset.range t.size := by
      refine Finset.ssubset_iff_of_subset (Finset.filter_subset _ _) |>.mpr ⟨id, ?_, ?_⟩
      · exact Finset.mem_range.mpr hid
      · simp
    simpa using Finset.card_lt_card hss

/-- A walk up the ranks meets every ancestor before they run out. -/
theorem climbMeets_of_ancestorOrSelf {a : NodeId} (hlinked : t.Linked) {rank : NodeId → Nat}
    (hrank : ∀ c p, t.parent? c = some p → rank c < rank p)
    (hbound : ∀ id < t.size, rank id < t.size) {steps : Nat} {id : NodeId} (hid : id < t.size)
    (hsteps : t.size ≤ rank id + steps) (h : t.AncestorOrSelf a id) :
    t.climbMeets a steps id = true := by
  induction steps generalizing id with
  | zero => exact absurd hsteps (Nat.not_le_of_lt (hbound id hid))
  | succ steps ih =>
    rw [climbMeets, Bool.or_eq_true, beq_iff_eq]
    cases h with
    | self => exact Or.inl rfl
    | @up _ q hparent h =>
      have hlt := hrank id q hparent
      rw [hparent]
      exact Or.inr (ih (hlinked.parent_lt hparent) (by omega) h)

/-- In a linked tree the bounded walk decides ancestry. -/
theorem Linked.isAncestorOrSelf_iff (h : t.Linked) {a id : Nat} (hid : id < t.size) :
    t.isAncestorOrSelf a id = true ↔ t.AncestorOrSelf a id := by
  refine ⟨ancestorOrSelf_of_climbMeets, fun hanc => ?_⟩
  obtain ⟨rank, hrank, hbound⟩ := h.exists_rank_lt
  exact climbMeets_of_ancestorOrSelf h hrank hbound hid (Nat.le_add_left _ _) hanc

/-! ## The invariant

Attaching a node where no circle comes of it keeps the links in order: the ancestors of the new
parent are ranked above all that is below the child. Detaching only takes links away. -/

theorem Linked.create (h : t.Linked) (tag : Value) (offset : Option Nat) :
    (t.create tag offset).2.Linked := by
  have hfresh := node_of_le (t := t) (Nat.le_refl _)
  have hchildren (id : Nat) : (t.create tag offset).2.children id = t.children id := by
    rw [children, node_create, children]
    split
    next hid => rw [hid, hfresh]
    next => rfl
  have hparent (id : Nat) : (t.create tag offset).2.parent? id = t.parent? id := by
    rw [parent?, node_create, parent?]
    split
    next hid => rw [hid, hfresh]
    next => rfl
  obtain ⟨rank, hrank⟩ := h.ranked
  exact
    { mem_iff := fun p c => by rw [hchildren, hparent]; exact h.mem_iff p c
      nodup := fun p => by rw [hchildren]; exact h.nodup p
      ranked := ⟨rank, fun c p hcp => hrank c p (by rwa [hparent] at hcp)⟩ }

/-- The ancestors of the new parent rise above everything below the child. -/
theorem Linked.insertChild (h : t.Linked) (hp : p < t.size) (hc : c < t.size)
    (hinsert : t.insertChild p index c = .ok t') : t'.Linked := by
  obtain ⟨hanc, howner, hindex, rfl⟩ := insertChild_ok hinsert
  have hnot : ¬ t.AncestorOrSelf c p := by
    rw [← h.isAncestorOrSelf_iff hp, hanc]
    decide
  have hnew : c ∉ t.children p := by
    rw [h.mem_iff, howner]
    exact fun h => by cases h
  obtain ⟨rank, hrank⟩ := h.ranked
  refine ⟨fun q d => ?_, fun q => ?_, ?_⟩
  · rw [children_relinked hp hc, parent?_relinked hp hc]
    by_cases hd : d = c
    · subst hd
      by_cases hq : q = p
      · subst hq
        simp [List.mem_insertIdx hindex]
      · rw [if_neg hq, if_pos rfl, h.mem_iff, howner]
        simp [Ne.symm hq]
    · rw [if_neg hd, ← h.mem_iff]
      by_cases hq : q = p
      · subst hq
        simp [List.mem_insertIdx hindex, hd]
      · rw [if_neg hq]
  · rw [children_relinked hp hc]
    by_cases hq : q = p
    · subst hq
      rw [if_pos rfl]
      exact (List.perm_insertIdx c _ hindex).nodup_iff.mpr (List.nodup_cons.mpr ⟨hnew, h.nodup q⟩)
    · rw [if_neg hq]
      exact h.nodup q
  · classical
    -- Lifted by the rank of the child, the new parent and its ancestors stay above it.
    refine ⟨fun n => if t.AncestorOrSelf n p then rank n + rank c + 1 else rank n, ?_⟩
    intro d q hdq
    rw [parent?_relinked hp hc] at hdq
    dsimp only
    by_cases hd : d = c
    · subst hd
      obtain rfl : p = q := by simpa using hdq
      rw [if_neg hnot, if_pos .self]
      omega
    · rw [if_neg hd] at hdq
      have hlt := hrank d q hdq
      have hup : t.AncestorOrSelf d p → t.AncestorOrSelf q p := fun hd => hd.trans_up hdq
      by_cases hanc : t.AncestorOrSelf d p
      · rw [if_pos hanc, if_pos (hup hanc)]
        omega
      · rw [if_neg hanc]
        split <;> omega

theorem Linked.removeChild (h : t.Linked) (hremove : t.removeChild p index = .ok (c, t')) :
    t'.Linked := by
  obtain ⟨hget, rfl⟩ := removeChild_ok hremove
  have hmem : c ∈ t.children p := List.mem_of_getElem? hget
  have hp := lt_size_of_mem_children hmem
  have hc := h.child_lt hmem
  have hown := (h.mem_iff p c).mp hmem
  -- The child stood in the list only once.
  have herase (d : Nat) : d ∈ (t.children p).eraseIdx index ↔ d ∈ t.children p ∧ d ≠ c := by
    rw [List.mem_eraseIdx_iff_getElem?]
    constructor
    · rintro ⟨i, hi, hd⟩
      refine ⟨List.mem_of_getElem? hd, ?_⟩
      rintro rfl
      have hlt := (List.getElem?_eq_some_iff.mp hd).1
      exact hi ((List.getElem?_inj hlt (h.nodup p)).mp (hd.trans hget.symm))
    · rintro ⟨hd, hne⟩
      obtain ⟨i, hi⟩ := List.mem_iff_getElem?.mp hd
      refine ⟨i, ?_, hi⟩
      rintro rfl
      exact hne (Option.some.inj (hi.symm.trans hget))
  obtain ⟨rank, hrank⟩ := h.ranked
  refine ⟨fun q d => ?_, fun q => ?_, rank, fun d q hdq => ?_⟩
  · rw [children_relinked hp hc, parent?_relinked hp hc]
    by_cases hq : q = p
    · subst hq
      rw [if_pos rfl, herase, h.mem_iff]
      by_cases hd : d = c <;> simp [hd]
    · rw [if_neg hq, h.mem_iff]
      by_cases hd : d = c
      · subst hd
        simp [hown, Ne.symm hq]
      · simp [hd]
  · rw [children_relinked hp hc]
    by_cases hq : q = p
    · subst hq
      rw [if_pos rfl]
      exact (h.nodup q).eraseIdx index
    · rw [if_neg hq]
      exact h.nodup q
  · rw [parent?_relinked hp hc] at hdq
    by_cases hd : d = c
    · rw [if_pos hd] at hdq
      cases hdq
    · rw [if_neg hd] at hdq
      exact hrank d q hdq

theorem getElem?_nodes {id : Nat} (hid : id < t.size) : t.nodes[id]? = some (t.node id) := by
  rw [node_eq, Array.getElem?_eq_getElem hid]
  rfl

theorem Holds.increasing {x : Sexpr} (h : t.Holds x) (p : NodeId) :
    (t.children p).Pairwise (· < ·) := by
  by_cases hp : p < t.size
  · obtain ⟨hi, xs, hforest, -⟩ := h.subrow (Nat.zero_le _) hp (getElem?_nodes hp)
    exact hforest.pairwise_lt
  · rw [children, node_of_le (Nat.le_of_not_lt hp)]
    exact .nil

/-- A tree that holds an S-expression is linked: numbers increase along its links. -/
theorem Holds.linked {x : Sexpr} (h : t.Holds x) : t.Linked := by
  have hget (id : Nat) (hid : id < t.size) : t.nodes[id]? = some (t.node id) := getElem?_nodes hid
  have hbelow (q : Nat) (hq : q < t.size) :
      ∃ hi xs, Forest t.nodes (some q) (q + 1) hi (t.children q) xs ∧ hi ≤ t.size :=
    h.subrow (Nat.zero_le _) hq (hget q hq)
  have hmem (q d : Nat) (hd : d ∈ t.children q) : q < d ∧ d < t.size ∧ t.parent? d = some q := by
    obtain ⟨hi, xs, hforest, hle⟩ := hbelow q (lt_size_of_mem_children hd)
    obtain ⟨hlo, hhi, n, hn, hparent⟩ := hforest.of_mem hd
    have hlt : d < t.size := by omega
    obtain rfl := Option.some.inj ((hget d hlt).symm.trans hn)
    exact ⟨hlo, hlt, hparent⟩
  have hchild (q d : Nat) (hd : t.parent? d = some q) : d ∈ t.children q := by
    have hlt := lt_size_of_parent? hd
    rcases h.exists_parent (Nat.zero_le _) hlt with hroot | ⟨q', n, hq', hn, hd'⟩
    · obtain ⟨-, -, n, hn, hparent⟩ := h.of_mem hroot
      obtain rfl := Option.some.inj ((hget d hlt).symm.trans hn)
      rw [parent?, hparent] at hd
      cases hd
    · obtain rfl := Option.some.inj ((hget q' hq').symm.trans hn)
      obtain rfl := Option.some.inj ((hmem q' d hd').2.2.symm.trans hd)
      exact hd'
  refine ⟨fun q d => ⟨fun hd => (hmem q d hd).2.2, hchild q d⟩,
    fun q => (h.increasing q).imp Nat.ne_of_lt, fun n => t.size - n, fun d q hd => ?_⟩
  obtain ⟨hlt, hd', -⟩ := hmem q d (hchild q d hd)
  dsimp only
  omega

/-! ## Trees that can be made

Trees come from a single node or from the reader, and are changed by edits. So all of them are
linked, by induction on how they are made. -/

/-- The trees that are made from a single node or read from a source, by adding nodes and by
attaching and detaching them. -/
inductive Reachable : Tree → Prop where
  | single (tag : Value) (offset : Option Nat) : Reachable (single tag offset)
  | read {source : String} {t : Tree} (h : Tree.read source = .ok t) : Reachable t
  | create {t : Tree} (h : Reachable t) (tag : Value) (offset : Option Nat) :
      Reachable (t.create tag offset).2
  | insertChild {t t' : Tree} {parent index child : Nat} (h : Reachable t)
      (hparent : parent < t.size) (hchild : child < t.size)
      (hinsert : t.insertChild parent index child = .ok t') : Reachable t'
  | addChild {t t' : Tree} {parent child : Nat} (h : Reachable t)
      (hparent : parent < t.size) (hchild : child < t.size)
      (hadd : t.addChild parent child = .ok t') : Reachable t'
  | removeChild {t t' : Tree} {parent index child : Nat} (h : Reachable t)
      (hremove : t.removeChild parent index = .ok (child, t')) : Reachable t'

theorem Reachable.linked (h : t.Reachable) : t.Linked := by
  induction h with
  | single tag offset => exact (Holds.single tag offset).linked
  | read h =>
    obtain ⟨x, -, hholds⟩ := read?_ok (read_eq_ok_iff.mp h)
    exact hholds.linked
  | create _ tag offset ih => exact ih.create tag offset
  | insertChild _ hparent hchild hinsert ih => exact ih.insertChild hparent hchild hinsert
  | addChild _ hparent hchild hadd ih => exact ih.insertChild hparent hchild hadd
  | removeChild _ hremove ih => exact ih.removeChild hremove

/-! ## The S-expression below a node

Reading off what is below a node needs no more levels than the node has below it, which are as
many as its rank at most. -/

/-- The nodes are the roots of the S-expressions: the children of each are those of its items. -/
inductive Row (t : Tree) : List NodeId → List Sexpr → Prop where
  | nil : Row t [] []
  | cons {id : NodeId} {ids : List NodeId} {items xs : List Sexpr}
      (hitems : Row t (t.children id) items) (hrest : Row t ids xs) :
      Row t (id :: ids) (.node (t.tag id) items :: xs)

theorem Row.map {f : NodeId → Sexpr} {ids : List NodeId} (h : ∀ id ∈ ids, t.Row [id] [f id]) :
    t.Row ids (ids.map f) := by
  induction ids with
  | nil => exact .nil
  | cons id ids ih =>
    obtain ⟨hid, hids⟩ := List.forall_mem_cons.mp h
    have hrow := ih hids
    rw [List.map_cons]
    generalize f id = x at hid
    cases hid with
    | cons hitems _ => exact .cons hitems hrow

theorem Row.sexprWithin (hlinked : t.Linked) {rank : NodeId → Nat}
    (hrank : ∀ c p, t.parent? c = some p → rank c < rank p) {levels : Nat} {id : NodeId}
    (hlevels : rank id < levels) : t.Row [id] [t.sexprWithin levels id] := by
  induction levels generalizing id with
  | zero => omega
  | succ levels ih =>
    refine .cons (.map fun c hc => ih ?_) .nil
    have hlt := hrank c id ((hlinked.mem_iff id c).mp hc)
    omega

/-- In a linked tree, `sexpr` reads all that is below a node. -/
theorem Linked.row_sexpr (h : t.Linked) {id : Nat} (hid : id < t.size) :
    t.Row [id] [t.sexpr id] := by
  obtain ⟨rank, hrank, hbound⟩ := h.exists_rank_lt
  exact .sexprWithin h hrank (hbound id hid)

end SexprAsm.Tree
