import SexprAsm.Tree

/-!
# S-expressions and the arenas that hold them

A `Tree` is an arena: nodes that name each other by number. What it stands for is an
S-expression, a tag with a list of S-expressions. This module relates the two.

* `Tree.sexpr` reads the S-expression below a node.
* `Forest` says that a stretch of an arena holds a row of S-expressions in pre-order, every node
  right before the nodes below it, with both links between a node and its parent in place.
* `Planted` says how an arena grows when a row of S-expressions is attached to a node: the new
  nodes come last, and the node gets their roots as further children.
-/

namespace SexprAsm

/-- An S-expression: a tag, and the items of its list. -/
inductive Sexpr where
  | node (tag : Value) (items : List Sexpr)

namespace Sexpr

mutual

/-- The number of tags. -/
def size : Sexpr → Nat
  | .node _ items => sizeAll items + 1

/-- The number of tags in a row. -/
def sizeAll : List Sexpr → Nat
  | [] => 0
  | x :: xs => x.size + sizeAll xs

end

mutual

/-- Replaces every tag. -/
def map (f : Value → Value) : Sexpr → Sexpr
  | .node tag items => .node (f tag) (mapAll f items)

/-- Replaces every tag in a row. -/
def mapAll (f : Value → Value) : List Sexpr → List Sexpr
  | [] => []
  | x :: xs => x.map f :: mapAll f xs

end

theorem mapAll_eq_map (f : Value → Value) (xs : List Sexpr) :
    mapAll f xs = xs.map (map f) := by
  induction xs with
  | nil => rfl
  | cons x xs ih => rw [mapAll, ih, List.map_cons]

end Sexpr

namespace Tree

/-- The S-expression below a node, at most `levels` levels down. -/
def sexprWithin (t : Tree) : Nat → NodeId → Sexpr
  | 0, id => .node (t.tag id) []
  | levels + 1, id => .node (t.tag id) ((t.children id).map (sexprWithin t levels))

/-- The S-expression below a node. Links do not repeat, so there are fewer levels than nodes. -/
def sexpr (t : Tree) (id : NodeId) : Sexpr := t.sexprWithin t.size id

/-- A node and the nodes at most `levels` levels below it, each before those below it. -/
def preorderWithin (t : Tree) : Nat → NodeId → List NodeId
  | 0, id => [id]
  | levels + 1, id => id :: (t.children id).flatMap (preorderWithin t levels)

/-- A node and the nodes below it, each before those below it. -/
def preorder (t : Tree) (id : NodeId) : List NodeId := t.preorderWithin t.size id

end Tree

/-! ## Rows of S-expressions in an arena -/

/-- The nodes `lo`, `lo + 1`, ..., `hi - 1` hold a row of S-expressions in pre-order; the roots are
the nodes `ids`, all with the same parent. -/
inductive Forest (nodes : Array Node) :
    Option NodeId → Nat → Nat → List NodeId → List Sexpr → Prop where
  | nil (parent : Option NodeId) (lo : Nat) : Forest nodes parent lo lo [] []
  | cons {parent : Option NodeId} {lo mid hi : Nat} {ids : List NodeId}
      {items rest : List Sexpr} {node : Node}
      (hget : nodes[lo]? = some node) (hparent : node.parent = parent)
      (hitems : Forest nodes (some lo) (lo + 1) mid node.children items)
      (hrest : Forest nodes parent mid hi ids rest) :
      Forest nodes parent lo hi (lo :: ids) (.node node.tag items :: rest)

namespace Forest

variable {nodes other : Array Node} {parent : Option NodeId} {lo mid hi : Nat}
  {ids ids' : List NodeId} {xs ys : List Sexpr}

theorem le (h : Forest nodes parent lo hi ids xs) : lo ≤ hi := by
  induction h with
  | nil => exact Nat.le_refl _
  | cons _ _ _ _ ih ih' => omega

theorem nil_inv (h : Forest nodes parent lo hi ids []) : hi = lo ∧ ids = [] := by
  cases h
  exact ⟨rfl, rfl⟩

/-- The first node of a row, what is below it, and what follows. -/
theorem cons_inv {tag : Value} {items : List Sexpr}
    (h : Forest nodes parent lo hi ids (.node tag items :: xs)) :
    ∃ mid node rest, ids = lo :: rest ∧ nodes[lo]? = some node ∧ node.tag = tag ∧
      node.parent = parent ∧ Forest nodes (some lo) (lo + 1) mid node.children items ∧
      Forest nodes parent mid hi rest xs := by
  cases h with
  | cons hget hparent hitems hrest => exact ⟨_, _, _, rfl, hget, rfl, hparent, hitems, hrest⟩

/-- A row only depends on its own stretch of the arena. -/
theorem congr (h : Forest nodes parent lo hi ids xs)
    (hsame : ∀ i, lo ≤ i → i < hi → other[i]? = nodes[i]?) :
    Forest other parent lo hi ids xs := by
  induction h with
  | nil => exact .nil _ _
  | cons hget hparent hitems hrest ih ih' =>
    have h₁ := hitems.le
    have h₂ := hrest.le
    refine .cons ?_ hparent (ih fun i hlo hhi => ?_) (ih' fun i hlo hhi => ?_)
    · rw [hsame _ (Nat.le_refl _) (by omega), hget]
    · exact hsame i (by omega) (by omega)
    · exact hsame i (by omega) (by omega)

/-- Two rows that follow each other make one. -/
theorem append (h : Forest nodes parent lo mid ids xs)
    (h' : Forest nodes parent mid hi ids' ys) :
    Forest nodes parent lo hi (ids ++ ids') (xs ++ ys) := by
  induction h with
  | nil => exact h'
  | cons hget hparent hitems _ _ ih => exact .cons hget hparent hitems (ih h')

/-- Reading a row back gives its S-expressions, once there are levels enough. -/
theorem map_sexprWithin (h : Forest nodes parent lo hi ids xs) (levels : Nat)
    (hlevels : hi - lo ≤ levels) : ids.map (Tree.sexprWithin ⟨nodes⟩ levels) = xs := by
  induction h generalizing levels with
  | nil => rfl
  | @cons parent lo mid hi ids items rest node hget hparent hitems hrest ih ih' =>
    have h₁ := hitems.le
    have h₂ := hrest.le
    obtain ⟨n, rfl⟩ : ∃ n, levels = n + 1 := ⟨levels - 1, by omega⟩
    have hnode : Tree.node ⟨nodes⟩ lo = node := by
      rw [Tree.node, Array.getD_eq_getD_getElem?, hget, Option.getD_some]
    rw [List.map_cons, Tree.sexprWithin, Tree.tag, Tree.children, hnode, ih n (by omega),
      ih' (n + 1) (by omega)]

/-- The walk down from the roots of a row meets the nodes of its stretch in turn. -/
theorem flatMap_preorderWithin (h : Forest nodes parent lo hi ids xs) (levels : Nat)
    (hlevels : hi - lo ≤ levels) :
    ids.flatMap (Tree.preorderWithin ⟨nodes⟩ levels) = List.range' lo (hi - lo) := by
  induction h generalizing levels with
  | nil => simp
  | @cons parent lo mid hi ids items rest node hget hparent hitems hrest ih ih' =>
    have h₁ := hitems.le
    have h₂ := hrest.le
    obtain ⟨n, rfl⟩ : ∃ n, levels = n + 1 := ⟨levels - 1, by omega⟩
    have hnode : Tree.node ⟨nodes⟩ lo = node := by
      rw [Tree.node, Array.getD_eq_getD_getElem?, hget, Option.getD_some]
    rw [List.flatMap_cons, Tree.preorderWithin, Tree.children, hnode, ih n (by omega),
      ih' (n + 1) (by omega)]
    -- The root, then what is below it, then the rest of the row.
    have hsplit : hi - lo = (mid - (lo + 1)) + (hi - mid) + 1 := by omega
    have hmid : mid = lo + 1 + 1 * (mid - (lo + 1)) := by omega
    rw [hsplit, List.range'_succ, ← List.range'_append, ← hmid, List.cons_append]

/-- The roots of a row lie in its stretch and have the parent of the row. -/
theorem of_mem (h : Forest nodes parent lo hi ids xs) {c : Nat} (hc : c ∈ ids) :
    lo ≤ c ∧ c < hi ∧ ∃ n, nodes[c]? = some n ∧ n.parent = parent := by
  induction h with
  | nil => cases hc
  | @cons parent lo mid hi ids items rest node hget hparent hitems hrest ih ih' =>
    have h₁ := hitems.le
    have h₂ := hrest.le
    rcases List.mem_cons.mp hc with rfl | hc
    · exact ⟨by omega, by omega, node, hget, hparent⟩
    · obtain ⟨hlo, hhi, hn⟩ := ih' hc
      exact ⟨by omega, hhi, hn⟩

theorem pairwise_lt (h : Forest nodes parent lo hi ids xs) : ids.Pairwise (· < ·) := by
  induction h with
  | nil => exact .nil
  | cons hget hparent hitems hrest _ ih' =>
    refine List.pairwise_cons.mpr ⟨fun c hc => ?_, ih'⟩
    exact Nat.lt_of_lt_of_le hitems.le (hrest.of_mem hc).1

/-- Every node of a row has a row of its own right after it. -/
theorem subrow (h : Forest nodes parent lo hi ids xs) {i : Nat} {n : Node} (hlo : lo ≤ i)
    (hhi : i < hi) (hn : nodes[i]? = some n) :
    ∃ hi' ys, Forest nodes (some i) (i + 1) hi' n.children ys ∧ hi' ≤ hi := by
  induction h with
  | nil => omega
  | @cons parent lo mid hi ids items rest node hget hparent hitems hrest ih ih' =>
    have h₂ := hrest.le
    rcases Nat.lt_trichotomy i lo with hlt | rfl | hlt
    · omega
    · obtain rfl := Option.some.inj (hget.symm.trans hn)
      exact ⟨mid, items, hitems, h₂⟩
    · by_cases hmid : i < mid
      · obtain ⟨hi', ys, hforest, hle⟩ := ih hlt hmid
        exact ⟨hi', ys, hforest, by omega⟩
      · exact ih' (by omega) hhi

/-- Every node of a row is a root or a child of another node of the row. -/
theorem exists_parent (h : Forest nodes parent lo hi ids xs) {i : Nat} (hlo : lo ≤ i)
    (hhi : i < hi) :
    i ∈ ids ∨ ∃ p n, p < hi ∧ nodes[p]? = some n ∧ i ∈ n.children := by
  induction h with
  | nil => omega
  | @cons parent lo mid hi ids items rest node hget hparent hitems hrest ih ih' =>
    have h₁ := hitems.le
    have h₂ := hrest.le
    rcases Nat.eq_or_lt_of_le hlo with rfl | hlt
    · exact Or.inl List.mem_cons_self
    · by_cases hmid : i < mid
      · rcases ih hlt hmid with hi' | ⟨p, n, hp, hn, hi'⟩
        · exact Or.inr ⟨lo, node, by omega, hget, hi'⟩
        · exact Or.inr ⟨p, n, by omega, hn, hi'⟩
      · exact (ih' (by omega) hhi).imp_left (List.mem_cons_of_mem lo)

end Forest

/-- The whole arena is one S-expression in pre-order, with its links in place and no other node. -/
def Tree.Holds (t : Tree) (x : Sexpr) : Prop := Forest t.nodes none 0 t.size [0] [x]

/-- A tree that holds an S-expression reads back as it. -/
theorem Tree.Holds.sexpr_eq {t : Tree} {x : Sexpr} (h : t.Holds x) : t.sexpr Tree.root = x := by
  have hmap := h.map_sexprWithin t.size (by omega)
  rw [List.map_cons] at hmap
  exact (List.cons.inj hmap).1

/-- The walk down from the root meets all nodes of the arena, in the order of their numbers. -/
theorem Tree.Holds.preorder_eq {t : Tree} {x : Sexpr} (h : t.Holds x) :
    t.preorder Tree.root = List.range t.size := by
  have hwalk := h.flatMap_preorderWithin t.size (by omega)
  rw [List.flatMap_singleton, Nat.sub_zero, ← List.range_eq_range'] at hwalk
  exact hwalk

/-- A tree of one node holds a leaf. -/
theorem Tree.Holds.single (tag : Value) (offset : Option Nat) :
    (Tree.single tag offset).Holds (.node tag []) := by
  have hget : (Tree.single tag offset).nodes[0]? = some { tag := tag, offset := offset } := rfl
  exact .cons hget rfl (.nil _ _) (.nil _ _)

/-! ## Growth of an arena -/

/-- A node with further children. -/
def Node.withChildren (n : Node) (ids : List NodeId) : Node :=
  { n with children := n.children ++ ids }

/-- `after` is `before` with a row of S-expressions attached to a node, or with no parent. -/
structure Planted (before after : Array Node) (parent : Option NodeId) (ids : List NodeId)
    (xs : List Sexpr) : Prop where
  kept : ∀ i, i < before.size →
    after[i]? = before[i]?.map fun n => if parent = some i then n.withChildren ids else n
  forest : Forest after parent before.size after.size ids xs

namespace Planted

variable {a b d : Array Node} {parent : Option NodeId} {ids ids' : List NodeId}
  {xs ys : List Sexpr}

theorem refl (a : Array Node) (parent : Option NodeId) : Planted a a parent [] [] where
  kept i _ := by
    rw [show (fun n : Node => if parent = some i then n.withChildren [] else n) = id from by
      funext n; simp [Node.withChildren], Option.map_id, id]
  forest := .nil _ _

/-- An arena in which no row is planted stays as it is. -/
theorem eq_of_nil (h : Planted a b parent ids []) : b = a := by
  obtain ⟨hsize, rfl⟩ := h.forest.nil_inv
  refine Array.ext_getElem? fun i => ?_
  by_cases hi : i < a.size
  · exact (h.kept i hi).trans ((refl a parent).kept i hi).symm
  · rw [Array.getElem?_eq_none (by omega), Array.getElem?_eq_none (by omega)]

theorem size_le (h : Planted a b parent ids xs) : a.size ≤ b.size := h.forest.le

theorem size_lt {x : Sexpr} (h : Planted a b parent ids (x :: xs)) : a.size < b.size := by
  obtain ⟨tag, items⟩ := x
  obtain ⟨mid, _, _, _, _, _, _, hitems, hrest⟩ := h.forest.cons_inv
  have h₁ := hitems.le
  have h₂ := hrest.le
  omega

/-- Rows planted one after the other under the same node. -/
theorem trans (h : Planted a b parent ids xs) (h' : Planted b d parent ids' ys)
    (hparent : ∀ p : Nat, parent = some p → p < a.size) :
    Planted a d parent (ids ++ ids') (xs ++ ys) where
  kept i hi := by
    rw [h'.kept i (Nat.lt_of_lt_of_le hi h.size_le), h.kept i hi, Option.map_map]
    congr 1
    funext n
    by_cases hp : parent = some i
    · simp [hp, Node.withChildren]
    · simp [hp]
  forest := by
    refine Forest.append (h.forest.congr fun i hlo hhi => ?_) h'.forest
    have hne : parent ≠ some i := fun hp => by have := hparent i hp; omega
    rw [h'.kept i hhi]
    simp [hne]

/-- A leaf that is added last, and to the children of its parent. -/
theorem leaf {node : Node} (hchildren : node.children = []) (hparent : node.parent = parent)
    (hsize : b.size = a.size)
    (hkept : ∀ i, i < a.size →
      b[i]? = a[i]?.map fun n => if parent = some i then n.withChildren [a.size] else n) :
    Planted a (b.push node) parent [a.size] [.node node.tag []] where
  kept i hi := by rw [Array.getElem?_push, if_neg (by omega), hkept i hi]
  forest := by
    have hget : (b.push node)[a.size]? = some node := by rw [← hsize, Array.getElem?_push_size]
    have hitems : Forest (b.push node) (some a.size) (a.size + 1) (a.size + 1) node.children [] := by
      rw [hchildren]
      exact .nil _ _
    have hrest : Forest (b.push node) parent (a.size + 1) (b.push node).size [] [] := by
      rw [Array.size_push, hsize]
      exact .nil _ _
    exact .cons hget hparent hitems hrest

/-- A leaf under which a row has been planted has become a node with that row as its items. -/
theorem close {tag : Value} (h : Planted a b parent [a.size] [.node tag []])
    (h' : Planted b d (some a.size) ids xs) : Planted a d parent [a.size] [.node tag xs] := by
  obtain ⟨mid, node, rest, -, hget, htag, hpar, hitems, hrest⟩ := h.forest.cons_inv
  obtain ⟨hmid, hch⟩ := hitems.nil_inv
  obtain ⟨hsize, -⟩ := hrest.nil_inv
  refine ⟨fun i hi => ?_, ?_⟩
  · rw [h'.kept i (by omega), h.kept i hi]
    have hne : a.size ≠ i := by omega
    simp [hne, Function.comp_def]
  · have hroot : d[a.size]? = some (node.withChildren ids) := by
      rw [h'.kept a.size (by omega), hget]
      simp
    have hforest := h'.forest
    rw [hsize, hmid] at hforest
    have hitems : Forest d (some a.size) (a.size + 1) d.size (node.withChildren ids).children xs := by
      simpa [Node.withChildren, hch] using hforest
    have hrow := Forest.cons hroot hpar hitems (.nil parent d.size)
    rwa [show (node.withChildren ids).tag = tag from htag] at hrow

end Planted

end SexprAsm
