import SexprAsm.Position
import SexprAsm.Value

/-!
# Trees of tagged nodes

An arena of nodes, each with a literal as its tag, an ordered list of children and at most one
parent. Nodes are named by the order of their creation; the first one is the root, and nodes
without a parent may stand beside it until they are attached.
-/

namespace SexprAsm

/-- The number of a node in its arena. -/
abbrev NodeId := Nat

/-- One node of an arena. -/
structure Node where
  tag : Value
  children : List NodeId := []
  parent : Option NodeId := none
  /-- The byte offset of the token the node was read from. -/
  offset : Option Nat := none
  deriving DecidableEq, Repr, Inhabited

/-- The node has no children. -/
def Node.isLeaf (n : Node) : Bool := n.children.isEmpty

/-- Why a node cannot be attached or detached. -/
inductive TreeError where
  | cycle (parent child : NodeId)
  | alreadyOwned (child owner : NodeId)
  | indexOutOfRange (index count : Nat)
  deriving DecidableEq, Repr

/-- The wording of an error. -/
def TreeError.message : TreeError → String
  | cycle parent child =>
    s!"node #{child} cannot be placed under #{parent}: it is the parent or one of its ancestors"
  | alreadyOwned child owner => s!"node #{child} already belongs to #{owner}"
  | indexOutOfRange index count => s!"child index {index} is out of range for {count} children"

/-- An arena whose first node is the root. -/
structure Tree where
  nodes : Array Node
  deriving DecidableEq, Repr

namespace Tree

/-- The root of every tree. -/
def root : NodeId := 0

/-- A tree of one node. -/
def single (tag : Value) (offset : Option Nat := none) : Tree :=
  ⟨#[{ tag := tag, offset := offset }]⟩

instance : Inhabited Tree := ⟨single .null⟩

/-- The number of nodes, detached ones included. -/
def size (t : Tree) : Nat := t.nodes.size

/-- The node of a number; a number that names no node stands for a childless null. -/
def node (t : Tree) (id : NodeId) : Node := t.nodes.getD id { tag := .null }

/-- The tag of a node. -/
def tag (t : Tree) (id : NodeId) : Value := (t.node id).tag

/-- The children of a node, in order. -/
def children (t : Tree) (id : NodeId) : List NodeId := (t.node id).children

/-- The parent of a node. -/
def parent? (t : Tree) (id : NodeId) : Option NodeId := (t.node id).parent

/-- Adds a node without a parent; its number is the old size. -/
def create (t : Tree) (tag : Value) (offset : Option Nat := none) : NodeId × Tree :=
  (t.size, ⟨t.nodes.push { tag := tag, offset := offset }⟩)

/-- A walk of at most `steps` parent links from `id` meets `candidate`. -/
def climbMeets (t : Tree) (candidate : NodeId) : Nat → NodeId → Bool
  | 0, id => id == candidate
  | steps + 1, id =>
    id == candidate ||
      match t.parent? id with
      | some parent => climbMeets t candidate steps parent
      | none => false

/-- `candidate` is `id` or one of its ancestors. Parent links do not repeat, so there are fewer of
them than nodes. -/
def isAncestorOrSelf (t : Tree) (candidate id : NodeId) : Bool := t.climbMeets candidate t.size id

/-- Sets both links between a parent and a child at a place of its list. -/
def link (t : Tree) (parent : NodeId) (index : Nat) (child : NodeId) : Tree :=
  let nodes := t.nodes.modify parent fun n =>
    { n with children := n.children.insertIdx index child }
  ⟨nodes.modify child fun n => { n with parent := some parent }⟩

/-- Attaches a node without a parent at a place among the children of another. -/
def insertChild (t : Tree) (parent : NodeId) (index : Nat) (child : NodeId) :
    Except TreeError Tree :=
  if t.isAncestorOrSelf child parent then .error (.cycle parent child)
  else
    match t.parent? child with
    | some owner => .error (.alreadyOwned child owner)
    | none =>
      let count := (t.children parent).length
      if count < index then .error (.indexOutOfRange index count)
      else .ok (t.link parent index child)

/-- Attaches a node without a parent after the other children. -/
def addChild (t : Tree) (parent child : NodeId) : Except TreeError Tree :=
  t.insertChild parent (t.children parent).length child

/-- Detaches the child at a place; it may be attached again elsewhere. -/
def removeChild (t : Tree) (parent : NodeId) (index : Nat) : Except TreeError (NodeId × Tree) :=
  match (t.children parent)[index]? with
  | none => .error (.indexOutOfRange index (t.children parent).length)
  | some child =>
    let nodes := t.nodes.modify parent fun n => { n with children := n.children.eraseIdx index }
    .ok (child, ⟨nodes.modify child fun n => { n with parent := none }⟩)

/-- The position in `source` of the token a node was read from. -/
def position? (t : Tree) (source : String) (id : NodeId) : Option Position :=
  (t.node id).offset.map (Position.locate source)

end Tree

end SexprAsm
