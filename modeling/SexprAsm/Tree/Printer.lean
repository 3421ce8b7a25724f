import SexprAsm.Text.Cut
import SexprAsm.Tree
import SexprAsm.Value.Spelling

/-!
# Printing a tree

The canonical text of a node: a leaf is its tag; any other node is its tag, unless that is null,
and its children between parentheses, one on a line, two spaces further in. A tag that names a
type prints as that name.
-/

namespace SexprAsm.Tree

/-- The spaces in front of a line. -/
def indentation (depth : Nat) : String := Text.repeated (2 * depth) ' '

/-- The text of a node at a nesting depth; `levels` bounds the levels below it. -/
def layout (t : Tree) : Nat → Nat → NodeId → String
  | 0, _, id => (t.tag id).spelling
  | levels + 1, depth, id =>
    if (t.node id).isLeaf then (t.tag id).spelling
    else
      let head := if (t.tag id).isNull then "" else (t.tag id).spelling ++ " "
      let lines := (t.children id).map fun child =>
        "\n" ++ indentation (depth + 1) ++ layout t levels (depth + 1) child
      head ++ "(" ++ ",".intercalate lines ++ "\n" ++ indentation depth ++ ")"

/-- The canonical text of the subtree at a node. -/
def printNode (t : Tree) (id : NodeId) : String := t.layout t.size 0 id

/-- The canonical text of a tree. -/
def print (t : Tree) : String := t.printNode root

end SexprAsm.Tree
