import SexprAsm.CompileError
import SexprAsm.Text.Blank

/-!
# Finding the meaning of nodes

Two passes over a tree. The first one, level by level from the root, declares variables and event
blocks, so that they are known wherever they are referred to. The second one goes back over the
same nodes, children before parents, and decides the construct and the type of each node from its
tag and the types of its children.
-/

namespace SexprAsm

open Text

namespace Keyword

/-- Declares a variable. -/
def declare : String := "var"

/-- Reads a variable. -/
def get : String := "$"

/-- Assigns a variable. -/
def set : String := "="

/-- Chooses among branches. -/
def conditional : String := "if"

/-- Repeats while a condition holds. -/
def loop : String := "while"

/-- A block that runs on an event. -/
def event : String := "when"

/-- Instructions written out. -/
def inlineAsm : String := "uasm"

/-- A type as a value. -/
def typeOf : String := "typeof"

/-- All keywords. -/
def all : List String := [declare, get, set, conditional, loop, event, inlineAsm, typeOf]

end Keyword

namespace Resolution

variable (cfg : Setting) (t : Tree)

/-- The node is `(this)`. -/
def isThis (id : NodeId) : Bool :=
  match t.children id with
  | [only] => (t.tag id).isNull && (t.tag only).text?.any (fun word => asciiLower word == "this")
  | _ => false

/-- Reads the words between the name and the default value of a declaration: attributes and a
type, of which the last one counts. -/
def modifiers : List NodeId → Option TypeId × Attributes →
    Except CompileFault (Option TypeId × Attributes)
  | [], found => .ok found
  | id :: ids, (type, attributes) =>
    match (t.tag id).text? with
    | none => .error (.invalidName Keyword.declare (t.tag id).spelling)
    | some word =>
      match asciiLower word with
      | "public" => modifiers ids (type, { attributes with exported := true })
      | "private" => modifiers ids (type, { attributes with exported := false })
      | "sync" => modifiers ids (type, { attributes with syncNone := true })
      | "linearsync" => modifiers ids (type, { attributes with syncLinear := true })
      | "smoothsync" => modifiers ids (type, { attributes with syncSmooth := true })
      | _ =>
        -- Types are called by their names as they are, not in lower case.
        match cfg.catalog.types.lookup word with
        | some type => modifiers ids (some type, attributes)
        | none => .error (.unknownType word)

/-- The default value of a declaration: a literal, `(this)`, or none for the null literal. -/
def defaultValue (name : String) (attributes : Attributes) (id : NodeId) :
    Except CompileFault (Attributes × Option Value) :=
  if (t.node id).isLeaf then
    .ok (attributes, if (t.tag id).isNull then none else some (t.tag id))
  else if isThis t id then .ok ({ attributes with defaultThis := true }, none)
  else .error (.unsupportedDefault name)

/-- Declares the variable of `var(name, attributes or type..., default)`. -/
def declareVariable (id : NodeId) : Compile Unit := do
  let children := t.children id
  let name ← Compile.nameAt t (children.headD 0) Keyword.declare
  let between := (children.drop 1).dropLast
  let (type, attributes) ← ofExcept (modifiers cfg t between (none, {}))
  let (attributes, value) ←
    match (children.drop 1).getLast? with
    | some last => ofExcept (defaultValue t name attributes last)
    | none => pure (attributes, none)
  Compile.emit (Emit.define cfg name type attributes value)
where
  ofExcept {α : Type} : Except CompileFault α → Compile α
    | .ok a => pure a
    | .error e => throw e

/-- Declares what a node declares, and tells whether its children are to be visited. -/
def declareNode (id : NodeId) : Compile Bool := do
  let node := t.node id
  match node.tag.text? with
  | none => return true
  | some tag =>
    if tag = Keyword.declare ∧ !node.isLeaf then
      declareVariable cfg t id
      return false
    else if (tag = Keyword.get ∨ tag = Keyword.inlineAsm ∨ tag = Keyword.typeOf) ∧ !node.isLeaf then
      -- There are names, types or instructions below, and nothing that has a value.
      return false
    else
      match node.children with
      | [label, _] =>
        if tag = Keyword.event then
          let label ← Compile.nameAt t label Keyword.event
          let _ ← Compile.build (Build.declareEntryPoint cfg label)
          return true
        else return true
      | _ => return true

/-- Visits the nodes of one level, and returns those of the next one. -/
def declareLevel : List NodeId → Compilation (List NodeId)
  | [] => pure []
  | id :: ids => do
    let descend ← Compilation.at id (declareNode cfg t id)
    let next ← declareLevel ids
    return (if descend then t.children id else []) ++ next

/-- Visits at most `depth` levels, and returns the nodes in the order of the visit. -/
def declareLevels : Nat → List NodeId → Compilation (List NodeId)
  | 0, _ => pure []
  | _, [] => pure []
  | depth + 1, id :: ids => do
    let next ← declareLevel cfg t (id :: ids)
    let order ← declareLevels depth next
    return (id :: ids) ++ order

/-- The types of nodes, if all have one. -/
def allTypes (w : Workspace) (ids : List NodeId) : Option (List TypeId) := ids.mapM w.nodeType?

/-- The items at odd places of a list. -/
def oddItems {α : Type} : List α → List α
  | _ :: a :: rest => a :: oddItems rest
  | _ => []

/-- The branches of a conditional: every second child, and the last one if it has no condition. -/
def branches (children : List NodeId) : List NodeId :=
  oddItems children ++ if children.length % 2 = 1 then children.getLast?.toList else []

/-- A call by name: an overload that accepts the arguments, a cast `!Type`, or an array fill
`To…Array`. -/
def callFinding (w : Workspace) (tag : String) (children : List NodeId) : Finding :=
  let types := cfg.catalog.types
  let overload := (allTypes w children).bind (cfg.catalog.resolveOverload tag)
  let castTarget :=
    if children.length = 1 then (dropLead? "!" tag).bind types.lookup else none
  let array := do
    let name ← dropLead? "To" tag
    let _ ← dropTail? "Array" name
    let type ← types.lookup name
    if (types.info type).isArray then some type else none
  match overload, castTarget, array with
  | some id, _, _ => ⟨some (.call id), (cfg.catalog.operation id).returnType?⟩
  | none, some type, _ => ⟨some (.cast type), some type⟩
  | none, none, some type => ⟨some (.arrayFill type), some type⟩
  | none, none, none => {}

/-- A bare name that is the only item of a list without a tag calls an operation without
arguments, or an event. -/
def bareCall? (w : Workspace) (id : NodeId) : Option Finding := do
  let name ← (t.tag id).text?
  match cfg.catalog.resolveOverload name [] with
  | some op => return ⟨some (.call op), (cfg.catalog.operation op).returnType?⟩
  | none =>
    let _ ← w.entryPoints.get? name
    return ⟨some .callEvent, some TypeTable.object⟩

/-- The meaning of a list without a tag; its only item may be a bare call. -/
def sequenceFinding (children : List NodeId) : Compile Finding := do
  if let [only] := children then
    -- By now the item counts as a literal, which is put right here.
    if let some found := bareCall? cfg t (← get) only then
      modify (·.record only found)
  let w ← get
  return ⟨some .sequence, children.getLast?.bind w.nodeType?⟩

/-- The meaning of a tagged list. -/
def taggedFinding (tag : String) (children : List NodeId) : Compile Finding := do
  let w ← get
  let types := cfg.catalog.types
  if tag = Keyword.declare then
    let name ← Compile.nameAt t (children.headD 0) Keyword.declare
    return ⟨some .declare, (w.assembly.heap.slots.get? name).map (·.type)⟩
  if tag = Keyword.inlineAsm then return ⟨some .inlineAsm, none⟩
  if tag = Keyword.conditional ∧ 1 < children.length then
    return ⟨some .conditional, (allTypes w (branches children)).bind types.commonAncestor⟩
  match children with
  | [child] =>
    if tag = Keyword.get then
      let name ← Compile.nameAt t child Keyword.get
      match ← Compile.emit (Emit.typeOf? cfg name) with
      | some type => return ⟨some .get, some type⟩
      | none => throw (.undeclaredVariable name)
    if tag = Keyword.typeOf then
      let name ← Compile.nameAt t child Keyword.typeOf
      match types.lookup name with
      | some type => return ⟨some (.typeOf type), some (types.builtin TypeTable.typeTypeName)⟩
      | none => throw (.unknownType name)
  | [first, second] =>
    if tag = Keyword.set then
      let name ← Compile.nameAt t first Keyword.set
      let type ← Compile.emit (Emit.typeOf? cfg name)
      -- A variable that is not declared takes its type from the value.
      return ⟨some .set, some ((type <|> w.nodeType? second).getD TypeTable.object)⟩
    if tag = Keyword.loop then return ⟨some .loop, w.nodeType? second⟩
    if tag = Keyword.event then return ⟨some .event, w.nodeType? second⟩
  | _ => pure ()
  return callFinding cfg w tag children

/-- The meaning of a node. -/
def classify (id : NodeId) : Compile Finding := do
  let node := t.node id
  if node.isLeaf then return ⟨some .literal, some (cfg.catalog.types.typeOf node.tag)⟩
  match node.tag with
  | .null => sequenceFinding cfg t node.children
  | .string tag => taggedFinding cfg t tag node.children
  | _ => return {}

/-- Finds the meaning of nodes, one after the other. -/
def classifyAll : List NodeId → Compilation Unit
  | [] => pure ()
  | id :: ids => do
    let found ← Compilation.at id (classify cfg t id)
    modify (·.record id found)
    classifyAll ids

/-- Finds the meaning of all nodes of a tree. -/
def resolve : Compilation Unit := do
  let order ← declareLevels cfg t t.size [Tree.root]
  -- From the bottom up, so that the types of the children are known.
  classifyAll cfg t order.reverse

end Resolution

end SexprAsm
