import SexprAsm.BuildError
import SexprAsm.Catalog
import SexprAsm.Value.Spelling

/-!
# The heap of a program

Named slots with a type and an initial value, in the order of their definition. Literals live in
constant slots of their own, one for each value.
-/

namespace SexprAsm

/-- How a slot is declared. -/
structure Attributes where
  exported : Bool := false
  syncNone : Bool := false
  syncLinear : Bool := false
  syncSmooth : Bool := false
  /-- The slot starts with the object the program belongs to. -/
  defaultThis : Bool := false
  constant : Bool := false
  deriving DecidableEq, Repr, Inhabited

/-- A slot. -/
structure Variable where
  type : TypeId
  attributes : Attributes
  /-- The initial value, or null. -/
  value : Option Value
  deriving DecidableEq, Repr, Inhabited

/-- The slots of a program, and the constant slot of each literal in use. -/
structure Heap where
  slots : NameMap Variable := {}
  constants : OrderedMap Value String := {}
  deriving DecidableEq, Repr, Inhabited

namespace Heap

/-- What a definition asks for, once its name and its missing parts are settled: a predefined name
pins its type and keeps only its export, the type of a value stands in for a missing type, and
the zero of a primitive type for a missing value. -/
def settle (c : Catalog) (name : String) (type : Option TypeId) (attributes : Attributes)
    (value : Option Value) : Variable :=
  let pinned := c.predefined.get? name
  let attributes :=
    if pinned.isSome then { exported := attributes.exported } else attributes
  let type := (pinned <|> type <|> value.map c.types.typeOf).getD TypeTable.object
  ⟨type, attributes, value <|> c.types.defaultValue? type⟩

/-- The initial value fits the type of the slot; a slot of the type without values holds
anything. -/
def fits (types : TypeTable) (v : Variable) : Bool :=
  v.type == TypeTable.void ||
    v.value.all fun value => types.isAssignable v.type (types.typeOf value)

/-- Defines a slot, or defines it again with the same type. -/
def define (c : Catalog) (heap : Heap) (name : String) (type : Option TypeId)
    (attributes : Attributes) (value : Option Value) : Except BuildError Heap :=
  let v := settle c name type attributes value
  let stored : Heap :=
    { slots := heap.slots.put name v
      constants :=
        if v.attributes.constant then heap.constants.putNew (v.value.getD .null) name
        else heap.constants }
  if name.isEmpty then .error .invalidVariableName
  else if !fits c.types v then
    .error (.valueTypeMismatch name (c.types.name v.type) ((v.value.map Value.spelling).getD ""))
  else
    match heap.slots.get? name with
    | none => .ok stored
    | some existing =>
      if existing.attributes.constant then
        -- A literal may be defined again as itself.
        if existing.type ≠ v.type ∨ existing.value ≠ v.value then
          .error (.constantRedefinition name)
        else .ok stored
      else if existing.type ≠ v.type then
        .error (.duplicateVariable name (c.types.name existing.type) (c.types.name v.type))
      else .ok stored

/-- The type of a slot; a predefined name is defined on first use. -/
def typeOf? (c : Catalog) (heap : Heap) (name : String) :
    Except BuildError (Option TypeId × Heap) := do
  let heap ←
    if heap.slots.contains name then pure heap
    else
      match c.predefined.get? name with
      | some type => heap.define c name (some type) {} none
      | none => pure heap
  return ((heap.slots.get? name).map (·.type), heap)

/-- Every run of characters that a slot name cannot hold becomes one underscore; `inRun` tells
that such a run is under way. -/
def sanitize (inRun : Bool) : List Char → List Char
  | [] => []
  | c :: cs =>
    if c.isAlphanum then c :: sanitize false cs
    else if inRun then sanitize true cs
    else '_' :: sanitize true cs

/-- How constant slots begin. -/
def constantLead : String := "__const_"

/-- The most characters of a literal that its slot name shows. -/
def stemLimit : Nat := 64

/-- The name that a literal asks for: its type and its token. -/
def constantName (types : TypeTable) (value : Value) : String :=
  if value.isNull then constantLead ++ "nil"
  else
    let short := (types.info (types.constantType value)).shortName
    let stem := sanitize false (short ++ "_" ++ value.spelling).toList
    constantLead ++ String.ofList (stem.take stemLimit)

/-- A name with a number behind it. -/
def numbered (base : String) (n : Nat) : String := s!"{base}_{n}"

/-- The first of `base`, `base_0`, `base_1` and so on that names no slot. One of the first numbers
is free, because there are no more slots. -/
def freeName (heap : Heap) (base : String) : String :=
  if heap.slots.contains base then
    ((List.range (heap.slots.size + 1)).find? fun n =>
      !heap.slots.contains (numbered base n)).elim base (numbered base)
  else base

/-- The slot of a literal, made on first use. -/
def constant (c : Catalog) (heap : Heap) (value : Value) : Except BuildError (String × Heap) :=
  match heap.constants.get? value with
  | some name => .ok (name, heap)
  | none => do
    -- Literals may ask for the same name: it shows no more than the beginning of their token.
    let name := heap.freeName (constantName c.types value)
    let stored := if value.isNull then none else some value
    let heap ← heap.define c name (some (c.types.constantType value)) { constant := true } stored
    return (name, heap)

end Heap

end SexprAsm
