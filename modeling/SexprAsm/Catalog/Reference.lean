import SexprAsm.Catalog.Operation
import SexprAsm.Text.Blank

/-!
# The interactive reference

One entry for each type, operation and event of a catalogue, searched by any part of its texts.
-/

namespace SexprAsm

open Text

/-- What an entry is about. -/
inductive SummaryKind where
  | type
  | constructor
  | cast
  | operator
  | property
  | method
  | event
  deriving DecidableEq, Repr

/-- An entry of the reference. -/
structure Summary where
  kind : SummaryKind
  title : String
  signature : String
  usage : String
  deriving DecidableEq, Repr

namespace Summary

/-- The kind of entry for a method. -/
def kindOf (method : String) : SummaryKind :=
  match MethodKind.of method with
  | .constructor => .constructor
  | .cast => .cast
  | .operator _ => .operator
  | .getter _ | .setter _ => .property
  | .namedOperator | .method => .method

/-- The entry for a type. -/
def ofType (info : TypeInfo) : Summary :=
  ⟨.type, info.shortName, info.name, "var(name, " ++ info.name ++ ", )"⟩

/-- The entry for an operation; one without a name to call it by has none. -/
def ofOperation? (types : TypeTable) (op : Operation) : Option Summary := do
  let title ← (op.callNames types).head?
  let arguments := (op.parameters.take op.arity).mapIdx fun i p =>
    if p.name.isEmpty then s!"$(arg{i})" else "$(" ++ p.name ++ ")"
  let usage :=
    if arguments.isEmpty then "(" ++ title ++ ")"
    else title ++ "(" ++ ", ".intercalate arguments ++ ")"
  return ⟨kindOf op.method, title, op.fullName, usage⟩

/-- The entry for an event. -/
def ofEvent (event : HostEvent) : Summary :=
  ⟨.event, event.label, event.name, "when(" ++ event.label ++ ", ...)"⟩

/-- The entries for types, operations and events, in this order. The type without values has no
entry. -/
def all (types : TypeTable) (operations : List Operation) (events : List HostEvent) :
    List Summary :=
  (types.types.toList.filter (·.name ≠ TypeTable.voidName)).map ofType ++
    operations.filterMap (ofOperation? types) ++ events.map ofEvent

/-- One of the texts holds the needle, which is in lower case. -/
def isMatch (s : Summary) (needle : List Char) : Bool :=
  [s.title, s.signature, s.usage].any fun field => occurs needle (lower field).toList

/-- The most entries that a search yields. -/
def queryLimit : Nat := 100

/-- The entries that hold a text, whatever its case. -/
def search (summaries : List Summary) (text : String) : List Summary :=
  let needle := (lower (trim text)).toList
  (summaries.filter (·.isMatch needle)).take queryLimit

end Summary

end SexprAsm
