import SexprAsm.Catalog.Overload
import SexprAsm.Catalog.Reference
import SexprAsm.Manifest.Core

/-!
# Catalogues

The index of a host's types, operations and events, loaded from a manifest. Operations are found
by full name, and by call name and number of arguments; some variables are predefined, with their
types, by the events.
-/

namespace SexprAsm

open Text

/-- Why a manifest cannot be loaded. -/
inductive CatalogError where
  | unknownType (name context : String)
  | malformedOperationName (name : String)
  | duplicateType (name : String)
  deriving DecidableEq, Repr

/-- The wording of an error. -/
def CatalogError.message : CatalogError → String
  | unknownType name context => s!"unknown type `{name}` referenced by `{context}`"
  | malformedOperationName name =>
    s!"operation name `{name}` is not of the form `Owner.__method__params__return`"
  | duplicateType name => s!"type `{name}` is declared more than once"

/-- A call name and a number of arguments. -/
structure CallKey where
  name : String
  arity : Nat
  deriving DecidableEq, Repr

/-- The index of a host. -/
structure Catalog where
  types : TypeTable
  operations : Array Operation := #[]
  byFullName : NameMap OperationId := {}
  overloads : OrderedMap CallKey (List OperationId) := {}
  events : NameMap HostEvent := {}
  predefined : NameMap TypeId
  reference : List Summary := []
  deriving Repr

namespace Catalog

/-- The variable into which the body of an event writes its result. -/
def returnValue : String := "__returnValue"

/-- The catalogue that knows the built-in types and nothing else. -/
def empty : Catalog where
  types := .initial
  predefined := ⟨[(returnValue, TypeTable.object)]⟩

instance : Inhabited Catalog := ⟨empty⟩

/-- The operations with the types they speak of. -/
def context (c : Catalog) : Overload.Context := ⟨c.types, c.operations⟩

/-- The operation of a number. -/
def operation (c : Catalog) (id : OperationId) : Operation := c.context.operation id

/-- The operation with a full name. -/
def operationNamed? (c : Catalog) (fullName : String) : Option Operation :=
  (c.byFullName.get? fullName).map c.operation

/-- The operations called by a name with a number of arguments, in the order they are tried. -/
def candidates (c : Catalog) (name : String) (arity : Nat) : List OperationId :=
  (c.overloads.get? ⟨name, arity⟩).getD []

/-- Some operation is called by the name with that number of arguments. -/
def hasName (c : Catalog) (name : String) (arity : Nat) : Bool :=
  !(c.candidates name arity).isEmpty

/-- The first candidate that accepts arguments of the given types. -/
def resolveOverload (c : Catalog) (name : String) (arguments : List TypeId) :
    Option OperationId :=
  (c.candidates name arguments.length).find? fun id =>
    Overload.acceptsArguments c.types (c.operation id) arguments

/-- The entries of the reference that hold a text. -/
def query (c : Catalog) (text : String) : List Summary := Summary.search c.reference text

/-- Finds a type that `context` refers to. -/
def resolveType (types : TypeTable) (name context : String) :
    Except CatalogError (TypeId × TypeTable) :=
  match types.resolve name with
  | some found => .ok found
  | none => .error (.unknownType name context)

/-- Finds the types of parameters, in order. -/
def resolveParameters (context : String) :
    TypeTable → List ParameterDecl → Except CatalogError (List Parameter × TypeTable)
  | types, [] => .ok ([], types)
  | types, decl :: decls => do
    let (type, types) ← resolveType types decl.type context
    let (parameters, types) ← resolveParameters context types decls
    return (⟨decl.name, type, decl.direction⟩ :: parameters, types)

/-- The first name that occurs a second time. -/
def firstRepeated? (seen : List String) : List String → Option String
  | [] => none
  | name :: names => if name ∈ seen then some name else firstRepeated? (name :: seen) names

/-- Enters the declared types, in order, and returns their numbers. -/
def declareTypes (types : TypeTable) : List TypeDecl → List TypeId × TypeTable
  | [] => ([], types)
  | decl :: decls =>
    let (id, types) := types.declare decl.name decl.shortName decl.valueType
    let (ids, types) := declareTypes types decls
    (id :: ids, types)

/-- Sets the declared bases, in order. -/
def setBases (types : TypeTable) : List (TypeDecl × TypeId) → Except CatalogError TypeTable
  | [] => .ok types
  | (decl, id) :: rest =>
    match decl.base with
    | none => setBases types rest
    | some base => do
      let (base, types) ← resolveType types base decl.name
      setBases (types.setBase id base) rest

/-- The types of a manifest, and an array of each. -/
def loadTypes (types : TypeTable) (decls : List TypeDecl) : Except CatalogError TypeTable := do
  if let some name := firstRepeated? [] (decls.map (·.name)) then
    throw (.duplicateType name)
  -- A base may be declared after the type that derives from it.
  let (ids, types) := declareTypes types decls
  let types ← setBases types (decls.zip ids)
  return ids.foldl (fun types id => (types.arrayOf id).2) types

/-- Enters an operation under its full name and its call names. -/
def register (c : Catalog) (op : Operation) : Catalog :=
  let id := c.operations.size
  let c := { c with
    operations := c.operations.push op
    byFullName := c.byFullName.put op.fullName id }
  let overloads := (op.callNames c.types).foldl
    (fun overloads name =>
      let key : CallKey := ⟨name, op.arity⟩
      overloads.put key (Overload.addCandidate c.context id ((overloads.get? key).getD [])))
    c.overloads
  { c with overloads := overloads }

/-- Loads an operation, unless its full name is taken. -/
def loadOperation (c : Catalog) (decl : OperationDecl) : Except CatalogError Catalog := do
  if c.byFullName.contains decl.name then return c
  if (methodOf? decl.name).isNone then throw (.malformedOperationName decl.name)
  let (owner, types) ← resolveType c.types decl.owner decl.name
  let (parameters, types) ← resolveParameters decl.name types decl.parameters
  return { c with types := types }.register ⟨decl.name, owner, parameters⟩

/-- Loads an event, and predefines a variable for each of its parameters. -/
def loadEvent (c : Catalog) (decl : EventDecl) : Except CatalogError Catalog := do
  let (parameters, types) ← resolveParameters decl.name c.types decl.parameters
  let stem := lowerFirst decl.name
  let predefined := parameters.foldl
    (fun predefined p => predefined.put (stem ++ upperFirst p.name) p.type) c.predefined
  let label := "_" ++ stem
  return { c with
    types := types
    predefined := predefined
    events := c.events.put label ⟨decl.name, label, parameters⟩ }

/-- Puts every list of candidates in order. -/
def sortOverloads (c : Catalog) : Catalog :=
  let sorted := c.overloads.entries.map fun (key, ids) =>
    (key, Overload.sortCandidates c.context ids)
  { c with overloads := ⟨sorted⟩ }

/-- Loads a manifest: its types, its operations and then the intrinsic ones, and its events. -/
def load (manifest : Manifest) : Except CatalogError Catalog := do
  let types ← loadTypes empty.types manifest.types
  -- The intrinsic operations come last: those that the manifest declares itself stay as declared.
  let c ← (manifest.operations ++ Manifest.intrinsics).foldlM loadOperation
    { empty with types := types }
  let c ← manifest.events.foldlM loadEvent c.sortOverloads
  return { c with
    reference := Summary.all c.types c.operations.toList (c.events.entries.map Prod.snd) }

end Catalog

end SexprAsm
