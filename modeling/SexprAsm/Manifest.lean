import SexprAsm.Json

/-!
# Host manifests

What a host declares: types, operations and events, all by name. A manifest can be written as a
JSON object; a record may also be written as an array of its fields in order.
-/

namespace SexprAsm

/-- How an operation uses a parameter. -/
inductive Direction where
  | input
  | output
  | both
  deriving DecidableEq, Repr, Inhabited

/-- The direction in words. -/
def Direction.describe : Direction → String
  | input => "in"
  | output => "out"
  | both => "in/out"

/-- The declaration of a type. -/
structure TypeDecl where
  name : String
  shortName : String
  base : Option String := none
  valueType : Bool := false
  deriving DecidableEq, Repr, Inhabited

/-- The declaration of a parameter. -/
structure ParameterDecl where
  name : String
  type : String
  direction : Direction := .input
  deriving DecidableEq, Repr, Inhabited

/-- The declaration of an operation. -/
structure OperationDecl where
  /-- The full name, such as `SystemInt32.__op_Addition__SystemInt32_SystemInt32__SystemInt32`. -/
  name : String
  owner : String
  parameters : List ParameterDecl := []
  deriving DecidableEq, Repr, Inhabited

/-- The declaration of an event. -/
structure EventDecl where
  name : String
  parameters : List ParameterDecl := []
  deriving DecidableEq, Repr, Inhabited

/-- The declarations of a host. -/
structure Manifest where
  types : List TypeDecl := []
  operations : List OperationDecl := []
  events : List EventDecl := []
  deriving DecidableEq, Repr, Inhabited

namespace Json

/-- The named fields of a record, each present or not. Other fields are ignored; a named field
that is given twice, or a name without characters, is an error. -/
def record? (names : List String) : Json → Option (List (Option Json))
  | .object fields =>
    let given (name : String) := fields.filter fun field => field.1 == some name
    if fields.any (fun field => field.1.isNone) then none
    else if names.any (fun name => 1 < (given name).length) then none
    else some (names.map fun name => (given name).head?.map Prod.snd)
  | .array items =>
    if names.length < items.length then none
    else some ((List.range names.length).map fun i => items[i]?)
  | _ => none

/-- The characters of a string. -/
def text? : Json → Option String
  | .string text => text
  | _ => none

/-- A truth value. -/
def bool? : Json → Option Bool
  | .bool b => some b
  | _ => none

/-- The items of an array. -/
def items : Json → Option (List Json)
  | .array items => some items
  | _ => none

/-- A field that may be missing. -/
def orDefault {α : Type} (field : Option Json) (read : Json → Option α) (default : α) : Option α :=
  match field with
  | none => some default
  | some json => read json

/-- A list field that may be missing. -/
def listField {α : Type} (field : Option Json) (read : Json → Option α) : Option (List α) :=
  orDefault field (fun json => json.items.bind fun items => items.mapM read) []

end Json

/-- The direction that a word names. -/
def Direction.ofWord? : String → Option Direction
  | "IN" => some .input
  | "OUT" => some .output
  | "IN_OUT" => some .both
  | _ => none

/-- A direction is written as its word, or as an object with the word as its only key, for null. -/
def Direction.ofJson? : Json → Option Direction
  | .string (some word) => ofWord? word
  | .object [(some word, .null)] => ofWord? word
  | _ => none

/-- Reads the declaration of a type. -/
def TypeDecl.ofJson? (json : Json) : Option TypeDecl :=
  match json.record? ["name", "short_name", "base", "value_type"] with
  | some [some name, some shortName, base, valueType] => do
    let name ← name.text?
    let shortName ← shortName.text?
    let base ← match base with
      | none | some .null => some none
      | some base => base.text?.map some
    let valueType ← Json.orDefault valueType Json.bool? false
    return ⟨name, shortName, base, valueType⟩
  | _ => none

/-- Reads the declaration of a parameter. -/
def ParameterDecl.ofJson? (json : Json) : Option ParameterDecl :=
  match json.record? ["name", "type", "direction"] with
  | some [name, some type, direction] => do
    let name ← Json.orDefault name Json.text? ""
    let type ← type.text?
    let direction ← Json.orDefault direction Direction.ofJson? .input
    return ⟨name, type, direction⟩
  | _ => none

/-- Reads the declaration of an operation. -/
def OperationDecl.ofJson? (json : Json) : Option OperationDecl :=
  match json.record? ["name", "owner", "parameters"] with
  | some [some name, some owner, parameters] => do
    let name ← name.text?
    let owner ← owner.text?
    let parameters ← Json.listField parameters ParameterDecl.ofJson?
    return ⟨name, owner, parameters⟩
  | _ => none

/-- Reads the declaration of an event. -/
def EventDecl.ofJson? (json : Json) : Option EventDecl :=
  match json.record? ["name", "parameters"] with
  | some [some name, parameters] => do
    let name ← name.text?
    let parameters ← Json.listField parameters ParameterDecl.ofJson?
    return ⟨name, parameters⟩
  | _ => none

namespace Manifest

/-- Reads a manifest. -/
def ofJson? (json : Json) : Option Manifest :=
  match json.record? ["types", "operations", "events"] with
  | some [types, operations, events] => do
    let types ← Json.listField types TypeDecl.ofJson?
    let operations ← Json.listField operations OperationDecl.ofJson?
    let events ← Json.listField events EventDecl.ofJson?
    return ⟨types, operations, events⟩
  | _ => none

/-- Reads a manifest from JSON text. -/
def read? (text : String) : Option Manifest := (Json.read? text).bind ofJson?

end Manifest

end SexprAsm
