import SexprAsm.OrderedMap
import SexprAsm.Text.Cut
import SexprAsm.Value

/-!
# Host types

A table of types with single inheritance from one root type and covariant arrays of reference
types. Types are numbered in the order of their entry; a type is found under its host name and,
where that is free, under the short name used in source texts.
-/

namespace SexprAsm

/-- The number of a type in its table. -/
abbrev TypeId := Nat

/-- One type. -/
structure TypeInfo where
  /-- The host name, such as `SystemInt32`. -/
  name : String
  /-- The name used in source texts, such as `Int32`. -/
  shortName : String
  base : Option TypeId
  valueType : Bool
  /-- The element type of an array type. -/
  element : Option TypeId
  deriving DecidableEq, Repr, Inhabited

/-- The type is an array type. -/
def TypeInfo.isArray (info : TypeInfo) : Bool := info.element.isSome

/-- The types of a host. -/
structure TypeTable where
  types : Array TypeInfo := #[]
  byName : NameMap TypeId := {}
  deriving Repr

namespace TypeTable

/-- The host name of the root type. -/
def objectName : String := "SystemObject"

/-- The host name of the base of the value types. -/
def valueTypeName : String := "SystemValueType"

/-- The host name of the type without values. -/
def voidName : String := "SystemVoid"

/-- The host name of the base of the array types. -/
def arrayName : String := "SystemArray"

/-- The host name of the type of types. -/
def typeTypeName : String := "SystemType"

/-- The host name of the type of texts. -/
def stringName : String := "SystemString"

/-- The host name of the type of conditions. -/
def booleanName : String := "SystemBoolean"

/-- The host name of the type of code addresses. -/
def uint32Name : String := "SystemUInt32"

/-- The primitive value types, with their short names. -/
def primitives : List (String × String) := [
  ("SystemBoolean", "Boolean"), ("SystemSByte", "SByte"), ("SystemByte", "Byte"),
  ("SystemInt16", "Int16"), ("SystemUInt16", "UInt16"), ("SystemInt32", "Int32"),
  ("SystemUInt32", "UInt32"), ("SystemInt64", "Int64"), ("SystemUInt64", "UInt64"),
  ("SystemSingle", "Single"), ("SystemDouble", "Double")]

/-- The root type, the first of every table. -/
def object : TypeId := 0

/-- The type without values, the third of every table. -/
def void : TypeId := 2

/-- The number of types. -/
def size (t : TypeTable) : Nat := t.types.size

/-- The type of a number. -/
def info (t : TypeTable) (id : TypeId) : TypeInfo := t.types.getD id default

/-- The host name of a type. -/
def name (t : TypeTable) (id : TypeId) : String := (t.info id).name

/-- The type with a host name or short name. -/
def lookup (t : TypeTable) (name : String) : Option TypeId := t.byName.get? name

/-- Enters a type; its number is the old size. -/
def insert (t : TypeTable) (info : TypeInfo) : TypeId × TypeTable :=
  let id := t.size
  (id, ⟨t.types.push info, (t.byName.put info.name id).putNew info.shortName id⟩)

/-- The array type with the given element, entered on first use. -/
def arrayOf (t : TypeTable) (element : TypeId) : TypeId × TypeTable :=
  let info := t.info element
  match t.lookup (info.name ++ "Array") with
  | some id => (id, t)
  | none =>
    t.insert
      { name := info.name ++ "Array"
        shortName := info.shortName ++ "Array"
        base := t.lookup arrayName
        valueType := false
        element := some element }

/-- The types every table starts with: the root types, the primitives, and arrays of the
primitives, of the root type, of texts and of types. -/
def initial : TypeTable :=
  let reference (t : TypeTable) (name short : String) (base : Option TypeId) : TypeTable :=
    (t.insert ⟨name, short, base, false, none⟩).2
  let t := reference {} objectName "Object" none
  let t := reference t valueTypeName "ValueType" (some object)
  let t := reference t voidName "Void" (some object)
  let t := reference t arrayName "Array" (some object)
  let t := reference t typeTypeName "Type" (some object)
  let t := reference t stringName "String" (some object)
  -- The second type is the base of the value types.
  let t := primitives.foldl
    (fun t (name, short) => (t.insert ⟨name, short, some 1, true, none⟩).2) t
  (primitives.map Prod.fst ++ [objectName, stringName, typeTypeName]).foldl
    (fun t name =>
      match t.lookup name with
      | some id => (t.arrayOf id).2
      | none => t) t

/-- Enters a host type, or finds the one with the same name. -/
def declare (t : TypeTable) (name shortName : String) (valueType : Bool) : TypeId × TypeTable :=
  match t.lookup name with
  | some id => (id, t)
  | none =>
    t.insert
      { name := name
        shortName := shortName
        base := if valueType then t.lookup valueTypeName else some object
        valueType := valueType
        element := none }

/-- Finds a type by name, entering arrays of known types; `length` bounds the nesting. -/
def resolveWithin (t : TypeTable) : Nat → String → Option (TypeId × TypeTable)
  | 0, name => (t.lookup name).map (·, t)
  | length + 1, name =>
    match t.lookup name with
    | some id => some (id, t)
    | none => do
      let (element, t) ← t.resolveWithin length (← Text.dropTail? "Array" name)
      return t.arrayOf element

/-- Finds a type by host name or short name, entering arrays of known types. -/
def resolve (t : TypeTable) (name : String) : Option (TypeId × TypeTable) :=
  t.resolveWithin name.length name

/-- A type that every table has; the root type stands in for a missing name. -/
def builtin (t : TypeTable) (name : String) : TypeId := (t.lookup name).getD object

/-- The type of a literal. -/
def typeOf (t : TypeTable) (value : Value) : TypeId :=
  if value.isNull then object else t.builtin value.hostType

/-- The type of a constant slot that holds a literal; null lives in a slot of the type without
values. -/
def constantType (t : TypeTable) (value : Value) : TypeId :=
  if value.isNull then void else t.typeOf value

/-- The value a fresh variable of a primitive type starts with. -/
def defaultValue? (t : TypeTable) (id : TypeId) : Option Value := Value.zeroOf? (t.name id)

/-- The first `count` types of the chain of bases that starts at a type. -/
def chain (t : TypeTable) : Nat → TypeId → List TypeId
  | 0, _ => []
  | count + 1, id =>
    id :: match (t.info id).base with
      | some base => chain t count base
      | none => []

/-- A type and its bases, nearest first. No chain repeats a type, so it is no longer than the
table. -/
def ancestry (t : TypeTable) (id : TypeId) : List TypeId := t.chain t.size id

/-- The number of base steps from `derived` up to `base`. -/
def distance (t : TypeTable) (base derived : TypeId) : Option Nat :=
  (t.ancestry derived).findIdx? (· == base)

/-- Assignability, looking at most `depth` array levels down. -/
def assignableWithin (t : TypeTable) : Nat → TypeId → TypeId → Bool
  | 0, target, source => target == source || (t.distance target source).isSome
  | depth + 1, target, source =>
    target == source ||
      (match (t.info target).element, (t.info source).element with
        | some targetElement, some sourceElement =>
          -- An array of values stands for no other array.
          !(t.info sourceElement).valueType &&
            assignableWithin t depth targetElement sourceElement
        | _, _ => false) ||
      (t.distance target source).isSome

/-- A value of type `source` can be stored where `target` is expected: the target is the source
or a base of it, or both are arrays and the elements are references that can be stored so. An
element is entered before its array, so there are fewer array levels than types. -/
def isAssignable (t : TypeTable) (target source : TypeId) : Bool :=
  t.assignableWithin t.size target source

/-- Sets the base of a type, unless it is the root or the base derives from it. -/
def setBase (t : TypeTable) (id base : TypeId) : TypeTable :=
  if id != object && !t.isAssignable id base then
    { t with types := t.types.modify id fun info => { info with base := some base } }
  else t

/-- An argument fits an input parameter; the null constant fits any reference type. -/
def accepts (t : TypeTable) (parameter argument : TypeId) : Bool :=
  if argument == void then parameter == void || !(t.info parameter).valueType
  else t.isAssignable parameter argument

/-- Two types may meet in a copy: one is assignable to the other, and the null constant meets any
reference type. -/
def isCompatible (t : TypeTable) (a b : TypeId) : Bool :=
  if a == void then b == void || !(t.info b).valueType
  else if b == void then !(t.info a).valueType
  else t.isAssignable a b || t.isAssignable b a

/-- The nearest base of the first type that all the types are assignable to. -/
def commonAncestor (t : TypeTable) : List TypeId → Option TypeId
  | [] => none
  | first :: rest => (t.ancestry first).find? fun id => rest.all (t.isAssignable id ·)

end TypeTable

end SexprAsm
