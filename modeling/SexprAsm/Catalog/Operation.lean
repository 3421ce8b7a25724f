import SexprAsm.Manifest
import SexprAsm.Text.Case
import SexprAsm.TypeTable

/-!
# Operations and events of a host

An operation is known by its full name, `Owner.__method__Parameters__Return`, and called in source
texts by names derived from its method and its owner.
-/

namespace SexprAsm

open Text

/-- A parameter whose type is known. -/
structure Parameter where
  name : String
  type : TypeId
  direction : Direction
  deriving DecidableEq, Repr, Inhabited

/-- The number of an operation in its catalogue. -/
abbrev OperationId := Nat

/-- An operation of the host. -/
structure Operation where
  fullName : String
  owner : TypeId
  parameters : List Parameter
  deriving DecidableEq, Repr, Inhabited

/-- An event of the host. -/
structure HostEvent where
  /-- The name as the host declares it, such as `Start`. -/
  name : String
  /-- The entry label in source and assembly, such as `_start`. -/
  label : String
  parameters : List Parameter
  deriving DecidableEq, Repr, Inhabited

/-- The method in a full name: what stands between the first two marks `__`. -/
def methodOf? (fullName : String) : Option String := do
  let mark := ['_', '_']
  let (_, rest) ← cut? mark fullName.toList
  return String.ofList ((cut? mark rest).elim rest Prod.fst)

namespace Operation

/-- The method part of the full name, such as `op_Addition`, `get_Length` or `ctor`. -/
def method (op : Operation) : String := (methodOf? op.fullName).getD ""

/-- The last parameter is the slot for the result. -/
def returns (op : Operation) : Bool :=
  op.parameters.getLast?.any (·.direction = .output)

/-- The number of parameters that a call supplies. -/
def arity (op : Operation) : Nat :=
  if op.returns then op.parameters.length - 1 else op.parameters.length

/-- The type of the result. -/
def returnType? (op : Operation) : Option TypeId := op.parameters[op.arity]?.map (·.type)

/-- Two parameters agree in direction and, unless they are outputs, in type. -/
def sameParameter (a b : Parameter) : Bool :=
  a.direction == b.direction && (a.direction == .output || a.type == b.type)

/-- Two operations take the same arguments. -/
def sameSignature (a b : Operation) : Bool :=
  a.parameters.length == b.parameters.length &&
    (a.parameters.zip b.parameters).all fun (p, q) => sameParameter p q

end Operation

/-- The symbol that an operator method is called by. -/
def operatorSymbol? : String → Option String
  | "op_UnaryPlus" => some "+"
  | "op_Addition" => some "+"
  | "op_UnaryMinus" => some "-"
  | "op_Subtraction" => some "-"
  | "op_Increment" => some "++"
  | "op_Decrement" => some "--"
  | "op_Multiply" => some "*"
  | "op_Multiplication" => some "*"
  | "op_Division" => some "/"
  | "op_Remainder" => some "%"
  | "op_Modulus" => some "%"
  | "op_Equality" => some "=="
  | "op_Inequality" => some "!="
  | "op_GreaterThan" => some ">"
  | "op_GreaterThanOrEqual" => some ">="
  | "op_LessThan" => some "<"
  | "op_LessThanOrEqual" => some "<="
  | "op_LeftShift" => some "<<"
  | "op_RightShift" => some ">>"
  | "op_LogicalAnd" => some "&"
  | "op_ConditionalAnd" => some "&"
  | "op_LogicalOr" => some "|"
  | "op_ConditionalOr" => some "|"
  | "op_LogicalXor" => some "^"
  | "op_ConditionalXor" => some "^"
  | "op_UnaryNegation" => some "~"
  | _ => none

/-- What a method does, as far as its name tells. -/
inductive MethodKind where
  | constructor
  | cast
  | operator (symbol : String)
  /-- An operator without a symbol of its own. -/
  | namedOperator
  | getter (property : String)
  | setter (property : String)
  | method
  deriving DecidableEq, Repr

/-- Tells the kinds of methods apart. -/
def MethodKind.of (method : String) : MethodKind :=
  if method = "ctor" then .constructor
  else if method = "op_Explicit" ∨ method = "op_Implicit" then .cast
  else
    match operatorSymbol? method, dropLead? "op_" method, dropLead? "get_" method,
      dropLead? "set_" method with
    | some symbol, _, _, _ => .operator symbol
    | none, some _, _, _ => .namedOperator
    | none, none, some property, _ => .getter property
    | none, none, none, some property => .setter property
    | none, none, none, none => .method

/-- The items of a list without repetitions, in order of first occurrence. -/
def distinct {α : Type} [DecidableEq α] (items : List α) : List α :=
  items.foldl (fun seen a => if a ∈ seen then seen else seen ++ [a]) []

namespace Operation

/-- The first parameter that a call supplies is an instance of the owner. -/
def onInstance (op : Operation) : Bool :=
  0 < op.arity && op.parameters.head?.any (·.type == op.owner)

/-- The names an operation is called by in source texts; the first one is canonical. -/
def callNames (types : TypeTable) (op : Operation) : List String :=
  let owner := types.info op.owner
  let qualified (word member short : String) : List String :=
    [word ++ owner.shortName ++ member, word ++ owner.name ++ member] ++
      if op.onInstance then [short] else []
  distinct <|
    match MethodKind.of op.method with
    | .constructor => ["Create" ++ owner.shortName, "Create" ++ owner.name]
    | .cast =>
      match op.returnType? with
      | some target => ["!" ++ (types.info target).shortName, "!" ++ (types.info target).name]
      | none => []
    | .operator symbol => [symbol]
    | .namedOperator => [op.method]
    | .getter property =>
      let member := upperFirst property
      qualified "Get" member ("Get" ++ member)
    | .setter property =>
      let member := upperFirst property
      qualified "Set" member ("Set" ++ member)
    | .method => qualified "" (upperFirst op.method) op.method

end Operation

end SexprAsm
