import SexprAsm.Catalog.Operation

/-!
# Choosing among overloads

The operations called by one name with one number of arguments. Of operations with the same
signature only one is kept, that of the more general owner. The rest are put in order, more
specific parameters first; the comparison is no total order, so the order in which they are
inserted is part of the rule.
-/

namespace SexprAsm.Overload

/-- A host's operations and the types they speak of. -/
structure Context where
  types : TypeTable
  operations : Array Operation
  deriving Repr

/-- The operation of a number. -/
def Context.operation (ctx : Context) (id : OperationId) : Operation :=
  ctx.operations.getD id default

/-- Adds a candidate, or lets it meet the one with its signature: the newcomer takes its place
unless its owner is assignable to the other's. -/
def addCandidate (ctx : Context) (id : OperationId) : List OperationId → List OperationId
  | [] => [id]
  | other :: rest =>
    if (ctx.operation other).sameSignature (ctx.operation id) then
      if ctx.types.isAssignable (ctx.operation other).owner (ctx.operation id).owner then
        other :: rest
      else id :: rest
    else other :: addCandidate ctx id rest

/-- How much more general a reference is than a value type. -/
def valueTypeScore : Bool → Bool → Int
  | true, true => 0
  | true, false => -1
  | false, _ => 1

/-- How much more general the first of two parameters is. -/
def parameterScore (types : TypeTable) (l r : Parameter) : Int :=
  -- Operations are not put in order by what they return.
  if l.direction = .output ∧ r.direction = .output then 0
  else if l.type = r.type then 0
  else
    let lt := types.info l.type
    let rt := types.info r.type
    match lt.element, rt.element with
    | some le, some re => valueTypeScore (types.info le).valueType (types.info re).valueType
    | _, _ =>
      if lt.valueType || rt.valueType then valueTypeScore lt.valueType rt.valueType
      else
        -- Of two references, the one further up the chain of bases is more general.
        match types.distance l.type r.type, types.distance r.type l.type with
        | some steps, _ => steps
        | none, some steps => -(steps : Int)
        | none, none => 0

/-- How much more general the parameters of the first of two operations are; operations with
different numbers of parameters are not compared. -/
def generality (types : TypeTable) (l r : Operation) : Int :=
  if l.parameters.length ≠ r.parameters.length then 0
  else
    (l.parameters.zip r.parameters).foldl (fun score (p, q) => score + parameterScore types p q) 0

/-- The first operation takes more general parameters than the second. -/
def isMoreGeneral (ctx : Context) (l r : OperationId) : Bool :=
  0 < generality ctx.types (ctx.operation l) (ctx.operation r)

/-- Inserts a candidate into a list kept last one first: it moves towards the front of the order
past every candidate that is more general than it. -/
def insertBack (ctx : Context) (id : OperationId) : List OperationId → List OperationId
  | [] => [id]
  | last :: before =>
    if isMoreGeneral ctx last id then last :: insertBack ctx id before else id :: last :: before

/-- Puts candidates in order by inserting one after the other. -/
def sortCandidates (ctx : Context) (ids : List OperationId) : List OperationId :=
  (ids.foldl (fun sorted id => insertBack ctx id sorted) []).reverse

/-- The parameters of an operation accept arguments of the given types. -/
def acceptsArguments (types : TypeTable) (op : Operation) (arguments : List TypeId) : Bool :=
  (op.parameters.zip arguments).all fun (parameter, argument) =>
    match parameter.direction with
    | .input => types.isAssignable parameter.type argument
    | .output => types.isAssignable argument parameter.type
    | .both => parameter.type == argument

end SexprAsm.Overload
