import SexprAsm.Manifest

/-!
# The core manifest

The two array operations that every catalogue carries, and the declarations used when no manifest
is given: primitive operators, texts, conversions, logging and a few engine types.
-/

namespace SexprAsm.Manifest

/-- The operation that makes an array of an element type and a length. -/
def arrayCreate : String := "SystemArray.__CreateInstance__SystemType_SystemInt32__SystemArray"

/-- The operation that stores an element of an array. -/
def arraySetValue : String := "SystemArray.__SetValue__SystemObject_SystemInt32__SystemVoid"

/-- The operations that array literals compile to. -/
def intrinsics : List OperationDecl := [
  ⟨arrayCreate, "SystemArray", [
    ⟨"elementType", "SystemType", .input⟩,
    ⟨"length", "SystemInt32", .input⟩,
    ⟨"result", "SystemArray", .output⟩]⟩,
  ⟨arraySetValue, "SystemArray", [
    ⟨"instance", "SystemArray", .input⟩,
    ⟨"value", "SystemObject", .input⟩,
    ⟨"index", "SystemInt32", .input⟩]⟩]

/-- The operation `owner.__method__A_B__R` with inputs `A`, `B` and, unless it is void, an output
`R`. -/
def function (owner method : String) (inputs : List String) (result : String) : OperationDecl :=
  let middle := if inputs.isEmpty then "" else "__" ++ "_".intercalate inputs
  let name := owner ++ ".__" ++ method ++ middle ++ "__" ++ result
  let arguments := inputs.mapIdx fun i type => (⟨s!"arg{i}", type, .input⟩ : ParameterDecl)
  let output : List ParameterDecl :=
    if result = "SystemVoid" then [] else [⟨"result", result, .output⟩]
  ⟨name, owner, arguments ++ output⟩

/-- The operators of a number type. -/
def arithmetic (owner : String) : List OperationDecl :=
  (["op_Addition", "op_Subtraction", "op_Multiplication", "op_Division", "op_Remainder"].map
    fun method => function owner method [owner, owner] owner) ++
  (["op_Equality", "op_Inequality", "op_GreaterThan", "op_GreaterThanOrEqual", "op_LessThan",
    "op_LessThanOrEqual"].map fun method => function owner method [owner, owner] "SystemBoolean") ++
  [function owner "op_UnaryMinus" [owner] owner]

/-- The types of the core manifest. -/
def coreTypes : List TypeDecl := [
  ⟨"UnityEngineObject", "UnityEngineObject", none, false⟩,
  ⟨"UnityEngineComponent", "Component", some "UnityEngineObject", false⟩,
  ⟨"UnityEngineTransform", "Transform", some "UnityEngineComponent", false⟩,
  ⟨"UnityEngineCollider", "Collider", some "UnityEngineComponent", false⟩,
  ⟨"UnityEngineDebug", "Debug", none, false⟩,
  ⟨"SystemConvert", "Convert", none, false⟩,
  ⟨"UnityEngineVector3", "Vector3", none, true⟩]

/-- The operations of the core manifest. -/
def coreOperations : List OperationDecl :=
  arithmetic "SystemInt32" ++ arithmetic "SystemSingle" ++
  (["op_LogicalAnd", "op_LogicalOr", "op_LogicalXor", "op_Equality"].map fun method =>
    function "SystemBoolean" method ["SystemBoolean", "SystemBoolean"] "SystemBoolean") ++
  [function "SystemBoolean" "op_UnaryNegation" ["SystemBoolean"] "SystemBoolean",
    function "SystemString" "Concat" ["SystemObject", "SystemObject"] "SystemString",
    function "SystemString" "Concat" ["SystemString", "SystemString"] "SystemString",
    function "SystemString" "get_Length" ["SystemString"] "SystemInt32",
    function "SystemString" "Contains" ["SystemString", "SystemString"] "SystemBoolean",
    function "SystemString" "op_Equality" ["SystemString", "SystemString"] "SystemBoolean",
    function "SystemInt32" "ToString" ["SystemInt32"] "SystemString",
    function "SystemObject" "ToString" ["SystemObject"] "SystemString",
    function "SystemObject" "Equals" ["SystemObject", "SystemObject"] "SystemBoolean",
    function "SystemConvert" "ToInt32" ["SystemSingle"] "SystemInt32",
    function "SystemConvert" "ToSingle" ["SystemInt32"] "SystemSingle",
    function "SystemSingle" "op_Explicit" ["SystemInt32"] "SystemSingle",
    function "UnityEngineDebug" "Log" ["SystemObject"] "SystemVoid",
    function "UnityEngineVector3" "ctor" ["SystemSingle", "SystemSingle", "SystemSingle"]
      "UnityEngineVector3",
    function "UnityEngineVector3" "get_x" ["UnityEngineVector3"] "SystemSingle",
    function "UnityEngineObject" "op_Equality" ["UnityEngineObject", "UnityEngineObject"]
      "SystemBoolean",
    function "SystemArray" "get_Length" ["SystemArray"] "SystemInt32",
    function "UnityEngineComponent" "get_transform" ["UnityEngineComponent"]
      "UnityEngineTransform"] ++
  intrinsics

/-- The events of the core manifest. -/
def coreEvents : List EventDecl := [
  ⟨"Start", []⟩,
  ⟨"Update", []⟩,
  ⟨"Interact", []⟩,
  ⟨"OnTriggerEnter", [⟨"other", "UnityEngineCollider", .input⟩]⟩]

/-- The core manifest. -/
def core : Manifest := ⟨coreTypes, coreOperations, coreEvents⟩

end SexprAsm.Manifest
