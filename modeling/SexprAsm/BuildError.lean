import SexprAsm.Manifest
import SexprAsm.Text.Quoted

/-!
# Errors while code is emitted
-/

namespace SexprAsm

/-- Why a variable cannot be defined, or an instruction not emitted or written. -/
inductive BuildError where
  | invalidVariableName
  | duplicateVariable (name existing requested : String)
  | constantRedefinition (name : String)
  | valueTypeMismatch (name type value : String)
  | typeMismatch (variableName expected actual : String)
  | unknownOperation (name : String)
  | parameterCount (name : String) (expected actual : Nat)
  | constantOutput (name : String) (index : Nat) (direction : Direction) (constant : String)
  | parameterType (name : String) (index : Nat) (expected actual : String)
  | unknownMnemonic (mnemonic : String)
  | missingOperand (mnemonic : String)
  | invalidAddress (value : String)
  | notAJump (index : Nat)
  | unresolvedJump (offset : Nat)
  deriving DecidableEq, Repr

/-- A number in upper-case hexadecimal, with at least eight digits. -/
def hex8 (n : Nat) : String :=
  let digits := (Nat.toDigits 16 n).map Char.toUpper
  String.ofList (List.replicate (8 - digits.length) '0' ++ digits)

/-- The wording of an error. -/
def BuildError.message : BuildError → String
  | invalidVariableName => "variable names must not be empty"
  | duplicateVariable name existing requested =>
    s!"variable `{name}` is already declared as `{existing}`, cannot redeclare it as `{requested}`"
  | constantRedefinition name => s!"constant `{name}` cannot be redefined"
  | valueTypeMismatch name type value =>
    s!"value `{value}` does not fit variable `{name}` of type `{type}`"
  | typeMismatch variableName expected actual =>
    s!"type mismatch: expected variable `{variableName}` to be `{expected}` but got `{actual}`"
  | unknownOperation name => s!"extern `{name}` does not exist"
  | parameterCount name expected actual =>
    s!"invalid number of parameters for `{name}`: expected {expected} but got {actual}"
  | constantOutput name index direction constant =>
    let way := direction.describe
    s!"parameter {index} of `{name}` is {way} but was given the constant `{constant}`"
  | parameterType name index expected actual =>
    s!"type mismatch: expected parameter {index} of `{name}` to be `{expected}` but got `{actual}`"
  | unknownMnemonic mnemonic => s!"unknown inline assembly instruction `{mnemonic}`"
  | missingOperand mnemonic => s!"inline assembly instruction `{mnemonic}` needs an operand"
  | invalidAddress value => s!"`{value}` is not a valid code address"
  | notAJump index => s!"instruction {index} is not a jump"
  | unresolvedJump offset => "jump at 0x" ++ hex8 offset ++ " was never given a destination"

end SexprAsm
