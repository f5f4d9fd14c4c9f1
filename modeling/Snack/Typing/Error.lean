import Snack.Pos
import Snack.Text.Quoted
import Snack.Ty.Basic

/-! What can be wrong with a program that is well formed as a text: one cause for each rule, the class
of rules it belongs to, and its wording. -/

namespace Snack.Typing

/-- The class of a broken rule. -/
inductive Category where
  | duplicate | undeclared | mismatch | operand | arity | illegalReturn | illegalBreak | returnValue
  | unknownField | unsupported
  /-- The tree itself is incomplete. -/
  | missingPart
  /-- The tree has a number that none can read. -/
  | malformed
  /-- A scope is left that was never entered. -/
  | unbalanced
  deriving DecidableEq

inductive Cause where
  | alreadyDeclared (name : String)
  | notDeclared (name : String)
  | notNumeric
  | notNumericOrString
  | notBoolean (t : Ty)
  | notAType
  | notIterable (t : Ty)
  | classAsValue (name : String)
  | integerTooLarge
  | notOptional
  | notCallable
  | notOptionalStruct
  | notStruct
  | differentTypes (a b : Ty)
  | notAssignable (source target : Ty)
  | fixedTarget (name : String)
  | iteratorTarget (name : String)
  | mixedElements
  | mixedEntries
  | argumentCount (required passed : Nat)
  | iteratorCount (required given : Nat)
  | returnOutsideFunction
  | breakOutsideLoop
  | valueMissing
  | valueUnexpected
  | noSuchField
  | unknownType (name : String)
  | unsupportedType (kind : String)
  | unsupportedStmt (kind : String)
  | unsupportedExpr (kind : String)
  | unsupportedOperator (text : String)
  | unsupportedRange (text : String)
  | fieldInitializer
  | missing (part : String)
  | notAnInteger (text : String)
  | notAFloat (text : String)
  | outermostScope

namespace Cause

/-- A function where one with another number of parameters is declared breaks a rule on arities. -/
def category : Cause → Category
  | alreadyDeclared _ => .duplicate
  | notDeclared _ => .undeclared
  | notNumeric | notNumericOrString | notBoolean _ | notAType | notIterable _ | classAsValue _
  | integerTooLarge | notOptional | notCallable | notOptionalStruct | notStruct => .operand
  | notAssignable (.function ps _) (.function qs _) =>
    if ps.length = qs.length then .mismatch else .arity
  | differentTypes .. | notAssignable .. | fixedTarget _ | iteratorTarget _ | mixedElements
  | mixedEntries => .mismatch
  | argumentCount .. | iteratorCount .. => .arity
  | returnOutsideFunction => .illegalReturn
  | breakOutsideLoop => .illegalBreak
  | valueMissing | valueUnexpected => .returnValue
  | noSuchField => .unknownField
  | unknownType _ | unsupportedType _ | unsupportedStmt _ | unsupportedExpr _ | unsupportedOperator _
  | unsupportedRange _ | fieldInitializer => .unsupported
  | missing _ => .missingPart
  | notAnInteger _ | notAFloat _ => .malformed
  | outermostScope => .unbalanced

/-- How much of a text that is no integer is shown. -/
def maxShown : Nat := 200

def message : Cause → String
  | alreadyDeclared name => "Identifier " ++ name ++ " already declared"
  | notDeclared name => "Identifier " ++ name ++ " not declared"
  | notNumeric => "Expected a number"
  | notNumericOrString => "Expected a number or string"
  | notBoolean t => "Expected a boolean, got " ++ t.name
  | notAType => "Type expected"
  | notIterable t => "Expected an array or dict, got " ++ t.name
  | classAsValue name => "Class " ++ name ++ " cannot be used as a value"
  | integerTooLarge => "Integer literal too large"
  | notOptional => "Expected an optional"
  | notCallable => "Call of non-function or non-constructor"
  | notOptionalStruct => "Expected an optional struct"
  | notStruct => "Expected a struct"
  | differentTypes a b => "Operands do not have the same type: " ++ a.name ++ ", " ++ b.name
  | notAssignable source target => "Cannot assign a " ++ source.name ++ " to a " ++ target.name
  | fixedTarget name => "Cannot assign to " ++ name
  | iteratorTarget name => "Cannot assign to loop iterator " ++ name
  | mixedElements => "Not all elements have the same type"
  | mixedEntries => "Not all entries have the same type"
  | argumentCount required passed =>
    toString required ++ " argument(s) required but " ++ toString passed ++ " passed"
  | iteratorCount required given =>
    toString required ++ " iterator(s) required but " ++ toString given ++ " given"
  | returnOutsideFunction => "Return can only appear in a function"
  | breakOutsideLoop => "Break can only appear in a loop"
  | valueMissing => "Something should be returned"
  | valueUnexpected => "Cannot return a value from this function"
  | noSuchField => "No such field"
  | unknownType name => "Unknown type " ++ name
  | unsupportedType kind => "Unsupported type kind: " ++ kind
  | unsupportedStmt kind => "Unsupported statement kind: " ++ kind
  | unsupportedExpr kind => "Unsupported expression kind: " ++ kind
  | unsupportedOperator text => "Unsupported operator: " ++ text
  | unsupportedRange text => "Unsupported range operator: " ++ text
  | fieldInitializer => "Field initializers are not supported"
  | missing part => "'" ++ part ++ "'"
  | notAnInteger text =>
    "invalid literal for int() with base 10: " ++ String.ofList ((Text.quoted text).take maxShown)
  | notAFloat text => "could not convert string to float: " ++ String.ofList (Text.quoted text)
  | outermostScope => ""

end Cause

abbrev Error := Located Cause

/-- A fault of the tree itself has no place. -/
def Error.ofTree (cause : Cause) : Error := ⟨cause, .unknown⟩

def Error.missing (part : String) : Error := .ofTree (.missing part)

end Snack.Typing
