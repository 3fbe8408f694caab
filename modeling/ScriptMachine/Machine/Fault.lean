import ScriptMachine.Compiler.State

/-!
# ScriptMachine.Machine.Fault — what can go wrong in a run

Every fault but three is an error of the script: it has a message and can be caught. A file that
does not compile ends the whole run. `endless` is an instruction that never completes. `stuck` marks
states that have no next one: most of them no compiled code reaches, the exceptions being a class
body whose class name was bound to something else, and a task more than there are ids.
-/

namespace ScriptMachine

/-- What can go wrong in a run. -/
inductive Fault where
  | stackOverflow
  | undefinedVariable (name : String)
  | undefinedProperty (name : String)
  | deadlock
  | operandNotNumber
  | operandsNotNumbers
  | operandsNotAddable
  | lengthsDiffer
  | noListOperand
  | notExpandable
  | zeroStep
  | notContainer
  | notIndexable
  | listIndexOutOfBounds
  | listIndexNotNumber
  | stringIndexOutOfBounds
  | dictIndexOutOfBounds
  | dictKeyNotString
  | stringsImmutable
  | notCallable
  | noMethods
  | noProperties
  | noFields
  | superclassNotClass
  | notAbortable
  | notAwaitable
  | awaitsItself
  | abortsItself
  | importPathNotString
  | requirePathNotString
  | unexpectedArguments (count : Nat)
  | enumValueMissing (member : String)
  | cannotExtend (type : String)
  | unknownType (type : String)
  | cannotLoad (path : String)
  | unknownOperation (code : Nat)
  | expectsNumber (function : String)
  | expectsString (function : String)
  | noLength
  | notNumeral (text : String)
  | boundNotPositive
  | emptyRange
  | popFromEmpty
  | noSuchMethod (type method : String)
  | raised (message : String)
  | uncompilable (errors : Array CompileError)
  | endless
  | stuck
deriving Repr, Inhabited

/-- The message a handler receives. -/
def Fault.message : Fault → String
  | .stackOverflow => "Stack overflow."
  | .undefinedVariable name => "Undefined variable '" ++ name ++ "'."
  | .undefinedProperty name => "Undefined property '" ++ name ++ "'."
  | .deadlock => "Deadlock: every task is waiting on another task."
  | .operandNotNumber => "Operand must be a number."
  | .operandsNotNumbers => "Operands must be numbers."
  | .operandsNotAddable => "Operands must be two numbers or two strings."
  | .lengthsDiffer => "Lists must have the same length."
  | .noListOperand => "Element-wise operators need a list operand."
  | .notExpandable => "Can only expand numbers and characters."
  | .zeroStep => "Range step cannot be zero."
  | .notContainer => "Can only test membership in lists, dicts and strings."
  | .notIndexable => "Invalid type to index into."
  | .listIndexOutOfBounds => "List index out of bounds."
  | .listIndexNotNumber => "List index must be a number."
  | .stringIndexOutOfBounds => "String index out of bounds."
  | .dictIndexOutOfBounds => "Dictionary index out of bounds."
  | .dictKeyNotString => "Dictionary key must be a string."
  | .stringsImmutable => "Strings are immutable."
  | .notCallable => "Can only call functions and classes."
  | .noMethods => "Only instances have methods."
  | .noProperties => "Only instances have properties."
  | .noFields => "Only instances have fields."
  | .superclassNotClass => "Superclass must be a class."
  | .notAbortable => "Can only abort tasks."
  | .notAwaitable => "Can only await tasks."
  | .awaitsItself => "A task cannot await itself."
  | .abortsItself => "A task cannot abort itself."
  | .importPathNotString => "Import path must be a string."
  | .requirePathNotString => "Require argument must be a string."
  | .unexpectedArguments count => "Expected 0 arguments but got " ++ toString count ++ "."
  | .enumValueMissing member =>
    "Enum member '" ++ member ++ "' needs a value after a non-numeric member."
  | .cannotExtend type => "Cannot extend '" ++ type ++ "'."
  | .unknownType type => "Unknown type '" ++ type ++ "'."
  | .cannotLoad path => "Could not load the file \"" ++ path ++ "\"."
  | .unknownOperation code => "Unknown opcode " ++ toString code ++ "."
  | .expectsNumber function => function ++ "() expects a number."
  | .expectsString function => function ++ "() expects a string."
  | .noLength => "len() expects a list, dict or string."
  | .notNumeral text => "Cannot convert '" ++ text ++ "' to a number."
  | .boundNotPositive => "rand() bound must be positive."
  | .emptyRange => "rand() range is empty."
  | .popFromEmpty => "pop() called on an empty list."
  | .noSuchMethod type method => type ++ " has no method " ++ method ++ "()."
  | .raised message => message
  | .uncompilable _ => "compile error"
  | .endless => "endless"
  | .stuck => "stuck"

end ScriptMachine
