import StackCompiler.DataType
import StackCompiler.Diagnostic.Remark

/-!
# Faults and notices

What the parser has to say about a program. A fault ends the parse. A notice does not: the parser
goes on as if the program had been right.
-/

namespace StackCompiler

inductive Fault where
  -- Text that is no token, or the wrong token.
  | unknownToken (found : Token)
  | expected (what : String) (found : Token)
  | nestedTooDeep (limit : Nat)
  -- Names.
  | duplicate (name : String)
  | undefinedIdentifier (name : String)
  | undefinedFunction (name : String)
  | notFunction (name : String)
  | functionAsVariable (name : String)
  | typeAsVariable (name : String)
  | arrayAsValue (name : String)
  | elementAccess
  | undefinedStruct (name : String)
  | undefinedArray (name : String)
  | declaredTypeHere (name : String)
  | endsWith (name declared : String)
  -- Literals.
  | integerOutOfRange (literal : String)
  | invalidReal (literal : String)
  -- Types.
  | notNumeric (found : DataType)
  | notBoolean (found : DataType)
  | conditionNotBoolean (found : DataType)
  | incomparable (left right : DataType)
  | compoundNotNumeric (target value : DataType)
  | cannotAssign (value target : DataType) (name : String)
  | lengthNotInteger
  -- Calls and returns.
  | noValue (function : String)
  | argumentCount (function : String) (declared given : Nat)
  | argumentType (given : DataType) (name : String) (declared : DataType)
  | returnFromMain
  | returnFromVoid (function : String)
  | cannotReturn (value : DataType) (function : String) (declared : DataType)
  | missingReturnValue (function : String) (declared : DataType)
  -- Constants and inputs.
  | assignToConstant (name : String)
  | inputToConstant (name : String)
  | inputNotNumeric (name : String)
  -- A step of the parser left the input as it was. No step does.
  | noProgress
  -- A fault in the words of whoever found it.
  | stated (isSyntax : Bool) (message : String)
deriving DecidableEq, Repr

namespace Fault

def isSyntax : Fault → Bool
  | unknownToken _ | expected .. | nestedTooDeep _ | noProgress => true
  | stated s _ => s
  | _ => false

def message : Fault → String
  | unknownToken found => s!"unknown token {found.describe}"
  | expected what found => s!"expected {what}, found {found.describe}"
  | nestedTooDeep limit => s!"expression nested more than {limit} levels deep"
  | duplicate name => s!"duplicate identifier '{name}'"
  | undefinedIdentifier name => s!"undefined identifier '{name}'"
  | undefinedFunction name => s!"undefined function '{name}'"
  | notFunction name => s!"'{name}' is not a function"
  | functionAsVariable name => s!"function '{name}' can't be used as a variable"
  | typeAsVariable name => s!"type '{name}' can't be used as a variable"
  | arrayAsValue name => s!"array '{name}' can't be used as a value"
  | elementAccess => "array element access is not supported"
  | undefinedStruct name => s!"undefined struct type '{name}'"
  | undefinedArray name => s!"undefined array type '{name}'"
  | declaredTypeHere name => s!"user defined type '{name}' can't be used here"
  | endsWith name declared => s!"program ends with '{name}' but is named '{declared}'"
  | integerOutOfRange literal => s!"integer literal {literal} is out of range"
  | invalidReal literal => s!"invalid real literal {literal}"
  | notNumeric found => s!"expected a numeric operand, found {found.text}"
  | notBoolean found => s!"expected a bool operand, found {found.text}"
  | conditionNotBoolean found => s!"condition must be bool, found {found.text}"
  | incomparable left right => s!"cannot compare {left.text} with {right.text}"
  | compoundNotNumeric target value =>
    s!"compound assignment needs numeric operands, found {target.text} and {value.text}"
  | cannotAssign value target name =>
    s!"cannot assign {value.text} to {target.text} variable '{name}'"
  | lengthNotInteger => "array length must be an integer"
  | noValue function => s!"void function '{function}' has no value"
  | argumentCount function declared given =>
    s!"function '{function}' takes {declared} argument(s) but {given} were given"
  | argumentType given name declared =>
    s!"cannot pass {given.text} as parameter '{name}' of type {declared.text}"
  | returnFromMain => "main can't return a value"
  | returnFromVoid function => s!"void function '{function}' can't return a value"
  | cannotReturn value function declared =>
    s!"cannot return {value.text} from function '{function}' returning {declared.text}"
  | missingReturnValue function declared =>
    s!"function '{function}' must return a value of type {declared.text}"
  | assignToConstant name => s!"cannot assign to constant '{name}'"
  | inputToConstant name => s!"cannot input into constant '{name}'"
  | inputNotNumeric name => s!"input target '{name}' must be int or real"
  | noProgress => "no input was consumed"
  | stated _ message => message

def unexpected (what : String) (found : Token) : Fault :=
  if found.kind = .undefined then unknownToken found else expected what found

end Fault

inductive Notice where
  -- A separator is taken to be there.
  | missing (separator : Token.Kind)
  -- A minus sign is ignored.
  | cannotNegate (found : Token)
  | emptyBlock
  | trailingInput
deriving DecidableEq, Repr

def Notice.message : Notice → String
  | missing separator => s!"expected {separator.describe}, will try continuing anyway"
  | cannotNegate found =>
    s!"cannot negate {found.describe}, will try continuing without the minus sign"
  | emptyBlock => "expected at least one statement, will try continuing anyway"
  | trailingInput => "unexpected input after end of program, ignoring it"

structure ParseError where
  token : Token
  fault : Fault
deriving DecidableEq, Repr

namespace ParseError

def remark (e : ParseError) : Remark := .ofToken .error e.token e.fault.message

def text (e : ParseError) : String :=
  let kind := if e.fault.isSyntax then "syntax error" else "semantic error"
  s!"{kind}: {e.fault.message} ({e.token.position.text})"

end ParseError

inductive Diagnostic where
  | error (e : ParseError)
  | warning (token : Token) (notice : Notice)
deriving DecidableEq, Repr

namespace Diagnostic

def token : Diagnostic → Token
  | error e => e.token
  | warning t _ => t

def remark : Diagnostic → Remark
  | error e => e.remark
  | warning t notice => .ofToken .warning t notice.message

end Diagnostic

end StackCompiler
