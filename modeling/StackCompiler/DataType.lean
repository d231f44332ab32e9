/-!
# Types of values
-/

namespace StackCompiler

/-- The type of a value. Records and arrays are known by the name of their type. -/
inductive DataType where
  | int | real | bool | string | void
  | struct (name : String)
  | array (name : String)
deriving DecidableEq, Repr

namespace DataType

def isNumeric : DataType → Bool
  | int | real => true
  | _ => false

def isBoolean (t : DataType) : Bool := t = bool

def isVoid (t : DataType) : Bool := t = void

def isStruct : DataType → Bool
  | struct _ => true
  | _ => false

def isArray : DataType → Bool
  | array _ => true
  | _ => false

/-- Whether a value of type `t` may be stored in a variable of type `target`. A type is only
compatible with itself. -/
def assignableTo (t target : DataType) : Bool := t = target

/-- The type of an arithmetic operation on numbers: mixing int and real yields real. -/
def join (t u : DataType) : DataType := if t = real ∨ u = real then real else int

def text : DataType → String
  | int => "int"
  | real => "real"
  | bool => "bool"
  | string => "string"
  | void => "void"
  | struct name => s!"struct {name}"
  | array name => s!"array {name}"

end DataType

end StackCompiler
