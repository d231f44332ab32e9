import StackCompiler.Binary64.Writing
import StackCompiler.DataType
import StackCompiler.Position
import StackCompiler.Text.Quoted

/-!
# Symbols

A symbol is what a name, a literal or an intermediate value of the program stands for: a kind, the
place of its declaration, attributes in the order they were attached, and a place in the memory of
the machine once it has one.
-/

namespace StackCompiler

namespace Symbol

/-- The number of a symbol, in order of creation. It stands for a word of 32 bits, and is one as
long as there are fewer than `2 ^ 32` symbols. -/
abbrev Id := Nat

def idText (id : Id) : String := s!"#{id}"

inductive Kind where
  | function
  -- Carries a type for checking only.
  | temporary
  | intVariable | intConstant
  | realVariable | realConstant
  | boolVariable | boolConstant
  | stringConstant
  | structOrArrayVariable
  | typeName
deriving DecidableEq, Repr

namespace Kind

def variableOf : DataType → Kind
  | .int => intVariable
  | .real => realVariable
  | .bool => boolVariable
  | .string => stringConstant
  | .void => temporary
  | .struct _ | .array _ => structOrArrayVariable

def constantOf : DataType → Kind
  | .int => intConstant
  | .real => realConstant
  | .bool => boolConstant
  | .string => stringConstant
  | t => variableOf t

def isFunction (k : Kind) : Bool := k = function

def text : Kind → String
  | function => "function"
  | temporary => "temporary"
  | intVariable => "int variable"
  | intConstant => "int constant"
  | realVariable => "real variable"
  | realConstant => "real constant"
  | boolVariable => "bool variable"
  | boolConstant => "bool constant"
  | stringConstant => "string constant"
  | structOrArrayVariable => "struct/array variable"
  | typeName => "type"

end Kind

inductive Attribute where
  | dataType (t : DataType)
  | integerConstant (value : Int)
  | realConstant (value : Binary64)
  | stringConstant (value : String)
  | returnType (t : DataType)
  -- A parameter of a function; attached once per parameter, in order.
  | parameter (id : Id)
  | isParameter
  | immutable
deriving DecidableEq, Repr

namespace Attribute

def text : Attribute → String
  | dataType t => s!"type {t.text}"
  | integerConstant n => s!"int {n}"
  | realConstant x => s!"real {x.write}"
  | stringConstant s => s!"string {Text.quote s}"
  | returnType t => s!"returns {t.text}"
  | parameter id => s!"param {idText id}"
  | isParameter => "parameter"
  | immutable => "immutable"

def dataType? : Attribute → Option DataType
  | dataType t => some t
  | _ => none

def returnType? : Attribute → Option DataType
  | returnType t => some t
  | _ => none

def parameter? : Attribute → Option Id
  | parameter id => some id
  | _ => none

def integer? : Attribute → Option Int
  | integerConstant n => some n
  | _ => none

def real? : Attribute → Option Binary64
  | realConstant x => some x
  | _ => none

def string? : Attribute → Option String
  | stringConstant s => some s
  | _ => none

end Attribute

end Symbol

inductive Region where
  -- Code and constants, which are only read.
  | constants
  -- Variables that live as long as the program.
  | globals
  -- The frame of the running function.
  | declarations
deriving DecidableEq, Repr

def Region.index : Region → Nat
  | constants => 0
  | globals => 1
  | declarations => 2

/-- A place in memory: a region and an offset in bytes from its base register. The offset stands for
a signed word of 32 bits, and is one in regions of up to `2 ^ 31` bytes. -/
structure Storage where
  region : Region
  offset : Int
deriving DecidableEq, Repr

def Storage.text (s : Storage) : String := s!"({s.region.index},{s.offset})"

structure Symbol where
  kind : Symbol.Kind
  name : String
  position : Position
  -- The name of the scope that owns the symbol, empty if none does.
  scope : String
  attributes : List Symbol.Attribute
  -- Where the value is at run time, unset until a region is chosen.
  storage : Option Storage
deriving DecidableEq, Repr

namespace Symbol

def new (kind : Kind) (name : String) (p : Position) (attributes : List Attribute) : Symbol :=
  ⟨kind, name, p, "", attributes, none⟩

variable (s : Symbol)

def addAttribute (a : Attribute) : Symbol := { s with attributes := s.attributes ++ [a] }

def setStorage (st : Storage) : Symbol := { s with storage := some st }

def dataType? : Option DataType := s.attributes.findSome? Attribute.dataType?

def returnType? : Option DataType := s.attributes.findSome? Attribute.returnType?

def parameters : List Id := s.attributes.filterMap Attribute.parameter?

def isImmutable : Bool := s.attributes.contains .immutable

def isParameter : Bool := s.attributes.contains .isParameter

/-- The type of the value that reading the symbol, or calling it, yields. -/
def valueType : DataType :=
  (if s.kind.isFunction then s.returnType? else s.dataType?).getD .void

def storageText : String :=
  match s.storage with
  | some st => s!" @{st.text}"
  | none => " @unset"

def text : String :=
  s!"{s.name} <{s.kind.text}> {s.position.text}{s.storageText}" ++
    String.join (s.attributes.map fun a => s!" [{a.text}]")

end Symbol

end StackCompiler
