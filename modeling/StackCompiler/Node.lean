import StackCompiler.Symbol.Basic

/-!
# Program trees

A node has a kind, an optional text, an optional symbol and up to three children. What a child
stands for depends on the kind of the node; an absent part leaves its place empty. Several parts of
one sort hang in a chain that leans to the right: `list (a, list (b, c))`. A list of one item is
the item itself.
-/

namespace StackCompiler

/-- The kind of a node, with what its text, its symbol and its children are. -/
inductive Node.Kind where
  -- text: name; left: globals, centre: functions, right: main
  | program
  -- left: constants, centre: types, right: arrays
  | globals
  | functions
  -- text: scope; left: declarations, right: statements
  | main
  | initList
  -- symbol: constant; left: initialiser
  | init
  | typeList
  -- text: type name; left: length, right: element type
  | arrayDef
  -- text: type name; left: fields
  | structDef
  | structFields
  | arrayDecls
  -- text: name; symbol: variable
  | arrayDecl
  -- text: name; symbol: function; left: parameters, centre: locals, right: statements
  | functionDef
  | paramList
  | declList
  -- text: name; symbol: variable
  | decl
  -- text: name of a declared type
  | typeId
  | statements
  -- text: scope; left: assignments, centre: condition, right: body
  | forLoop
  -- text: scope; left: condition, centre: body
  | ifThen
  -- text: scope; left: condition, centre: body, right: else body
  | ifElse
  -- text: scope; left: assignments, centre: body, right: condition
  | repeatLoop
  | assignList
  -- symbol: target; left: variable, right: value; likewise the compound assignments
  | assign
  | addAssign | subAssign | mulAssign | divAssign
  -- left: variables
  | input
  | variableList
  -- left: entries
  | print
  -- left: entries
  | println
  | printList
  -- left: value
  | returns
  -- text: name; symbol: function; left: arguments
  | callStatement
  | expressionList
  -- text: name; symbol: function; left: arguments
  | call
  -- text: name; symbol: variable
  | reference
  -- text: literal; symbol: pooled constant; likewise the other literals
  | intLiteral
  | realLiteral
  | string
  | trueLiteral | falseLiteral
  -- left: operand
  | not
  -- left and right: operands, here and below
  | and
  | or | xor
  | equal | notEqual | greater | greaterEq | less | lessEq
  | add | subtract | multiply | divide | modulo | power
deriving DecidableEq, Repr

namespace Node.Kind

def all : List Kind :=
  [program, globals, functions, main, initList, init, typeList, arrayDef, structDef, structFields,
   arrayDecls, arrayDecl, functionDef, paramList, declList, decl, typeId, statements, forLoop,
   ifThen, ifElse, repeatLoop, assignList, assign, addAssign, subAssign, mulAssign, divAssign,
   input, variableList, print, println, printList, returns, callStatement, expressionList, call,
   reference, intLiteral, realLiteral, string, trueLiteral, falseLiteral, not, and, or, xor, equal,
   notEqual, greater, greaterEq, less, lessEq, add, subtract, multiply, divide, modulo, power]

def isList : Kind → Bool
  | functions | initList | typeList | structFields | arrayDecls | paramList | declList
  | statements | assignList | variableList | printList | expressionList => true
  | _ => false

def label : Kind → String
  | program => "Program"
  | globals => "Globals"
  | functions => "Functions"
  | main => "Main"
  | initList => "InitList"
  | init => "Init"
  | typeList => "TypeList"
  | arrayDef => "ArrayDef"
  | structDef => "StructDef"
  | structFields => "StructFields"
  | arrayDecls => "ArrayDecls"
  | arrayDecl => "ArrayDecl"
  | functionDef => "FunctionDef"
  | paramList => "ParamList"
  | declList => "DeclList"
  | decl => "Decl"
  | typeId => "TypeId"
  | statements => "Statements"
  | forLoop => "For"
  | ifThen => "If"
  | ifElse => "IfElse"
  | repeatLoop => "Repeat"
  | assignList => "AssignList"
  | assign => "Assign"
  | addAssign => "AddAssign"
  | subAssign => "SubAssign"
  | mulAssign => "MulAssign"
  | divAssign => "DivAssign"
  | input => "Input"
  | variableList => "VariableList"
  | print => "Print"
  | println => "Println"
  | printList => "PrintList"
  | returns => "Return"
  | callStatement => "CallStatement"
  | expressionList => "ExpressionList"
  | call => "Call"
  | reference => "Variable"
  | intLiteral => "IntLiteral"
  | realLiteral => "RealLiteral"
  | string => "String"
  | trueLiteral => "True"
  | falseLiteral => "False"
  | not => "Not"
  | and => "And"
  | or => "Or"
  | xor => "Xor"
  | equal => "Equal"
  | notEqual => "NotEqual"
  | greater => "Greater"
  | greaterEq => "GreaterEq"
  | less => "Less"
  | lessEq => "LessEq"
  | add => "Add"
  | subtract => "Subtract"
  | multiply => "Multiply"
  | divide => "Divide"
  | modulo => "Modulo"
  | power => "Power"

def ofLabel? (s : String) : Option Kind := all.find? fun k => k.label = s

theorem mem_all (k : Kind) : k ∈ all := by cases k <;> decide

end Node.Kind

inductive Node where
  | mk (kind : Node.Kind) (value : Option String) (symbol : Option Symbol.Id)
      (left centre right : Option Node)
deriving Repr

namespace Node

mutual

def decideEq : (a b : Node) → Decidable (a = b)
  | mk k v s l c r, mk k' v' s' l' c' r' =>
    haveI := decideEqChild l l'
    haveI := decideEqChild c c'
    haveI := decideEqChild r r'
    decidable_of_iff (k = k' ∧ v = v' ∧ s = s' ∧ l = l' ∧ c = c' ∧ r = r') (by simp)

def decideEqChild : (a b : Option Node) → Decidable (a = b)
  | none, none => isTrue rfl
  | some a, some b =>
    haveI := decideEq a b
    decidable_of_iff (a = b) (by simp)
  | none, some _ => isFalse nofun
  | some _, none => isFalse nofun

end

instance : DecidableEq Node := decideEq

def kind : Node → Kind
  | mk k .. => k

def value : Node → Option String
  | mk _ v .. => v

def symbol : Node → Option Symbol.Id
  | mk _ _ s .. => s

def left : Node → Option Node
  | mk _ _ _ l _ _ => l

def centre : Node → Option Node
  | mk _ _ _ _ c _ => c

def right : Node → Option Node
  | mk _ _ _ _ _ r => r

/-! ## Building -/

def branch (k : Kind) (left centre right : Option Node) : Node := mk k none none left centre right

def leaf (k : Kind) : Node := branch k none none none

def unary (k : Kind) (child : Node) : Node := branch k (some child) none none

def binary (k : Kind) (left right : Node) : Node := branch k (some left) none (some right)

def withValue (v : String) : Node → Node
  | mk k _ s l c r => mk k (some v) s l c r

def withSymbol (id : Symbol.Id) : Node → Node
  | mk k v _ l c r => mk k v (some id) l c r

/-- A chain of items, the first given apart and the others in reverse. -/
def chainOnto (k : Kind) (last : Node) : List Node → Node
  | [] => last
  | item :: before => chainOnto k (binary k item last) before

def list (k : Kind) (items : List Node) : Option Node :=
  match items.reverse with
  | [] => none
  | last :: before => some (chainOnto k last before)

def valueText (n : Node) : String := n.value.getD ""

def children (n : Node) : List Node := n.left.toList ++ n.centre.toList ++ n.right.toList

/-- The items of a chain of the given kind. A node of any other kind is a list of one. -/
def items (k : Kind) : Node → List Node
  | mk kind v s l c r =>
    if kind = k then
      match r with
      | some rest => l.toList ++ rest.items k
      | none => l.toList
    else [mk kind v s l c r]

/-! ## Dumps -/

def line (k : Kind) (v : Option String) (s : Option Symbol.Id) : String :=
  let value := (v.map fun t => " " ++ Text.quote t).getD ""
  let symbol := (s.map fun id => " " ++ Symbol.idText id).getD ""
  k.label ++ value ++ symbol ++ "\n"

/-- Appends to `acc` the dump of a tree that stands `depth` levels deep. -/
def write (depth : Nat) (acc : String) : Node → String
  | mk k v s l c r =>
    let acc := acc ++ String.ofList (List.replicate (2 * depth) ' ') ++ line k v s
    let acc := match l with
      | some n => n.write (depth + 1) acc
      | none => acc
    let acc := match c with
      | some n => n.write (depth + 1) acc
      | none => acc
    match r with
    | some n => n.write (depth + 1) acc
    | none => acc

def text (n : Node) : String := n.write 0 ""

end Node

end StackCompiler
