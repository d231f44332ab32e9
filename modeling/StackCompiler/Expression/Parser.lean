import StackCompiler.Binary64.Reading
import StackCompiler.Parser.Basic

/-!
# Reading expressions

From the weakest to the strongest binding: `and`, `or` and `xor`; one relation, which `not` may
precede; sums; products; powers, which associate to the right; and literals, variables, calls and
expressions in parentheses.

Every node is bound to a symbol that has the type of its value, so that types are checked as soon
as both operands are there.
-/

namespace StackCompiler.Parser

def maxDepth : Nat := 64

def grouped {α : Type} (p : Parser α) : Parser α := fun s =>
  match p { s with depth := s.depth + 1 } with
  | .ok a s => .ok a { s with depth := s.depth - 1 }
  | .error e s => .error e { s with depth := s.depth - 1 }

def checkBoolean (n : Node) (t : Token) : Parser Unit := do
  let type ← typeOf n
  unless type.isBoolean do
    fail t (.notBoolean type)

def logical (k : Node.Kind) (left right : Node) (first next op : Token) : Parser Node := do
  checkBoolean left first
  checkBoolean right next
  typed (.binary k left right) .bool op

def arithmetic (k : Node.Kind) (left right : Node) (first next op : Token) : Parser Node := do
  let leftType ← typeOf left
  let rightType ← typeOf right
  unless leftType.isNumeric do
    fail first (.notNumeric leftType)
  unless rightType.isNumeric do
    fail next (.notNumeric rightType)
  typed (.binary k left right) (leftType.join rightType) op

/-- Whether values of two types can stand on the sides of a relation. Equality is for booleans
too. -/
def comparable (k : Node.Kind) (left right : DataType) : Bool :=
  left.isNumeric && right.isNumeric ||
    (k = .equal || k = .notEqual) && left.isBoolean && right.isBoolean

def compare (k : Node.Kind) (left right : Node) (op : Token) : Parser Node := do
  let leftType ← typeOf left
  let rightType ← typeOf right
  unless comparable k leftType rightType do
    fail op (.incomparable leftType rightType)
  typed (.binary k left right) .bool op

def logicalOperator? : Token.Kind → Option Node.Kind
  | .keyword .and => some .and
  | .keyword .or => some .or
  | .keyword .xor => some .xor
  | _ => none

def relationOperator? : Token.Kind → Option Node.Kind
  | .eqEq => some .equal
  | .notEq => some .notEqual
  | .greater => some .greater
  | .greaterEq => some .greaterEq
  | .less => some .less
  | .lessEq => some .lessEq
  | _ => none

def sumOperator? : Token.Kind → Option Node.Kind
  | .plus => some .add
  | .minus => some .subtract
  | _ => none

def productOperator? : Token.Kind → Option Node.Kind
  | .star => some .multiply
  | .slash => some .divide
  | .percent => some .modulo
  | _ => none

/-! ## Operands -/

/-- A variable or a named constant. Its name has been consumed. -/
def variableNamed (name : Token) : Parser Node := do
  if ← is .leftBracket then
    fail name .elementAccess
  match ← resolve name.text with
  | none => fail name (.undefinedIdentifier name.text)
  | some id =>
    match (← symbol? id).map Symbol.kind with
    | some .function => fail name (.functionAsVariable name.text)
    | some .typeName => fail name (.typeAsVariable name.text)
    | some .structOrArrayVariable => fail name (.arrayAsValue name.text)
    | _ => return ((Node.leaf .reference).withValue name.text).withSymbol id

def checkArguments : List (Token × Node) → List Symbol.Id → Parser Unit
  | (t, arg) :: args, id :: params => do
    let param ← symbol? id
    let declared := (param.bind Symbol.dataType?).getD .void
    let given ← typeOf arg
    unless given.assignableTo declared do
      fail t (.argumentType given ((param.map Symbol.name).getD "") declared)
    checkArguments args params
  | _, _ => return

section Operands

variable (expression : Parser Node)

/-- The arguments of a call, each with its first token. The parenthesis before them is consumed. -/
def arguments : Parser (List (Token × Node)) := do
  if ← is .rightParen then
    return []
  commaList do
    let t ← peek
    return (t, ← expression)

def callNamed (name : Token) (kind : Node.Kind) : Parser Node := do
  match ← resolve name.text with
  | none => fail name (.undefinedFunction name.text)
  | some function =>
    unless ((← symbol? function).map fun s => s.kind.isFunction).getD false do
      fail name (.notFunction name.text)
    let _ ← expect .leftParen
    let args ← arguments expression
    let _ ← expect .rightParen
    let params := ((← symbol? function).map Symbol.parameters).getD []
    unless params.length = args.length do
      fail name (.argumentCount name.text params.length args.length)
    checkArguments args params
    let list := Node.list .expressionList (args.map Prod.snd)
    return ((Node.branch kind list none none).withValue name.text).withSymbol function

def named (name : Token) : Parser Node := do
  if ← is .leftParen then
    let node ← callNamed expression name .call
    if (← typeOf node).isVoid then
      fail name (.noValue name.text)
    return node
  variableNamed name

def integerLiteral (t : Token) (literal : String) : Parser Node := do
  match Text.readWord? literal with
  | none => fail t (.integerOutOfRange literal)
  | some n =>
    let id ← intern literal t .intConstant .int (.integerConstant n)
    return ((Node.leaf .intLiteral).withValue literal).withSymbol id

def realLiteral (t : Token) (literal : String) : Parser Node := do
  match Binary64.read? literal with
  | none => fail t (.invalidReal literal)
  | some x =>
    let id ← intern literal t .realConstant .real (.realConstant x)
    return ((Node.leaf .realLiteral).withValue literal).withSymbol id

def operand (t : Token) : Parser Node := do
  match t.kind with
  | .keyword .trueWord =>
    let _ ← advance
    typed (.leaf .trueLiteral) .bool t
  | .keyword .falseWord =>
    let _ ← advance
    typed (.leaf .falseLiteral) .bool t
  | .leftParen =>
    if (← get).depth ≥ maxDepth then
      fail t (.nestedTooDeep maxDepth)
    let _ ← advance
    let inner ← grouped expression
    let _ ← expect .rightParen
    return inner
  | .ident =>
    let name ← advance
    named expression name
  | _ => unexpected "an expression"

/-- An operand. A minus sign belongs to a number that follows it, and is ignored before anything
else. -/
def primary : Parser Node := do
  let negative ← accept .minus
  let t ← peek
  let literal := if negative then "-" ++ t.text else t.text
  match t.kind with
  | .integer =>
    let _ ← advance
    integerLiteral t literal
  | .real =>
    let _ ← advance
    realLiteral t literal
  | _ =>
    if negative then
      warn t (.cannotNegate t)
    operand expression t

end Operands

/-! ## Levels -/

section Levels

variable (expression : Parser Node)

def power : Parser Node :=
  fix fun power => do
    let first ← peek
    let base ← primary expression
    if ← is .caret then
      let op ← advance
      let next ← peek
      let exponent ← power
      arithmetic .power base exponent first next op
    else
      return base

def product : Parser Node := leftChain (power expression) productOperator? arithmetic

def sum : Parser Node := leftChain (product expression) sumOperator? arithmetic

def relation : Parser Node := do
  let negation ← if ← is (.keyword .not) then some <$> advance else pure none
  let first ← peek
  let left ← sum expression
  let node ← match relationOperator? (← peek).kind with
    | some k => do
      let op ← advance
      let right ← sum expression
      compare k left right op
    | none => pure left
  match negation with
  | some t =>
    checkBoolean node first
    typed (.unary .not node) .bool t
  | none => return node

def logicalChain : Parser Node := leftChain (relation expression) logicalOperator? logical

end Levels

def expression : Parser Node := fix logicalChain

/-- An expression without relations and logical operators, unless in parentheses. -/
def sumExpression : Parser Node := sum expression

end StackCompiler.Parser
