import StackCompiler.Expression.Parser

/-!
# Reading statements

Loops and conditionals open a scope of their own and end with a keyword; all other statements end
with a semicolon.
-/

namespace StackCompiler.Parser

def atBlockEnd : Parser Bool := do
  let k := (← peek).kind
  return k = .keyword .endWord || k = .keyword .elseWord || k = .keyword .untilWord

/-! ## Statements without a block -/

def condition : Parser Node := do
  let t ← peek
  let node ← expression
  let type ← typeOf node
  unless type.isBoolean do
    fail t (.conditionNotBoolean type)
  return node

def assignOperator? : Token.Kind → Option Node.Kind
  | .assign => some .assign
  | .plusEq => some .addAssign
  | .minusEq => some .subAssign
  | .starEq => some .mulAssign
  | .slashEq => some .divAssign
  | _ => none

def isImmutable (id : Symbol.Id) : Parser Bool :=
  return ((← symbol? id).map Symbol.isImmutable).getD false

/-- An assignment to the variable with the given name, which has been consumed. -/
def assignmentTo (name : Token) : Parser Node := do
  let target ← variableNamed name
  let op ← peek
  match assignOperator? op.kind, target.symbol with
  | none, _ => unexpected "an assignment operator"
  | some _, none => fail name (.undefinedIdentifier name.text)
  | some k, some id =>
    let _ ← advance
    if ← isImmutable id then
      fail name (.assignToConstant name.text)
    let t ← peek
    let value ← expression
    let targetType ← typeOf target
    let valueType ← typeOf value
    unless k = .assign || targetType.isNumeric && valueType.isNumeric do
      fail op (.compoundNotNumeric targetType valueType)
    unless valueType.assignableTo targetType do
      fail t (.cannotAssign valueType targetType name.text)
    return (Node.binary k target value).withSymbol id

def assignments : Parser (Option Node) := do
  let items ← commaList do assignmentTo (← expect .ident)
  return Node.list .assignList items

def inputTarget : Parser Node := do
  let name ← expect .ident
  let node ← variableNamed name
  if let some id := node.symbol then
    if ← isImmutable id then
      fail name (.inputToConstant name.text)
  unless (← typeOf node).isNumeric do
    fail name (.inputNotNumeric name.text)
  return node

def inputStatement : Parser Node := do
  let _ ← expect (.keyword .input)
  let items ← commaList inputTarget
  return .branch .input (Node.list .variableList items) none none

def printEntry : Parser Node := do
  if ← is .string then
    let t ← advance
    let id ← intern ("\"" ++ t.text ++ "\"") t .stringConstant .string (.stringConstant t.text)
    return ((Node.leaf .string).withValue t.text).withSymbol id
  expression

def printStatement (k : Node.Kind) : Parser Node := do
  let _ ← advance
  let items ← commaList printEntry
  return .branch k (Node.list .printList items) none none

def checkReturn (t : Token) (value : Option (Token × Node)) : Parser Unit := do
  match (← get).function with
  | none =>
    if let some (first, _) := value then
      fail first .returnFromMain
  | some id =>
    let function ← symbol? id
    let name := (function.map Symbol.name).getD ""
    let declared := (function.bind Symbol.returnType?).getD .void
    match value with
    | some (first, node) =>
      if declared.isVoid then
        fail first (.returnFromVoid name)
      let type ← typeOf node
      unless type.assignableTo declared do
        fail first (.cannotReturn type name declared)
    | none =>
      unless declared.isVoid do
        fail t (.missingReturnValue name declared)

def returnStatement : Parser Node := do
  let t ← expect (.keyword .returnWord)
  let value ←
    if (← is .semicolon) || (← atBlockEnd) then pure none
    else do
      let first ← peek
      pure (some (first, ← expression))
  checkReturn t value
  return .branch .returns (value.map Prod.snd) none none

def namedStatement : Parser Node := do
  let name ← advance
  if ← is .leftParen then callNamed expression name .callStatement else assignmentTo name

/-! ## Statements with a block -/

section Blocks

variable (block : Parser (Option Node))

def forStatement : Parser Node := do
  let t ← expect (.keyword .forWord)
  let scope ← statementScope "for" t
  createScope scope
  let _ ← expect .leftParen
  let start ← if ← is .semicolon then pure none else assignments
  let _ ← expect .semicolon
  let test ← condition
  let _ ← expect .rightParen
  let body ← block
  let _ ← expect (.keyword .endWord)
  leaveScope
  return (Node.branch .forLoop start (some test) body).withValue scope

def ifStatement : Parser Node := do
  let t ← expect (.keyword .ifWord)
  let scope ← statementScope "if" t
  createScope scope
  let _ ← expect .leftParen
  let test ← condition
  let _ ← expect .rightParen
  let body ← block
  let node ←
    if ← accept (.keyword .elseWord) then do
      let otherwise ← block
      pure (Node.branch .ifElse (some test) body otherwise)
    else pure (Node.branch .ifThen (some test) body none)
  let _ ← expect (.keyword .endWord)
  leaveScope
  return node.withValue scope

def repeatStatement : Parser Node := do
  let t ← expect (.keyword .repeatWord)
  let scope ← statementScope "repeat" t
  createScope scope
  let _ ← expect .leftParen
  let start ← if ← is .rightParen then pure none else assignments
  let _ ← expect .rightParen
  let body ← block
  let _ ← expect (.keyword .untilWord)
  let test ← condition
  leaveScope
  return (Node.branch .repeatLoop start body (some test)).withValue scope

def inlineStatement : Parser Node := do
  match (← peek).kind with
  | .keyword .repeatWord => repeatStatement block
  | .keyword .input => inputStatement
  | .keyword .print => printStatement .print
  | .keyword .println => printStatement .println
  | .keyword .returnWord => returnStatement
  | .ident => namedStatement
  | _ => unexpected "a statement"

def statement : Parser Node := do
  match (← peek).kind with
  | .keyword .forWord => forStatement block
  | .keyword .ifWord => ifStatement block
  | _ =>
    let node ← inlineStatement block
    separator .semicolon
    return node

def statementList : Parser (List Node) :=
  loop (fun before => do
    let items := (← statement block) :: before
    if (← atBlockEnd) || (← atEnd) then return .inr items.reverse else return .inl items) []

end Blocks

/-- The statements of a block. There should be one at least. -/
def block : Parser (Option Node) :=
  fix fun block => do
    if ← atBlockEnd then
      warn (← peek) .emptyBlock
      return none
    return Node.list .statements (← statementList block)

end StackCompiler.Parser
