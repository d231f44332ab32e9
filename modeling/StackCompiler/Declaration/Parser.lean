import StackCompiler.Expression.Parser

/-!
# Reading declarations

Named constants, types, arrays and variables. A named constant and a variable of main live as long
as the program; parameters and locals live in the frame of their function; types, fields and arrays
take up no memory.
-/

namespace StackCompiler.Parser

def scalarType : Parser DataType := do
  let t ← peek
  match t.kind with
  | .keyword .int =>
    let _ ← advance
    return .int
  | .keyword .real =>
    let _ ← advance
    return .real
  | .keyword .bool =>
    let _ ← advance
    return .bool
  | .ident => fail t (.declaredTypeHere t.text)
  | _ => unexpected "'int', 'real' or 'bool'"

def declaration (region : Option Region) (isParameter : Bool) : Parser Node := do
  let t ← expect .ident
  separator .colon
  let type ← scalarType
  let attributes := if isParameter then [.dataType type, .isParameter] else [.dataType type]
  let id ← declare t (.new (.variableOf type) t.text t.position attributes) region
  return ((Node.leaf .decl).withValue t.text).withSymbol id

def declarations (region : Region) : Parser (Option Node) := do
  if ← is .ident then
    return Node.list .declList (← commaList (declaration (some region) false))
  return none

def constant : Parser Node := do
  let t ← expect .ident
  checkFresh t
  let _ ← expect .assign
  let value ← sumExpression
  let type ← typeOf value
  let sym := Symbol.new (.constantOf type) t.text t.position [.dataType type, .immutable]
  let id ← declare t sym (some .globals)
  return ((Node.unary .init value).withValue t.text).withSymbol id

def constants : Parser (Option Node) := return Node.list .initList (← commaList constant)

def namesType (p : DataType → Bool) (id : Symbol.Id) : Parser Bool := do
  match ← symbol? id with
  | some s => return s.kind = .typeName && (s.dataType?.map p).getD false
  | none => return false

/-- An array type. Everything up to the length has been consumed. -/
def arrayType (name : Token) : Parser Node := do
  let _ ← expect .leftBracket
  let first ← peek
  let length ← sumExpression
  unless (← typeOf length) = .int do
    fail first .lengthNotInteger
  let _ ← expect .rightBracket
  let _ ← expect (.keyword .of)
  let element ← expect .ident
  match ← resolve element.text with
  | none => fail element (.undefinedStruct element.text)
  | some elementId =>
    unless ← namesType DataType.isStruct elementId do
      fail element (.undefinedStruct element.text)
    let sym := Symbol.new .typeName name.text name.position [.dataType (.array name.text)]
    let id ← declare name sym none
    let elementType := ((Node.leaf .typeId).withValue element.text).withSymbol elementId
    let node := Node.branch .arrayDef (some length) none (some elementType)
    return (node.withValue name.text).withSymbol id

/-- A record type. Its fields have a scope of their own, so they cannot clash with other names. -/
def recordType (name : Token) : Parser Node := do
  let sym := Symbol.new .typeName name.text name.position [.dataType (.struct name.text)]
  let id ← declare name sym none
  createScope ("__struct__" ++ name.text)
  let fields ← commaList (declaration none false)
  let _ ← expect (.keyword .endWord)
  leaveScope
  let node := Node.branch .structDef (Node.list .structFields fields) none none
  return (node.withValue name.text).withSymbol id

def typeDefinition : Parser Node := do
  let name ← expect .ident
  let _ ← expect (.keyword .is)
  if ← accept (.keyword .array) then arrayType name else recordType name

def typeDefinitions : Parser (Option Node) := do
  let first ← typeDefinition
  let others ← whileList (is .ident) typeDefinition
  return Node.list .typeList (first :: others)

def arrayDeclaration : Parser Node := do
  let t ← expect .ident
  separator .colon
  let type ← expect .ident
  let isArray ← match ← resolve type.text with
    | some id => namesType DataType.isArray id
    | none => pure false
  unless isArray do
    fail type (.undefinedArray type.text)
  let sym :=
    Symbol.new .structOrArrayVariable t.text t.position [.dataType (.array type.text)]
  let id ← declare t sym none
  return ((Node.leaf .arrayDecl).withValue t.text).withSymbol id

def arrayDeclarations : Parser (Option Node) :=
  return Node.list .arrayDecls (← commaList arrayDeclaration)

def introduced (k : Keyword) (p : Parser (Option Node)) : Parser (Option Node) := do
  if ← accept (.keyword k) then p else return none

def globals : Parser Node := do
  let constants ← introduced .constants constants
  let types ← introduced .types typeDefinitions
  let arrays ← introduced .arrays arrayDeclarations
  return .branch .globals constants types arrays

end StackCompiler.Parser
