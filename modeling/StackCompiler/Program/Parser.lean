import StackCompiler.Declaration.Parser
import StackCompiler.Statement.Parser
import StackCompiler.Token.Lexer

/-!
# Reading programs

A program is its globals, its functions and main, between the name of the language and its own
name on either side.
-/

namespace StackCompiler.Parser

def globalScope : String := "global"

def mainScope : String := "main"

def functionScope (name : String) : String := "__function__" ++ name

def within {α : Type} (function : Symbol.Id) (p : Parser α) : Parser α := do
  let outer := (← get).function
  modify fun s => { s with function := some function }
  let a ← p
  modify fun s => { s with function := outer }
  return a

def parameters : Parser (List Node) := do
  if ← is .rightParen then
    return []
  commaList (declaration (some .declarations) true)

def returnType : Parser DataType := do
  if ← accept (.keyword .void) then return .void else scalarType

/-- A function. It is declared before its body is read, so that it can call itself. -/
def function : Parser Node := do
  let _ ← expect (.keyword .func)
  let name ← expect .ident
  let id ← declare name (.new .function name.text name.position []) none
  createScope (functionScope name.text)
  let _ ← expect .leftParen
  let params ← parameters
  let _ ← expect .rightParen
  for param in params.filterMap Node.symbol do
    addAttribute id (.parameter param)
  separator .colon
  addAttribute id (.returnType (← returnType))
  let locals ← declarations .declarations
  let _ ← expect (.keyword .begin)
  let body ← within id block
  let _ ← expect (.keyword .endWord)
  leaveScope
  let node := Node.branch .functionDef (Node.list .paramList params) locals body
  return (node.withValue name.text).withSymbol id

def functions : Parser (Option Node) :=
  return Node.list .functions (← whileList (is (.keyword .func)) function)

def mainBody : Parser Node := do
  let _ ← expect (.keyword .main)
  createScope mainScope
  let declared ← declarations .globals
  let _ ← expect (.keyword .begin)
  let body ← block
  let _ ← expect (.keyword .endWord)
  leaveScope
  return (Node.branch .main declared none body).withValue mainScope

def program : Parser Node := do
  createScope globalScope
  let _ ← expect (.keyword .cd20)
  let name ← expect .ident
  let globals ← globals
  let functions ← functions
  let main ← mainBody
  let _ ← expect (.keyword .cd20)
  let endName ← expect .ident
  unless endName.text = name.text do
    fail endName (.endsWith endName.text name.text)
  unless ← atEnd do
    warn (← peek) .trailingInput
  leaveScope
  return (Node.branch .program (some globals) functions (some main)).withValue name.text

end StackCompiler.Parser

namespace StackCompiler

structure Parsed where
  -- The tree of the program, if it was accepted.
  root : Option Node
  scopes : Scopes
  -- What was reported. If the program was rejected, the reason comes last.
  diagnostics : List Diagnostic
  log : Log

def Parsed.remarks (p : Parsed) : List Remark := p.diagnostics.map Diagnostic.remark

/-- Reads a program from a stream. New scopes are opened inside those that are open already. -/
def parse (stream : TokenStream) (scopes : Scopes) : Parsed :=
  match Parser.program ⟨stream, scopes, #[], #[], none, 0⟩ with
  | .ok root s => ⟨some root, s.scopes, s.diagnostics.toList, s.log⟩
  | .error e s =>
    ⟨none, s.scopes, (s.diagnostics.push (.error e)).toList, s.log.push (.rejected e)⟩

def parseSource (source : String) (scopes : Scopes) : Parsed :=
  parse (.ofSource (tokensOf source)) scopes

end StackCompiler
