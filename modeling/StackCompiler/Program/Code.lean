import StackCompiler.Program.Parser
import StackCompiler.Statement.Code

/-!
# Code of programs

The code starts with main: room for all variables that live as long as the program, the values of
the named constants, the statements of main, and the end of the program. The functions follow in
the order of their definitions.
-/

namespace StackCompiler.Emitter

def addLiteral (id : Symbol.Id) (sym : Symbol) (c : Code) : Code :=
  let integer? := sym.attributes.findSome? Symbol.Attribute.integer?
  let real? := sym.attributes.findSome? Symbol.Attribute.real?
  let string? := sym.attributes.findSome? Symbol.Attribute.string?
  match integer?, real?, string? with
  | some n, _, _ => c.addInteger n id
  | none, some x, _ => c.addReal x id
  | none, none, some s => c.addString s id
  | none, none, none => c

def addLiterals : Emitter Unit :=
  modify fun s =>
    { s with code := s.scopes.constants.symbols.foldl (fun c id =>
        match s.scopes.symbol? id with
        | some sym => addLiteral id sym c
        | none => c) s.code }

/-- Whether a symbol takes up a slot of a frame in a region. Parameters are pushed by callers. -/
def takesSlot (region : Region) (s : Symbol) : Bool :=
  !s.isParameter && s.storage.map Storage.region = some region

def frameSize (s : Scopes) (scope : String) (region : Region) : Nat :=
  match s.table? scope with
  | some t => (t.symbols.filterMap s.symbol?).countP (takesSlot region)
  | none => 0

def constantCode (n : Node) : Emitter Unit := do
  let target ← symbolOf n.kind n.symbol
  let source ← childOf n.kind n.left
  emitAddress target
  value source
  emitOp .st

/-- Code of what is declared before the functions: only named constants have any. -/
def globalsCode (n : Node) : Emitter Unit := do
  if let some list := n.left then
    for item in list.items .initList do
      constantCode item

def mainCode (n : Node) : Emitter Unit := do
  enterScope Parser.mainScope
  if let some body := n.right then
    blockCode .main body
  leaveScope

def endsWithReturn (body : Option Node) : Bool :=
  match body.bind fun n => (n.items .statements).getLast? with
  | some last => last.kind = .returns
  | none => false

def functionCode (n : Node) : Emitter Unit := do
  let id ← symbolOf n.kind n.symbol
  let start ← jumpTarget (← position)
  let scope := Parser.functionScope n.valueText
  modify fun s =>
    { s with
      scopes := s.scopes.setStorage id ⟨.constants, start⟩
      log := s.log.push (.functionStarts scope start) }
  enterScope scope
  emitAlloc (frameSize (← get).scopes scope .declarations)
  if let some body := n.right then
    blockCode .function body
  unless endsWithReturn n.right do
    emitOp .retn
  leaveScope

def programCode (n : Node) : Emitter Unit := do
  unless n.kind = .program do
    misplaced n.kind .program
  enterScope Parser.globalScope
  addLiterals
  let scopes := (← get).scopes
  let slots := frameSize scopes Parser.globalScope .globals +
    frameSize scopes Parser.mainScope .globals
  modify fun s => { s with log := s.log.push (.mainFrame slots) }
  emitAlloc slots
  if let some globals := n.left then
    globalsCode globals
  mainCode (← childOf n.kind n.right)
  emitOp .halt
  if let some list := n.centre then
    for item in list.items .functions do
      functionCode item
  leaveScope

end StackCompiler.Emitter

namespace StackCompiler

structure Generated where
  code : Except Defect Code
  scopes : Scopes
  log : Log

def generate (root : Node) (scopes : Scopes) : Generated :=
  match Emitter.programCode root ⟨scopes, .empty, #[]⟩ with
  | .ok () s => ⟨.ok s.code, s.scopes, s.log⟩
  | .error d s => ⟨.error d, s.scopes, s.log⟩

end StackCompiler
