import StackCompiler.Symbol.Table

/-!
# Scopes

Every symbol of a program, in order of creation, and the scopes that give them names. Scopes are
opened and closed in stack order; a closed scope keeps its table and can be opened again by name.
Literals live in a table of their own, the constant pool, under their text.

The counters of free offsets have no limit here. Those of signed words of 32 bits are the same until
a region has `2 ^ 31` bytes.
-/

namespace StackCompiler

structure Scopes where
  -- Every symbol ever made.
  symbols : Array Symbol
  -- Every scope ever made, in order of first creation.
  tables : Array SymbolTable
  -- The index of a scope's table, by the scope's name.
  index : Std.TreeMap String Nat
  -- The open scopes, the innermost first, by the index of their tables.
  stack : List Nat
  -- The pool of literals.
  constants : SymbolTable
  -- The next free offset for a variable that lives as long as the program.
  nextGlobal : Int
  -- The next free offset for a local variable of the open scope.
  nextLocal : Int
  -- The next free offset for a parameter of the open scope.
  nextParameter : Int

namespace Scopes

def slotSize : Int := 8

def globalsBase : Int := 0

/-- The first two words of a frame hold the return address and the caller's frame. -/
def localsBase : Int := 16

/-- The caller pushes parameters, so they lie below the frame. -/
def parametersBase : Int := -8

def poolName : String := "constants"

def empty : Scopes :=
  { symbols := #[]
    tables := #[]
    index := {}
    stack := []
    constants := .empty poolName
    nextGlobal := globalsBase
    nextLocal := localsBase
    nextParameter := parametersBase }

variable (s : Scopes)

def currentTable? : Option SymbolTable := s.stack.head?.bind fun i => s.tables[i]?

def current? : Option String := s.currentTable?.map SymbolTable.scope

def openScopes : List String := s.stack.filterMap fun i => s.tables[i]?.map SymbolTable.scope

/-- Opens the scope with table `i`. Every scope starts a fresh frame. -/
def push (i : Nat) : Scopes :=
  { s with stack := i :: s.stack, nextLocal := localsBase, nextParameter := parametersBase }

/-- Makes a new, empty scope and opens it. It takes the place of a scope of the same name. -/
def create (name : String) : Scopes :=
  match s.index[name]? with
  | some i => { s with tables := s.tables.setIfInBounds i (.empty name) }.push i
  | none =>
    { s with
      tables := s.tables.push (.empty name)
      index := s.index.insert name s.tables.size }.push s.tables.size

def enter? (name : String) : Option Scopes := s.index[name]?.map s.push

def leave : Scopes := { s with stack := s.stack.tail }

def symbol? (id : Symbol.Id) : Option Symbol := s.symbols[id]?

def valueType (id : Symbol.Id) : DataType := ((s.symbol? id).map Symbol.valueType).getD .void

def modify (id : Symbol.Id) (f : Symbol → Symbol) : Scopes :=
  { s with symbols := s.symbols.modify id f }

def addAttribute (id : Symbol.Id) (a : Symbol.Attribute) : Scopes :=
  s.modify id fun sym => sym.addAttribute a

def setStorage (id : Symbol.Id) (st : Storage) : Scopes :=
  s.modify id fun sym => sym.setStorage st

/-- Hands out the next offset of a region. Parameters grow downward from the frame, locals upward.
Constants are laid out with the code, and get 0 here. -/
def allocate (region : Region) (isParameter : Bool) : Int × Scopes :=
  match region, isParameter with
  | .constants, _ => (0, s)
  | .globals, _ => (s.nextGlobal, { s with nextGlobal := s.nextGlobal + slotSize })
  | .declarations, true =>
    (s.nextParameter, { s with nextParameter := s.nextParameter - slotSize })
  | .declarations, false => (s.nextLocal, { s with nextLocal := s.nextLocal + slotSize })

def add (sym : Symbol) : Symbol.Id × Scopes :=
  (s.symbols.size, { s with symbols := s.symbols.push sym })

def bind (name : String) (id : Symbol.Id) : Scopes :=
  match s.stack with
  | i :: _ => { s with tables := s.tables.modify i fun t => t.insert name id }
  | [] => s

/-- The symbol as the innermost open scope owns it, with the next offset of its region if it is to
have one. -/
def place (sym : Symbol) : Option Region → Symbol × Scopes
  | some region =>
    let (offset, s') := s.allocate region sym.isParameter
    ({ sym with scope := s.current?.getD sym.scope, storage := some ⟨region, offset⟩ }, s')
  | none => ({ sym with scope := s.current?.getD sym.scope }, s)

/-- Adds a symbol to the innermost open scope, with storage if a region is given. -/
def declare (sym : Symbol) (region : Option Region) : Symbol.Id × Scopes :=
  let (sym, s) := s.place sym region
  let (id, s) := s.add sym
  (id, s.bind sym.name id)

def addTemporary (t : DataType) (p : Position) : Symbol.Id × Scopes :=
  s.add (.new .temporary "" p [.dataType t])

/-- The symbol a name stands for: that of the innermost open scope that has the name. -/
def resolve (name : String) : Option Symbol.Id :=
  s.stack.findSome? fun i => s.tables[i]?.bind fun t => t.resolve name

def declaresHere (name : String) : Bool :=
  (s.currentTable?.map fun t => t.contains name).getD false

def table? (name : String) : Option SymbolTable := s.index[name]?.bind fun i => s.tables[i]?

def addConstant (key : String) (sym : Symbol) : Symbol.Id × Scopes :=
  let (id, s) := s.add { sym with scope := poolName }
  (id, { s with constants := s.constants.insert key id })

def resolveConstant (key : String) : Option Symbol.Id := s.constants.resolve key

def symbolLine (id : Symbol.Id) : String :=
  "  " ++ Symbol.idText id ++ " " ++ ((s.symbol? id).map Symbol.text).getD "" ++ "\n"

def tableText (t : SymbolTable) : String :=
  "[" ++ t.scope ++ "]\n" ++ String.join (t.symbols.map s.symbolLine)

def text : String :=
  "symbol tables: " ++ toString s.tables.size ++ "\n" ++
    "current scope: " ++ s.current?.getD "<none>" ++ "\n" ++
    String.join ((s.tables.toList ++ [s.constants]).map s.tableText)

end Scopes

end StackCompiler
