import Std.Data.TreeMap
import StackCompiler.Symbol.Basic

/-!
# The symbols of one scope

A table finds symbols by name and lists them in the order in which their names were first used.
-/

namespace StackCompiler

/-- The symbols of a scope, by name and in order of first insertion. -/
structure SymbolTable where
  scope : String
  names : Std.TreeMap String Symbol.Id
  order : Array Symbol.Id

namespace SymbolTable

def empty (scope : String) : SymbolTable := ⟨scope, {}, #[]⟩

variable (t : SymbolTable)

def resolve (name : String) : Option Symbol.Id := t.names[name]?

def contains (name : String) : Bool := t.names.contains name

def replaceFirst (old new : Symbol.Id) (ids : Array Symbol.Id) : Array Symbol.Id :=
  match ids.idxOf? old with
  | some i => ids.setIfInBounds i new
  | none => ids

/-- Binds `name` to `id`. A name that was bound before keeps its place in the order. -/
def insert (name : String) (id : Symbol.Id) : SymbolTable :=
  match t.resolve name with
  | some old =>
    { t with names := t.names.insert name id, order := replaceFirst old id t.order }
  | none => { t with names := t.names.insert name id, order := t.order.push id }

def symbols : List Symbol.Id := t.order.toList

def size : Nat := t.order.size

def isEmpty : Bool := t.order.isEmpty

end SymbolTable

end StackCompiler
