import StackCompiler.Yaml.Scalar

/-!
# Documents

A document is a tree of scalars, sequences and mappings. A value may have a number, by which other
places of the document refer to it.
-/

namespace StackCompiler.Yaml

inductive Node where
  -- The value with the given number stands here too.
  | reference (anchor : Nat)
  | scalar (anchor : Option Nat) (tag : Option String) (style : Style) (text : String)
  | sequence (anchor : Option Nat) (items : List Node)
  | mapping (anchor : Option Nat) (entries : List (Node × Node))

namespace Node

def empty : Node := .scalar none none .plain ""

def anchor? : Node → Option Nat
  | reference _ => none
  | scalar anchor _ _ _ | sequence anchor _ | mapping anchor _ => anchor

mutual

def values : Node → List Node
  | reference n => [reference n]
  | scalar a t style text => [scalar a t style text]
  | sequence a items => sequence a items :: itemValues items
  | mapping a entries => mapping a entries :: entryValues entries

def itemValues : List Node → List Node
  | [] => []
  | item :: items => values item ++ itemValues items

def entryValues : List (Node × Node) → List Node
  | [] => []
  | (key, value) :: entries => values key ++ values value ++ entryValues entries

end

/-- The value that is meant by a place of a document. Of several values with one number it is the
last. -/
def resolve? (document : Node) : Node → Option Node
  | reference n => document.values.reverse.find? fun v => v.anchor? = some n
  | node => some node

end Node

end StackCompiler.Yaml
