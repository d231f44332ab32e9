import StackCompiler.Compilation
import StackCompiler.Yaml.Parser

/-!
# Settings

What a build writes, and under which names. Settings that a document does not mention keep their
usual values, and what it mentions beyond them is passed over.
-/

namespace StackCompiler

structure Settings where
  listing : Bool
  listingExtension : String
  moduleExtension : String
  dumps : Dumps

namespace Settings

def default : Settings := ⟨true, "lst", "mod", .none⟩

variable (document : Yaml.Node)

def boolTag : String := "tag:yaml.org,2002:bool"

/-- A truth value. It is written plainly, or as a block that is tagged as one. -/
def bool? (value : Yaml.Node) : Option Bool := do
  match ← document.resolve? value with
  | .scalar _ tag style text =>
    if style = .plain || (style = .literal && tag = some boolTag) then
      if text ∈ ["true", "True", "TRUE"] then some true
      else if text ∈ ["false", "False", "FALSE"] then some false
      else none
    else none
  | _ => none

def text? (value : Yaml.Node) : Option String := do
  match ← document.resolve? value with
  | .scalar _ _ _ text => some text
  | _ => none

/-- The entries of a mapping, whose keys are texts. An empty value is a mapping without entries. -/
def entries? (value : Yaml.Node) : Option (List (String × Yaml.Node)) := do
  match ← document.resolve? value with
  | .mapping _ entries => entries.mapM fun e => return (← text? document e.1, e.2)
  | .scalar _ _ .plain "" => some []
  | _ => none

/-- The value of a setting, which may be given once at most and must be readable then. -/
def field {α : Type} (entries : List (String × Yaml.Node)) (key : String)
    (read : Yaml.Node → Option α) (usual : α) : Option α :=
  match entries.filter fun e => e.1 = key with
  | [] => some usual
  | [e] => read e.2
  | _ => none

def dumps? (value : Yaml.Node) : Option Dumps := do
  let entries ← entries? document value
  let tree ← field entries "dump_ast" (bool? document) false
  let symbols ← field entries "dump_symbols" (bool? document) false
  let code ← field entries "dump_code" (bool? document) false
  return ⟨tree, symbols, code⟩

def ofDocument? : Option Settings := do
  let entries ← entries? document document
  let listing ← field entries "listing" (bool? document) default.listing
  let listingExtension ←
    field entries "listing_extension" (text? document) default.listingExtension
  let moduleExtension ← field entries "module_extension" (text? document) default.moduleExtension
  let dumps ← field entries "compile" (dumps? document) default.dumps
  return ⟨listing, listingExtension, moduleExtension, dumps⟩

def read? (text : String) : Option Settings := do
  ofDocument? (← Yaml.Node.read? text)

end Settings

end StackCompiler
