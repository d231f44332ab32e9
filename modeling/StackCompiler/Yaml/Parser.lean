import StackCompiler.Yaml.Lexer
import StackCompiler.Yaml.Node

/-!
# Reading documents

Tokens are read into a document. What is written between them may be left out at many places, and
stands for an empty value there.
-/

namespace StackCompiler.Yaml

structure ParseState where
  tokens : List Token
  -- The names of values, each with the number of the value it last stood for.
  anchors : List (String × Nat)
  -- The handles of tags, with what they stand for.
  handles : List (String × String)

abbrev Parse := StateT ParseState Option

namespace Parse

def usualHandles : List (String × String) := [("!", "!"), ("!!", "tag:yaml.org,2002:")]

def peek : Parse (Option Token) := return (← get).tokens.head?

def skip : Parse Unit := modify fun r => { r with tokens := r.tokens.drop 1 }

def next : Parse (Option Token) := do
  let t ← peek
  skip
  return t

def named (name : String) : Parse Nat := do
  match (← get).anchors.lookup name with
  | some n => return n
  | none => failure

/-- Gives a name to the value that follows. Its number is that of the names known before. -/
def giveName (name : String) : Parse Nat := do
  let anchors := (← get).anchors
  let others := anchors.filter fun a => a.1 ≠ name
  modify fun r => { r with anchors := (name, anchors.length) :: others }
  return anchors.length

def fullTag (t : ShortTag) : Parse String := do
  if t.handle.isEmpty then return t.suffix
  match (← get).handles.lookup t.handle with
  | some text => return text ++ t.suffix
  | none => failure

def anchor : Parse (Option String) := do
  match ← peek with
  | some (.anchor name) => do
    skip
    return some name
  | _ => return none

def tag : Parse (Option ShortTag) := do
  match ← peek with
  | some (.tag t) => do
    skip
    return some t
  | _ => return none

/-- The number and the tag of the value that follows. They are written in any order. -/
def properties : Parse (Option Nat × Option String) := do
  let first ← anchor
  let short ← tag
  let name ← if first.isSome then pure first else anchor
  let full ← short.mapM fullTag
  let number ← name.mapM giveName
  return (number, full)

/-- An empty value, which is left out. It has to have a name or a tag. -/
def leftOut (anchor : Option Nat) (tag : Option String) : Parse Node :=
  if anchor.isNone && tag.isNone then failure else return .scalar anchor tag .plain ""

def orEmpty (stops : List Token) (value : Parse Node) : Parse Node := do
  match ← peek with
  | some t => if stops.contains t then return .empty else value
  | none => value

def afterColon (stops : List Token) (value : Parse Node) : Parse Node := do
  match ← peek with
  | some .value => do
    skip
    orEmpty stops value
  | _ => return .empty

/-- Passes over the comma before an item of a list in brackets, the first one excepted. -/
def comma (first : Bool) : Parse Unit := do
  if first then return
  match ← next with
  | some .flowEntry => return
  | _ => failure

/-- The key of an entry in a sequence in brackets. If it is left out, the next token goes with
it. -/
def pairKey (key : Parse Node) : Parse Node := do
  match ← peek with
  | some .value | some .flowEntry | some .flowSequenceEnd => do
    skip
    return .empty
  | _ => key

mutual

/-- A value. Outside of brackets it may be a block, and after a key also a sequence that is not
indented. -/
def node : Nat → Bool → Bool → Parse Node
  | 0, _, _ => failure
  | fuel + 1, block, afterKey => do
    if let some (.reference name) := ← peek then
      skip
      return .reference (← named name)
    let (anchor, tag) ← properties
    match ← peek with
    | some (.scalar style text) => do
      skip
      return .scalar anchor tag style text
    | some .flowSequenceStart => do
      skip
      return .sequence anchor (← flowItems fuel true)
    | some .flowMappingStart => do
      skip
      return .mapping anchor (← flowEntries fuel true)
    | some .blockEntry =>
      if afterKey then return .sequence anchor (← openItems fuel) else leftOut anchor tag
    | some .blockSequenceStart =>
      if block then do
        skip
        return .sequence anchor (← blockItems fuel)
      else leftOut anchor tag
    | some .blockMappingStart =>
      if block then do
        skip
        return .mapping anchor (← blockEntries fuel)
      else leftOut anchor tag
    | _ => leftOut anchor tag

def blockItems : Nat → Parse (List Node)
  | 0 => failure
  | fuel + 1 => do
    match ← next with
    | some .blockEntry => do
      let item ← orEmpty [.blockEntry, .blockEnd] (node fuel true false)
      return item :: (← blockItems fuel)
    | some .blockEnd => return []
    | _ => failure

def openItems : Nat → Parse (List Node)
  | 0 => failure
  | fuel + 1 => do
    match ← peek with
    | some .blockEntry => do
      skip
      let item ← orEmpty [.blockEntry, .key, .value, .blockEnd] (node fuel true false)
      return item :: (← openItems fuel)
    | _ => return []

def blockEntries : Nat → Parse (List (Node × Node))
  | 0 => failure
  | fuel + 1 => do
    match ← next with
    | some .key => do
      let key ← orEmpty [.key, .value, .blockEnd] (node fuel true true)
      let value ← afterColon [.key, .value, .blockEnd] (node fuel true true)
      return (key, value) :: (← blockEntries fuel)
    | some .blockEnd => return []
    | _ => failure

/-- The items of a sequence in brackets. An item with a colon is a mapping of one entry. -/
def flowItems : Nat → Bool → Parse (List Node)
  | 0, _ => failure
  | fuel + 1, first => do
    if let some .flowSequenceEnd := ← peek then
      skip
      return []
    comma first
    match ← peek with
    | some .flowSequenceEnd => do
      skip
      return []
    | some .key => do
      skip
      let key ← pairKey (node fuel false false)
      let value ← afterColon [.flowEntry, .flowSequenceEnd] (node fuel false false)
      return .mapping none [(key, value)] :: (← flowItems fuel false)
    | _ => do
      let item ← node fuel false false
      return item :: (← flowItems fuel false)

def flowEntries : Nat → Bool → Parse (List (Node × Node))
  | 0, _ => failure
  | fuel + 1, first => do
    if let some .flowMappingEnd := ← peek then
      skip
      return []
    comma first
    match ← peek with
    | some .flowMappingEnd => do
      skip
      return []
    | some .key => do
      skip
      let key ← orEmpty [.value, .flowEntry, .flowMappingEnd] (node fuel false false)
      let value ← afterColon [.flowEntry, .flowMappingEnd] (node fuel false false)
      return (key, value) :: (← flowEntries fuel false)
    | _ => do
      let key ← node fuel false false
      return (key, .empty) :: (← flowEntries fuel false)

end

/-- The directives before a document, and the handles that they declare. The format has a version,
which is given once at most, and no handle is declared twice. -/
def directives (versioned : Bool) (declared : List (String × String)) :
    List Token → Option (List (String × String) × List Token)
  | .directive (.version major minor) :: ts =>
    if versioned || major ≠ 1 || (minor ≠ 1 && minor ≠ 2) then none
    else directives true declared ts
  | .directive (.handle name text) :: ts =>
    if (declared.lookup name).isSome then none
    else directives versioned ((name, text) :: declared) ts
  | ts => some (declared, ts)

def fuel : Parse Nat := return 2 * (← get).tokens.length + 4

def content : Parse Node := do
  match ← peek with
  | none | some .documentStart | some .documentEnd | some (.directive _) => return .empty
  | _ => node (← fuel) true false

/-- A document. The first one needs no mark, unless it has directives. -/
def document : Parse Node := do
  match ← peek with
  | some .documentStart | some (.directive _) => do
    let (declared, ts) ← directives false [] (← get).tokens
    modify fun r => { r with tokens := ts, handles := declared ++ usualHandles }
    match ← next with
    | some .documentStart => content
    | _ => failure
  | none => return .empty
  | _ => node (← fuel) true false

end Parse

/-- The one document in a sequence of tokens. If there is none, it is empty. -/
def Node.ofTokens? (ts : List Token) : Option Node := do
  let (document, r) ← Parse.document.run ⟨ts, [], Parse.usualHandles⟩
  if r.tokens.all (· = .documentEnd) then some document else none

def Node.read? (text : String) : Option Node := do
  Node.ofTokens? (← tokens? (← Glyph.ofText? text))

end StackCompiler.Yaml
