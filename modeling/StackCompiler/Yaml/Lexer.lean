import StackCompiler.Yaml.Token

/-!
# Reading tokens

Blocks are found by their indentation. A key shows itself only by the colon after it, so each token
that could start a key is kept in mind until then, and the tokens that go in front of it are put in
at the end.
-/

namespace StackCompiler.Yaml

structure Key where
  -- The number of tokens before it.
  position : Nat
  start : Glyph
  -- Whether a colon has to follow: the key stands where its block wants one.
  required : Bool

structure Lexer where
  rest : List Glyph
  tokens : Array Token
  -- Tokens found late, with the number of tokens they come after.
  late : List (Nat × List Token)
  -- The column of the innermost block, or -1 outside of all.
  indent : Int
  -- The columns of the blocks around it.
  outer : List Int
  -- Whether a key may start here without a mark.
  keyAllowed : Bool
  -- The possible keys, one for each bracket that is open and one outside of them.
  keys : List (Option Key)

namespace Lexer

def start (gs : List Glyph) : Lexer := ⟨gs, #[], [], -1, [], true, [none]⟩

variable (s : Lexer)

def inFlow : Bool := 1 < s.keys.length

def push (t : Token) (rest : List Glyph) : Lexer :=
  { s with tokens := s.tokens.push t, rest := rest }

def removeKey : Option Lexer :=
  match s.keys with
  | some key :: keys => if key.required then none else some { s with keys := none :: keys }
  | _ => some s

/-- Keeps in mind that a key may start with the token at `g`. -/
def saveKey (g : Glyph) : Option Lexer :=
  if s.keyAllowed then do
    let s ← s.removeKey
    let key := ⟨s.tokens.size, g, !s.inFlow && s.indent = g.column⟩
    return { s with keys := some key :: s.keys.drop 1 }
  else some s

/-- Gives up the keys that are too long at `g`: a key takes one line, and at most 1024
characters. -/
def dropStaleKeys (g : Glyph) : Option Lexer := do
  let keys ← s.keys.mapM fun
    | some key =>
      if key.start.line < g.line || key.start.index + 1024 < g.index then
        if key.required then none else some none
      else some (some key)
    | none => some none
  return { s with keys := keys }

/-- Starts a block at a column, if it lies deeper than the innermost one. -/
def openBlock (column : Nat) (t : Token) : Lexer :=
  if !s.inFlow && s.indent < column then
    { s with tokens := s.tokens.push t, indent := column, outer := s.indent :: s.outer }
  else s

/-- Ends the blocks that lie deeper than a column: the innermost one at `indent`, then the outer
ones. -/
def closeBlocksFrom (column : Int) (tokens : Array Token) (indent : Int) :
    List Int → Array Token × Int × List Int
  | [] => (tokens, indent, [])
  | next :: outer =>
    if indent ≤ column then (tokens, indent, next :: outer)
    else closeBlocksFrom column (tokens.push .blockEnd) next outer

def closeBlocks (column : Int) : Lexer :=
  if s.inFlow then s
  else
    let (tokens, indent, outer) := closeBlocksFrom column s.tokens s.indent s.outer
    { s with tokens := tokens, indent := indent, outer := outer }

/-- Passes over blanks, comments and line ends. A tab does not count as a blank where a key may
start. After a line end one may, if no bracket is open. -/
def skipFrom (flow keyAllowed comment : Bool) : List Glyph → Bool × List Glyph
  | [] => (keyAllowed, [])
  | g :: rest =>
    if g.isBreak then skipFrom flow (keyAllowed || !flow) false rest
    else if comment || g.char = '#' then skipFrom flow keyAllowed true rest
    else if g.char = ' ' || (g.char = '\t' && (flow || !keyAllowed)) ||
        (g.char = '\ufeff' && g.column = 0) then skipFrom flow keyAllowed false rest
    else (keyAllowed, g :: rest)

def directive (after : List Glyph) : Option Lexer := do
  let s ← (s.closeBlocks (-1)).removeKey
  let (d, rest) ← directive? after
  return { s with keyAllowed := false }.push (.directive d) rest

def documentMark (t : Token) (after : List Glyph) : Option Lexer := do
  let s ← (s.closeBlocks (-1)).removeKey
  return { s with keyAllowed := false }.push t (after.drop 2)

def openBracket (t : Token) (g : Glyph) (after : List Glyph) : Option Lexer := do
  let s ← s.saveKey g
  return { s with keys := none :: s.keys, keyAllowed := true }.push t after

def closeBracket (t : Token) (after : List Glyph) : Option Lexer := do
  let s ← s.removeKey
  let keys := if s.inFlow then s.keys.drop 1 else s.keys
  return { s with keys := keys, keyAllowed := false }.push t after

def flowEntry (after : List Glyph) : Option Lexer := do
  let s ← s.removeKey
  return { s with keyAllowed := true }.push .flowEntry after

def blockEntry (g : Glyph) (after : List Glyph) : Option Lexer := do
  if !s.inFlow && !s.keyAllowed then none
  else
    let s ← (s.openBlock g.column .blockSequenceStart).removeKey
    return { s with keyAllowed := true }.push .blockEntry after

def markedKey (g : Glyph) (after : List Glyph) : Option Lexer := do
  if !s.inFlow && !s.keyAllowed then none
  else
    let s ← (s.openBlock g.column .blockMappingStart).removeKey
    return { s with keyAllowed := !s.inFlow }.push .key after

/-- A colon. It makes a key of the token kept in mind, if there is one. -/
def value (g : Glyph) (after : List Glyph) : Option Lexer :=
  match s.keys with
  | some key :: keys =>
    let s : Lexer := { s with keys := none :: keys, keyAllowed := false }
    if !s.inFlow && s.indent < (key.start.column : Int) then
      let late := (key.position, [Token.blockMappingStart, Token.key]) :: s.late
      let outer := s.indent :: s.outer
      some ({ s with late := late, indent := key.start.column, outer := outer }.push .value after)
    else some ({ s with late := (key.position, [.key]) :: s.late }.push .value after)
  | _ =>
    if !s.inFlow && !s.keyAllowed then none
    else
      let s := s.openBlock g.column .blockMappingStart
      some ({ s with keyAllowed := !s.inFlow }.push .value after)

def anchor (t : String → Token) (g : Glyph) (after : List Glyph) : Option Lexer := do
  let s ← s.saveKey g
  let (name, rest) ← anchorName? after
  return { s with keyAllowed := false }.push (t name) rest

def tag (g : Glyph) (after : List Glyph) : Option Lexer := do
  let s ← s.saveKey g
  let (t, rest) ← tag? s.inFlow (g :: after)
  return { s with keyAllowed := false }.push (.tag t) rest

def blockScalar (style : Style) (after : List Glyph) : Option Lexer := do
  let s ← s.removeKey
  let (text, rest) ← block? (style = .folded) s.indent after
  return { s with keyAllowed := true }.push (.scalar style text) rest

def quotedScalar (style : Style) (g : Glyph) (after : List Glyph) : Option Lexer := do
  let s ← s.saveKey g
  let (text, rest) ← quoted? g.char after
  return { s with keyAllowed := false }.push (.scalar style text) rest

def plainScalar (g : Glyph) (after : List Glyph) : Option Lexer := do
  let s ← s.saveKey g
  let p ← plain? s.inFlow (s.indent + 1) (g :: after)
  return { s with keyAllowed := p.endsLine }.push (.scalar .plain p.text) p.rest

def startsPlain (g : Glyph) (after : List Glyph) : Bool :=
  if g.isBlank || g.isBreak then false
  else if g.char = '-' then !after.head?.any Glyph.isBlank
  else if g.char = '?' || g.char = ':' then !s.inFlow && !endsWord after
  else !startsWith ",[]\x7b\x7d#&*!|>'\"%@\x60" [g]

def token (g : Glyph) (after : List Glyph) : Option Lexer :=
  let mark := s.inFlow || endsWord after
  if g.column = 0 && g.char = '%' then s.directive after
  else if isMark '-' (g :: after) then s.documentMark .documentStart after
  else if isMark '.' (g :: after) then s.documentMark .documentEnd after
  else match g.char with
    | '[' => s.openBracket .flowSequenceStart g after
    | '\x7b' => s.openBracket .flowMappingStart g after
    | ']' => s.closeBracket .flowSequenceEnd after
    | '\x7d' => s.closeBracket .flowMappingEnd after
    | ',' => s.flowEntry after
    | '*' => s.anchor .reference g after
    | '&' => s.anchor .anchor g after
    | '!' => s.tag g after
    | '\'' => s.quotedScalar .singleQuoted g after
    | '"' => s.quotedScalar .doubleQuoted g after
    | '|' => if s.inFlow then none else s.blockScalar .literal after
    | '>' => if s.inFlow then none else s.blockScalar .folded after
    | c =>
      if c = '-' && endsWord after then s.blockEntry g after
      else if c = '?' && mark then s.markedKey g after
      else if c = ':' && mark then s.value g after
      else if s.startsPlain g after then s.plainScalar g after
      else none

/-- Reads to the end. Each token takes a character at least, so that many steps are enough. -/
def readAll : Nat → Lexer → Option Lexer
  | 0, _ => none
  | fuel + 1, s => do
    let (keyAllowed, rest) := skipFrom s.inFlow s.keyAllowed false s.rest
    let s := { s with keyAllowed := keyAllowed, rest := rest }
    match rest with
    | [] => (s.closeBlocks (-1)).removeKey
    | g :: after =>
      let s ← s.dropStaleKeys g
      readAll fuel (← (s.closeBlocks g.column).token g after)

def inOrder : List Token :=
  (s.tokens.toList.zipIdx.flatMap fun (t, n) => ((s.late.lookup n).getD []) ++ [t])

end Lexer

def tokens? (gs : List Glyph) : Option (List Token) :=
  ((Lexer.start gs).readAll (gs.length + 1)).map Lexer.inOrder

end StackCompiler.Yaml
