import StackCompiler.Yaml.Glyph

/-!
# Scalars

A scalar is a text, written plainly, between quotes, or as a block of lines. Line ends in the first
two ways of writing are folded: one becomes a space, and of several the first is dropped.
-/

namespace StackCompiler.Yaml

inductive Style where
  | plain
  | singleQuoted
  | doubleQuoted
  | literal
  | folded
deriving DecidableEq, Repr

inductive Gap where
  -- Blanks on a line, which may be none.
  | blanks (cs : List Char)
  -- The end of a line, and the ends of empty lines after it.
  | lines (first others : List Char)
deriving DecidableEq, Repr

namespace Gap

def none : Gap := .blanks []

def isLines : Gap → Bool
  | blanks _ => false
  | lines _ _ => true

/-- The gap with a blank more. Blanks around line ends do not count. -/
def addBlank (c : Char) : Gap → Gap
  | blanks cs => blanks (cs ++ [c])
  | lines first others => lines first others

def addBreak (c : Char) : Gap → Gap
  | blanks _ => lines [c] []
  | lines first others => lines first (others ++ [c])

def text : Gap → List Char
  | blanks cs => cs
  | lines first others =>
    if first = ['\n'] then if others = [] then [' '] else others else first ++ others

def onto (gap : Gap) (text : List Char) : List Char := gap.text.reverse ++ text

end Gap

structure Plain where
  text : String
  -- Whether the scalar ended with a line.
  endsLine : Bool
  rest : List Glyph

/-- The plain scalar with the words `text`, in reverse, after which a gap has been read. -/
def Plain.ending (text : List Char) (gap : Gap) (rest : List Glyph) : Plain :=
  ⟨String.ofList text.reverse, gap.isLines, rest⟩

/-- Reads on in a plain scalar after the words `text`, in reverse, and a gap. Outside of brackets,
further lines start at the column `indent` or after it. -/
def plainFrom (flow : Bool) (indent : Int) (text : List Char) (gap : Gap) :
    List Glyph → Option Plain
  | [] => some (.ending text gap [])
  | g :: rest =>
    if g.isBlank then
      if gap.isLines && g.char = '\t' && g.column < indent then none
      else plainFrom flow indent text (gap.addBlank g.char) rest
    else if g.isBreak then plainFrom flow indent text (gap.addBreak g.char) rest
    else if gap ≠ .none && ((!flow && g.column < indent) || isDocumentMark (g :: rest) ||
        g.char = '#') then some (.ending text gap (g :: rest))
    else if flow && g.char = ':' && startsWith ",?[]\x7b\x7d" rest then none
    else if (g.char = ':' && endsWord rest) || (flow && startsWith ",[]\x7b\x7d" (g :: rest)) then
      some (.ending text gap (g :: rest))
    else plainFrom flow indent (g.char :: gap.onto text) .none rest

def plain? (flow : Bool) (indent : Int) (gs : List Glyph) : Option Plain :=
  plainFrom flow indent [] .none gs

def letterEscapes : List (Char × Char) :=
  [('0', '\x00'), ('a', '\x07'), ('b', '\x08'), ('t', '\t'), ('\t', '\t'), ('n', '\n'),
   ('v', '\x0b'), ('f', '\x0c'), ('r', '\r'), ('e', '\x1b'), (' ', ' '), ('"', '"'), ('/', '/'),
   ('\\', '\\'), ('N', '\u0085'), ('_', '\u00a0'), ('L', '\u2028'), ('P', '\u2029')]

def codeEscapes : List (Char × Nat) := [('x', 2), ('u', 4), ('U', 8)]

/-- The character that an escape stands for, with the length of what follows the backslash. -/
def escape? : List Glyph → Option (Char × Nat)
  | [] => none
  | g :: rest =>
    match letterEscapes.lookup g.char with
    | some c => some (c, 1)
    | none => do
      let digits ← codeEscapes.lookup g.char
      let code ← hexNumber? digits rest
      if code.isValidChar then some (Char.ofNat code, digits + 1) else none

/-- Reads on in a quoted scalar, up to its quote. In double quotes a backslash escapes the
characters after it, or the end of its line; in single quotes a quote is written twice. -/
def quotedFrom (quote : Char) (text : List Char) (gap : Gap) (gs : List Glyph) :
    Option (String × List Glyph) :=
  match gs with
  | [] => none
  | g :: rest =>
    if g.isBlank then quotedFrom quote text (gap.addBlank g.char) rest
    else if g.isBreak then quotedFrom quote text (gap.addBreak g.char) rest
    else if isDocumentMark (g :: rest) then none
    else if g.char = quote then
      if quote = '\'' && startsWith "'" rest then
        quotedFrom quote ('\'' :: gap.onto text) .none (rest.drop 1)
      else some (String.ofList (gap.onto text).reverse, rest)
    else if quote = '"' && g.char = '\\' then
      if rest.head?.any Glyph.isBreak then
        quotedFrom quote (gap.onto text) (.lines [] []) (rest.drop 1)
      else
        match escape? rest with
        | some (c, n) => quotedFrom quote (c :: gap.onto text) .none (rest.drop n)
        | none => none
    else quotedFrom quote (g.char :: gap.onto text) .none rest
termination_by gs.length
decreasing_by all_goals simp; try omega

def quoted? (quote : Char) (gs : List Glyph) : Option (String × List Glyph) :=
  quotedFrom quote [] .none gs

inductive Chomping where
  -- The last line keeps its end.
  | clip
  -- No line end is kept.
  | strip
  -- All line ends are kept.
  | keep
deriving DecidableEq, Repr

def takeChomping : List Glyph → Chomping × List Glyph
  | [] => (.clip, [])
  | g :: rest =>
    if g.char = '+' then (.keep, rest)
    else if g.char = '-' then (.strip, rest)
    else (.clip, g :: rest)

/-- The indentation that a block asks for, which is 0 if it asks for none. -/
def takeIndentation : List Glyph → Option (Nat × List Glyph)
  | [] => some (0, [])
  | g :: rest =>
    if g.char = '0' then none
    else if g.char.isDigit then some (g.char.toNat - '0'.toNat, rest)
    else some (0, g :: rest)

def takeHeader (gs : List Glyph) : Option (Chomping × Nat × List Glyph) := do
  let (chomping, afterSign) := takeChomping gs
  if chomping ≠ .clip then
    let (indentation, rest) ← takeIndentation afterSign
    return (chomping, indentation, rest)
  else
    let (indentation, afterDigit) ← takeIndentation gs
    let (chomping, rest) := takeChomping afterDigit
    return (chomping, indentation, rest)

/-- The column of the first line with text, or of the end of a line of spaces before it that is
longer. A tab cannot indent. -/
def firstColumn (widest : Nat) : List Glyph → Option Nat
  | [] => some widest
  | g :: rest =>
    if g.char = ' ' then firstColumn (max widest (g.column + 1)) rest
    else if g.char = '\t' then none
    else if g.isBreak then firstColumn widest rest
    else some widest

structure Block where
  -- The text so far, in reverse.
  text : List Char
  -- The end of the last line with text.
  lineEnd : List Char
  -- The ends of the empty lines after it.
  others : List Char
  -- Whether the last line with text starts with a blank.
  startsBlank : Bool
  -- Whether a line with text has been begun.
  inLine : Bool

namespace Block

def empty : Block := ⟨[], [], [], false, false⟩

/-- The block with the first character of a new line. Folding joins two lines by a space, or by the
empty lines between them, unless one of the two starts with a blank. -/
def startLine (folded : Bool) (g : Glyph) (b : Block) : Block :=
  let joined := folded && b.lineEnd = ['\n'] && !b.startsBlank && !g.isBlank
  let lineEnd := if !joined then b.lineEnd else if b.others = [] then [' '] else []
  ⟨g.char :: ((lineEnd ++ b.others).reverse ++ b.text), [], [], g.isBlank, true⟩

def finish (chomping : Chomping) (b : Block) : String :=
  let tail := match chomping with
    | .strip => []
    | .clip => b.lineEnd
    | .keep => b.lineEnd ++ b.others
  String.ofList (b.text.reverse ++ tail)

/-- Reads on in a block whose lines start at the column `indent`. It ends before the first line
with text that starts elsewhere. -/
def readFrom (folded : Bool) (indent : Nat) (b : Block) :
    List Glyph → Option (Block × List Glyph)
  | [] => some (b, [])
  | g :: rest =>
    if b.inLine then
      if g.isBreak then readFrom folded indent { b with lineEnd := [g.char], inLine := false } rest
      else readFrom folded indent { b with text := g.char :: b.text } rest
    else if g.column < indent && g.char = ' ' then readFrom folded indent b rest
    else if g.column < indent && g.char = '\t' then none
    else if g.isBreak then readFrom folded indent { b with others := b.others ++ [g.char] } rest
    else if g.column = indent then readFrom folded indent (b.startLine folded g) rest
    else some (b, g :: rest)

end Block

/-- The block scalar whose first character has been read, inside of a block with some indentation.
A block that asks for no indentation takes that of its first line. -/
def block? (folded : Bool) (outer : Int) (gs : List Glyph) : Option (String × List Glyph) := do
  let (chomping, indentation, rest) ← takeHeader gs
  let rest ← restOfLine? rest
  let indent ← if indentation ≠ 0 then some (outer.toNat + indentation)
    else (firstColumn 0 rest).map fun column => max column (max (outer + 1).toNat 1)
  let (b, rest) ← Block.readFrom folded indent .empty rest
  return (b.finish chomping, rest)

end StackCompiler.Yaml
