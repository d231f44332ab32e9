/-!
# Characters in place

A document is a sequence of characters, each with its place. The end of a line is one character,
however it was written.
-/

namespace StackCompiler.Yaml

structure Glyph where
  char : Char
  index : Nat
  line : Nat
  column : Nat
deriving DecidableEq, Repr

namespace Glyph

/-- Whether a document may hold `c`. Of the controls, only tabs and line ends are allowed. -/
def isAllowed (c : Char) : Bool :=
  c = '\t' || c = '\n' || c = '\r' || c = '\u0085' || (0x20 ≤ c.toNat && c.toNat ≤ 0x7e) ||
    (0xa0 ≤ c.toNat && c.toNat ≤ 0xfffd) || 0x10000 ≤ c.toNat

/-- The characters of a text that starts at the given place. Both separators of Unicode end a line
and stay what they are; all other line ends become a newline. -/
def place (index line column : Nat) : List Char → List Glyph
  | [] => []
  | '\r' :: '\n' :: cs => ⟨'\n', index, line, column⟩ :: place (index + 2) (line + 1) 0 cs
  | c :: cs =>
    if c = '\r' ∨ c = '\n' ∨ c = '\u0085' then
      ⟨'\n', index, line, column⟩ :: place (index + 1) (line + 1) 0 cs
    else if c = '\u2028' ∨ c = '\u2029' then
      ⟨c, index, line, column⟩ :: place (index + 1) (line + 1) 0 cs
    else ⟨c, index, line, column⟩ :: place (index + 1) line (column + 1) cs

def ofText? (text : String) : Option (List Glyph) :=
  if text.toList.all isAllowed then some (place 0 0 0 text.toList) else none

def isBlank (g : Glyph) : Bool := g.char = ' ' || g.char = '\t'

def isBreak (g : Glyph) : Bool := g.char = '\n' || g.char = '\u2028' || g.char = '\u2029'

end Glyph

def endsWord : List Glyph → Bool
  | [] => true
  | g :: _ => g.isBlank || g.isBreak

def startsWith (cs : String) : List Glyph → Bool
  | [] => false
  | g :: _ => cs.toList.contains g.char

/-- Whether a line starts with three characters `c` and nothing after them in the same word. -/
def isMark (c : Char) : List Glyph → Bool
  | x :: y :: z :: rest =>
    x.column = 0 && x.char = c && y.char = c && z.char = c && endsWord rest
  | _ => false

def isDocumentMark (gs : List Glyph) : Bool := isMark '-' gs || isMark '.' gs

/-- What follows the line, which may hold nothing more than blanks and a comment. -/
def restOfLine? (gs : List Glyph) : Option (List Glyph) :=
  let gs := gs.dropWhile Glyph.isBlank
  let gs := if startsWith "#" gs then gs.dropWhile (!·.isBreak) else gs
  match gs with
  | [] => some []
  | g :: rest => if g.isBreak then some rest else none

def hexDigit? (c : Char) : Option Nat :=
  if c.isDigit then some (c.toNat - '0'.toNat)
  else if 'a' ≤ c ∧ c ≤ 'f' then some (c.toNat - 'a'.toNat + 10)
  else if 'A' ≤ c ∧ c ≤ 'F' then some (c.toNat - 'A'.toNat + 10)
  else none

def hexNumber? (n : Nat) (gs : List Glyph) : Option Nat := do
  let digits ← (gs.take n).mapM fun g => hexDigit? g.char
  if digits.length = n then some (digits.foldl (fun v d => 16 * v + d) 0) else none

end StackCompiler.Yaml
