/-!
# Positions in a source text
-/

namespace StackCompiler

/-- A place in a source text. Lines and columns count from 1, columns in characters. Both stand
for words of 32 bits, and are such words in a text of fewer than `2 ^ 32` bytes. -/
structure Position where
  line : Nat
  column : Nat
deriving DecidableEq, Repr

namespace Position

def start : Position := ⟨1, 1⟩

def next (p : Position) (c : Char) : Position :=
  if c = '\n' then ⟨p.line + 1, 1⟩ else ⟨p.line, p.column + 1⟩

def after (p : Position) (cs : List Char) : Position := cs.foldl next p

def text (p : Position) : String := s!"{p.line}:{p.column}"

end Position

end StackCompiler
