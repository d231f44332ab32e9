import StackCompiler.Operation

/-!
# Sections of a module

A module is text in sections. A section is a line with a count, then as many lines.
-/

namespace StackCompiler

structure Section where
  count : Nat
  body : String
deriving DecidableEq, Repr

namespace Section

def text (s : Section) : String :=
  toString s.count ++ if s.body.isEmpty then "" else "\n" ++ s.body

def ofLines (values : List String) : Section := ⟨values.length, Text.unlines values⟩

def wordSize : Nat := 8

/-- A byte in a column of its own: at least two digits, at the right end of four places. -/
def cell (b : UInt8) : String := Text.padLeft ' ' 4 (Text.digits 2 b.toNat)

def wordLine (bytes : List UInt8) : String :=
  String.join ((bytes ++ List.replicate (wordSize - bytes.length)
    (UInt8.ofNat Operation.halt.code)).map cell)

def words (bytes : List UInt8) : List (List UInt8) :=
  if bytes = [] then [] else bytes.take wordSize :: words (bytes.drop wordSize)
termination_by bytes.length
decreasing_by
  have := List.length_pos_iff.2 ‹bytes ≠ []›
  simp only [wordSize, List.length_drop]
  omega

def ofBytes (bytes : List UInt8) : Section := ofLines ((words bytes).map wordLine)

end Section

end StackCompiler
