/-!
# Numerals

Numbers written with the ten ASCII digits.
-/

namespace StackCompiler.Text

def isDigit (c : Char) : Bool := '0' ≤ c && c ≤ '9'

def digitsValue (ds : List Char) : Nat := ds.foldl (fun n c => 10 * n + (c.toNat - '0'.toNat)) 0

def readSign : List Char → Bool × List Char
  | '-' :: cs => (true, cs)
  | '+' :: cs => (false, cs)
  | cs => (false, cs)

def readInt? (cs : List Char) : Option Int :=
  let (negative, ds) := readSign cs
  if ds.isEmpty || !ds.all isDigit then none
  else some (if negative then -(digitsValue ds : Int) else digitsValue ds)

/-- An integer that fits a signed word of 64 bits. -/
def readWord? (s : String) : Option Int :=
  (readInt? s.toList).filter fun n =>
    -0x8000000000000000 ≤ n && n < 0x8000000000000000

end StackCompiler.Text
