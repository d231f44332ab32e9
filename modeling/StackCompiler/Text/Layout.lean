/-!
# Fixed-width text

Padding to a column, and texts as lists of lines.
-/

namespace StackCompiler.Text

def rule (c : Char) (n : Nat) : String := String.ofList (List.replicate n c)

/-- `s` moved to the right end of a column of width `n`, filled with `c`. -/
def padLeft (c : Char) (n : Nat) (s : String) : String := rule c (n - s.length) ++ s

def padRight (c : Char) (n : Nat) (s : String) : String := s ++ rule c (n - s.length)

def digits (w n : Nat) : String := padLeft '0' w (toString n)

/-- The lines of a text, `acc` holding the line begun, in reverse. A newline ends a line together
with a carriage return right before it. A text that ends in a newline has no further line. -/
def linesAfter : List Char → List Char → List String
  | [], [] => []
  | acc, [] => [String.ofList acc.reverse]
  | '\r' :: acc, '\n' :: cs => String.ofList acc.reverse :: linesAfter [] cs
  | acc, '\n' :: cs => String.ofList acc.reverse :: linesAfter [] cs
  | acc, c :: cs => linesAfter (c :: acc) cs

def lines (s : String) : List String := linesAfter [] s.toList

def unlines (parts : List String) : String := String.intercalate "\n" parts

end StackCompiler.Text
