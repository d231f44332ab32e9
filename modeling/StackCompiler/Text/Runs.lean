/-!
# Sets of characters given by run lengths

A Unicode property is a finite set of code points. Going up from code point zero, stretches outside
the set and stretches inside it take turns, and the set is written as the list of their lengths.
-/

namespace StackCompiler.Text

/-- Lengths of the stretches outside and inside a set, in turn and an outside one first. Every code
point past the last stretch is outside. -/
abbrev Runs := List Nat

namespace Runs

/-- Whether place `n` of the stretches is inside, where `inside` tells so of the first one. -/
def covers (inside : Bool) : Runs → Nat → Bool
  | [], _ => false
  | len :: rest, n => if n < len then inside else covers (!inside) rest (n - len)

def contains (rs : Runs) (n : Nat) : Bool := rs.covers false n

end Runs

end StackCompiler.Text
