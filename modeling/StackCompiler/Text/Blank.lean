import StackCompiler.Text.Runs

/-!
# Blank characters

Characters that separate tokens and are otherwise ignored.
-/

namespace StackCompiler.Text

/-- Code points with the Unicode property White_Space. -/
def blankRuns : Runs := [
  9, 5, 18, 1, 100, 1, 26, 1, 5599, 1, 2431, 11, 29, 2, 5, 1, 47, 1, 4000, 1]

def isBlank (c : Char) : Bool := blankRuns.contains c.toNat

end StackCompiler.Text
