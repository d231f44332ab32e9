import StackCompiler.Diagnostic.Remark
import StackCompiler.Text.Layout

/-!
# Listings

A source text with its lines numbered, and remarks below the lines they point to.
-/

namespace StackCompiler.Listing

def before (a b : Remark) : Bool :=
  a.position.line < b.position.line ||
    a.position.line = b.position.line && a.position.column ≤ b.position.column

/-- A remark below its line: carets under the text meant, then the message. The margin that
holds the line number is `width` characters wide. -/
def block (width : Nat) (a : Remark) : String :=
  let indent := Text.rule ' ' (width + a.position.column + 2)
  indent ++ Text.rule '^' (max a.length 1) ++ "\n" ++ indent ++ a.text ++ "\n"

def numbered (width number : Nat) (line : String) : String :=
  Text.padLeft ' ' width (toString number) ++ " | " ++ line ++ "\n"

/-- The numbered lines from line `number` on, with the remarks `pending` in their order. Those
that point past the last line follow it. -/
def body (width number : Nat) : List String → List Remark → List String
  | [], pending => pending.map (block width)
  | line :: lines, pending =>
    let here := pending.takeWhile fun a => a.position.line ≤ number
    numbered width number line ::
      (here.map (block width) ++ body width (number + 1) lines (pending.drop here.length))

/-- The listing of a source with remarks. Those at one position keep their order. -/
def render (source : String) (remarks : List Remark) : String :=
  let lines := Text.lines source
  let width := (toString (max lines.length 1)).length
  String.join (body width 1 lines (remarks.mergeSort before))

end StackCompiler.Listing
