import StackCompiler.Yaml.Glyph

/-!
# Properties and directives

A value may carry a name, by which it is found again, and a tag. A tag is a resource name; what
stands in front of it may be shortened to a handle, which a directive declares.
-/

namespace StackCompiler.Yaml

def isNameChar (c : Char) : Bool := c.isAlphanum || c = '_' || c = '-'

def takeName (gs : List Glyph) : String × List Glyph :=
  let (name, rest) := gs.span fun g => isNameChar g.char
  (String.ofList (name.map Glyph.char), rest)

/-- The name of a value, or of the value that is meant. -/
def anchorName? (gs : List Glyph) : Option (String × List Glyph) :=
  let (name, rest) := takeName gs
  if !name.isEmpty && (endsWord rest || startsWith "?:,]\x7d%@\x60" rest) then some (name, rest)
  else none

/-- Characters of a tag. A tag in angle brackets and the value of a handle may also hold commas and
square brackets. -/
def isTagChar (enclosed : Bool) (c : Char) : Bool :=
  isNameChar c || ";/?:@&=+$.!~*'()".toList.contains c || (enclosed && ",[]".toList.contains c)

def octet? : List Glyph → Option Nat
  | [] => none
  | g :: rest => if g.char = '%' then hexNumber? 2 rest else none

def characterSize? (octet : Nat) : Option Nat :=
  if octet < 0x80 then some 1
  else if octet < 0xc0 then none
  else if octet < 0xe0 then some 2
  else if octet < 0xf0 then some 3
  else if octet < 0xf8 then some 4
  else none

def characterOctets? (gs : List Glyph) : Option (List Nat) := do
  let first ← octet? gs
  let size ← characterSize? first
  let others ← (List.range (size - 1)).mapM fun i => do
    let octet ← octet? (gs.drop (3 * (i + 1)))
    if 0x80 ≤ octet ∧ octet < 0xc0 then some octet else none
  return first :: others

/-- Reads on in a tag. Each character of the result stands for one octet. -/
def tagTextFrom (enclosed : Bool) (text : List Char) (gs : List Glyph) :
    Option (List Char × List Glyph) :=
  match gs with
  | [] => some (text.reverse, [])
  | g :: rest =>
    if g.char = '%' then
      match characterOctets? (g :: rest) with
      | some octets =>
        tagTextFrom enclosed ((octets.map Char.ofNat).reverse ++ text)
          (rest.drop (3 * octets.length - 1))
      | none => none
    else if isTagChar enclosed g.char then tagTextFrom enclosed (g.char :: text) rest
    else some (text.reverse, g :: rest)
termination_by gs.length
decreasing_by all_goals simp; try omega

/-- The rest of a tag that starts with `head`. It is not empty, and counts up to a zero octet. -/
def tagText? (enclosed : Bool) (head : String) (gs : List Glyph) :
    Option (String × List Glyph) := do
  let (text, rest) ← tagTextFrom enclosed [] gs
  if head.isEmpty && text.isEmpty then none
  else some (String.ofList ((head.toList.drop 1 ++ text).takeWhile (· ≠ '\x00')), rest)

/-- A handle, with its exclamation marks. The second one may be missing. -/
def handle? : List Glyph → Option (String × List Glyph)
  | [] => none
  | g :: rest =>
    if g.char = '!' then
      let (name, rest) := takeName rest
      if startsWith "!" rest then some ("!" ++ name ++ "!", rest.drop 1)
      else some ("!" ++ name, rest)
    else none

/-- Whether a text is a whole handle, and more than a single exclamation mark. -/
def isHandle (s : String) : Bool := 1 < s.length && s.endsWith "!"

structure ShortTag where
  -- Empty if the tag is written in full.
  handle : String
  suffix : String
deriving DecidableEq, Repr

/-- The tag that starts here. In brackets a comma may follow it at once. -/
def tag? (flow : Bool) (gs : List Glyph) : Option (ShortTag × List Glyph) := do
  let (tag, rest) ← if startsWith "<" (gs.drop 1) then do
      let (suffix, rest) ← tagText? true "" (gs.drop 2)
      if startsWith ">" rest then some (ShortTag.mk "" suffix, rest.drop 1) else none
    else do
      let (handle, rest) ← handle? gs
      if isHandle handle then do
        let (suffix, rest) ← tagText? false "" rest
        some (ShortTag.mk handle suffix, rest)
      else do
        let (suffix, rest) ← tagText? false handle rest
        some (if suffix.isEmpty then ShortTag.mk "" "!" else ShortTag.mk "!" suffix, rest)
  if endsWord rest || (flow && startsWith "," rest) then some (tag, rest) else none

inductive Directive where
  | version (major minor : Nat)
  -- The handle stands for the text.
  | handle (name text : String)
deriving DecidableEq, Repr

def number? (gs : List Glyph) : Option (Nat × List Glyph) :=
  let (digits, rest) := gs.span (·.char.isDigit)
  if digits.isEmpty || 9 < digits.length then none
  else some (digits.foldl (fun v g => 10 * v + (g.char.toNat - '0'.toNat)) 0, rest)

def version? (gs : List Glyph) : Option (Directive × List Glyph) := do
  let (major, rest) ← number? (gs.dropWhile Glyph.isBlank)
  if startsWith "." rest then
    let (minor, rest) ← number? (rest.drop 1)
    some (.version major minor, rest)
  else none

def handleText? (gs : List Glyph) : Option (Directive × List Glyph) := do
  let (handle, rest) ← handle? (gs.dropWhile Glyph.isBlank)
  if (handle = "!" || isHandle handle) && startsWith " \t" rest then
    let (text, rest) ← tagText? true "" (rest.dropWhile Glyph.isBlank)
    if endsWord rest then some (.handle handle text, rest) else none
  else none

/-- The directive whose percent sign has been read, and what follows its line. -/
def directive? (gs : List Glyph) : Option (Directive × List Glyph) := do
  let (name, rest) := takeName gs
  if !endsWord rest then none
  else
    let (directive, rest) ← match name with
      | "YAML" => version? rest
      | "TAG" => handleText? rest
      | _ => none
    return (directive, ← restOfLine? rest)

end StackCompiler.Yaml
