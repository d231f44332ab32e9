/-!
# Names of files

A path is a sequence of names with slashes between them. The last name may have an extension: what
follows its last point, unless the name starts with that point.
-/

namespace StackCompiler.Path

def partsAfter : List Char → List Char → List String
  | acc, [] => [String.ofList acc.reverse]
  | acc, '/' :: cs => String.ofList acc.reverse :: partsAfter [] cs
  | acc, c :: cs => partsAfter (c :: acc) cs

/-- The names on a path. An empty name stands for a slash too many. -/
def parts (path : String) : List String := partsAfter [] path.toList

def isAbsolute (path : String) : Bool := path.toList.head? = some '/'

def stemLength (name : List Char) : Nat :=
  let extension := name.reverse.takeWhile (· ≠ '.')
  if name = ['.', '.'] ∨ name.length ≤ extension.length + 1 then name.length
  else name.length - (extension.length + 1)

/-- The path with another extension for its last name, and with none if that is empty. A name of
which only a point is left before its extension turns into the directory above, which takes no
extension. An extension is part of a name, so it holds no slash. -/
def withExtension? (path ext : String) : Option String :=
  let name := (path.toList.reverse.takeWhile (· ≠ '/')).reverse
  let stem := name.take (stemLength name)
  let directory := path.toList.take (path.length - name.length)
  if ext.toList.contains '/' then none
  else if stem = ['.'] ∧ name ≠ stem then some (String.ofList directory ++ "..")
  else some (String.ofList (directory ++ stem) ++ if ext.isEmpty then "" else "." ++ ext)

/-- Whether a path can name a file at all: it has no zero byte, fits in 4095 bytes, and none of its
names is longer than 255. -/
def isValid (path : String) : Bool :=
  !path.isEmpty && !path.toList.contains '\x00' && path.utf8ByteSize < 4096 &&
    (parts path).all fun name => name.utf8ByteSize ≤ 255

end StackCompiler.Path
