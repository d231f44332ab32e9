import StackCompiler.CommandLine.Run

/-!
# Files in memory

A directory tree given by its files. It lies in a directory of which nothing else is known.
-/

namespace StackCompiler

structure Files where
  entries : List (List String × ByteArray)

namespace Files

variable (f : Files)

def ofList (files : List (String × ByteArray)) : Files :=
  ⟨files.map fun e => (Path.parts e.1, e.2)⟩

def get? (names : List String) : Option ByteArray :=
  (f.entries.find? fun e => e.1 = names).map Prod.snd

/-- Whether the names lead to a directory: to where everything starts, or to a place that some file
lies below. -/
def isDirectory (names : List String) : Bool :=
  names = [] || f.entries.any fun e => names.isPrefixOf e.1 && e.1 ≠ names

inductive Place where
  -- A place in the tree, which may be free.
  | inside (names : List String)
  -- A directory that is not in the tree.
  | outside
deriving DecidableEq, Repr

def isOpen : Place → Bool
  | .inside names => f.isDirectory names
  | .outside => true

def step : Place → String → Option Place
  | place, "" | place, "." => some place
  | .inside names, ".." => some (if names = [] then .outside else .inside names.dropLast)
  | .inside names, name => some (.inside (names ++ [name]))
  | .outside, name => if name = ".." then some .outside else none

/-- Where a path leads that is followed from a place on. Each step starts in a directory. -/
def follow : Place → List String → Option Place
  | place, [] => some place
  | place, part :: rest => do
    if f.isOpen place then follow (← step place part) rest else none

def locate (path : String) : Option Place :=
  if Path.isValid path then
    f.follow (if Path.isAbsolute path then .outside else .inside []) (Path.parts path)
  else none

def read (path : String) : Reading :=
  match f.locate path with
  | none => .absent
  | some .outside => .unreadable
  | some (.inside names) =>
    match f.get? names with
    | some bytes => .content bytes
    | none => if f.isDirectory names then .unreadable else .absent

def holds (path : String) : Bool :=
  match f.read path with
  | .absent => false
  | .unreadable | .content _ => true

/-- Puts a file in its place in the tree, unless a directory is there. -/
def write? (path text : String) : Option Files :=
  match f.locate path with
  | some (.inside names) =>
    if f.isDirectory names then none
    else
      let others := f.entries.filter fun e => e.1 ≠ names
      some ⟨others ++ [(names, text.toUTF8)]⟩
  | _ => none

def changedSince (before : Files) : List (String × ByteArray) :=
  (f.entries.filter fun e => (before.get? e.1).map ByteArray.toList ≠ some e.2.toList).map
    fun e => (String.intercalate "/" e.1, e.2)

def disk : Disk (StateM Files) where
  holds path := return (← get).holds path
  read path := return (← get).read path
  write path text := do
    match (← get).write? path text with
    | some files =>
      set files
      return true
    | none => return false

end Files

end StackCompiler
