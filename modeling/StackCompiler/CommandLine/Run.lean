import StackCompiler.CommandLine.Path
import StackCompiler.CommandLine.Settings
import StackCompiler.Diagnostic.Listing

/-!
# The command line

A command is carried out on a disk, which is only asked to read, to look for and to write files. So
the same command runs on the disk of a machine and on files in memory.
-/

namespace StackCompiler

inductive Command where
  | build (file : String)
  | lex (file : String)
deriving DecidableEq, Repr

structure Invocation where
  settings : Option String
  command : Command
deriving DecidableEq, Repr

namespace Invocation

abbrev Misuse := Option String

/-- The command and its file. Further arguments are ignored. -/
def command? : List String → Except Misuse Command
  | "build" :: file :: _ => .ok (.build file)
  | "lex" :: file :: _ => .ok (.lex file)
  | [] | "build" :: _ | "lex" :: _ => .error none
  | word :: _ => .error (some word)

def ofArguments : List String → Except Misuse Invocation
  | "--conf" :: file :: rest => do return ⟨some file, ← command? rest⟩
  | ["--conf"] => .error none
  | args => do return ⟨none, ← command? args⟩

end Invocation

/-- Ways to fail that are not about the program. -/
inductive Failure where
  | disk
  | encoding
  | settings
  | compiler (e : Error)
  -- An extension with a slash in it was asked for.
  | extension

namespace Failure

def message : Failure → String
  | disk => "io error"
  | encoding => "source is not valid utf-8"
  | settings => "configuration error"
  | compiler e => e.message
  | extension => "extension cannot contain path separators"

def exitCode : Failure → Nat
  | extension => 101
  | _ => 1

end Failure

inductive Reading where
  | absent
  -- There is something, but no bytes can be read from it.
  | unreadable
  | content (bytes : ByteArray)

structure Disk (m : Type → Type) where
  holds : String → m Bool
  read : String → m Reading
  write : String → String → m Bool

structure Outcome where
  exitCode : Nat
  output : String
  -- The word that is no command, if one was given.
  unknown : Option String
  failure : Option Failure

namespace CommandLine

def defaultSettings : String := "cd20.yaml"

def version : String := "0.3.0"

def usage : String := Text.unlines
  ["",
   "usage: cd20c [--conf FILE] CMD FILE",
   "",
   "commands:",
   "    build   Compile the target CD20 source into an SM20 module",
   "    lex     Print the tokens of the target CD20 source",
   "",
   "options:",
   "    --conf  YAML configuration file (default: cd20.yaml, when present)",
   "",
   "examples:",
   "    cd20c build sums.cd",
   "    cd20c --conf debug.yaml build sums.cd",
   "    cd20c lex sums.cd",
   "",
   ""]

def tokenLine (t : Token) : String :=
  let place := Text.padLeft ' ' 5 (toString t.position.line) ++ ":" ++
    Text.padRight ' ' 4 (toString t.position.column)
  let lexeme := match t.lexeme with
    | some s => " \"" ++ s ++ "\""
    | none => ""
  place ++ " " ++ Text.padRight ' ' 22 t.kind.label ++ lexeme ++ "\n"

def tokenDump (source : String) : String :=
  " line:col  | token                | lexeme \n" ++ String.join ((tokensOf source).map tokenLine)

variable {m : Type → Type} [Monad m] (disk : Disk m)

abbrev Step (m : Type → Type) := ExceptT Failure m

def readText (file : String) (unreadable undecodable : Failure) : Step m String := do
  match ← (disk.read file : m _) with
  | .absent => throw .disk
  | .unreadable => throw unreadable
  | .content bytes =>
    match String.fromUTF8? bytes with
    | some text => return text
    | none => throw undecodable

def readSource (file : String) : Step m String := readText disk file .disk .encoding

def writeBeside (file ext text : String) : Step m Unit := do
  match Path.withExtension? file ext with
  | none => throw .extension
  | some target =>
    unless ← (disk.write target text : m _) do
      throw .disk

def readSettings (file : String) : Step m Settings := do
  match Settings.read? (← readText disk file .settings .settings) with
  | some settings => return settings
  | none => throw .settings

/-- The settings that are named, else those in the usual place, else the usual ones. -/
def chooseSettings (named : Option String) : Step m Settings := do
  match named with
  | some file => readSettings disk file
  | none =>
    if ← (disk.holds defaultSettings : m _) then readSettings disk defaultSettings
    else return .default

/-- Compiles a file and writes its listing and its module next to it. Tells whether there is a
module. -/
def build (file : String) (settings : Settings) : Step m Bool := do
  let source ← readSource disk file
  let (moduleText, remarks) ← match (compile source settings.dumps).1 with
    | .ok c => pure (some c.moduleText, c.remarks)
    | .error (.rejected remarks) => pure (none, remarks)
    | .error e => throw (.compiler e)
  if settings.listing then
    writeBeside disk file settings.listingExtension (Listing.render source remarks)
  match moduleText with
  | some text =>
    writeBeside disk file settings.moduleExtension text
    return true
  | none => return false

def execute (i : Invocation) : Step m (Nat × String) := do
  let settings ← chooseSettings disk i.settings
  match i.command with
  | .build file =>
    let done ← build disk file settings
    return (if done then 0 else 1, "")
  | .lex file =>
    let source ← readSource disk file
    return (0, tokenDump source)

def run (args : List String) : m Outcome := do
  match Invocation.ofArguments args with
  | .error unknown =>
    return ⟨64, "CD20 compiler v" ++ version ++ "\n" ++ usage, unknown, none⟩
  | .ok invocation =>
    match ← (execute disk invocation).run with
    | .ok (code, output) => return ⟨code, output, none, none⟩
    | .error f => return ⟨f.exitCode, "", none, some f⟩

end CommandLine

end StackCompiler
