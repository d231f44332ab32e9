import StackCompiler.CommandLine.Run

/-!
# The program

Carries out the command line on the disk of the machine.
-/

namespace StackCompiler

def openFile? (path : String) (mode : IO.FS.Mode) : IO (Option IO.FS.Handle) := do
  try
    return some (← IO.FS.Handle.mk path mode)
  catch _ => return none

def machineDisk : Disk IO where
  holds path := return (← openFile? path .read).isSome
  read path := do
    match ← openFile? path .read with
    | none => return .absent
    | some handle =>
      try
        return .content (← handle.readBinToEnd)
      catch _ => return .unreadable
  write path text := do
    match ← openFile? path .write with
    | none => return false
    | some handle =>
      try
        handle.putStr text
        return true
      catch _ => return false

def runOnMachine (args : List String) : IO UInt32 := do
  let outcome ← CommandLine.run machineDisk args
  IO.print outcome.output
  if let some word := outcome.unknown then
    IO.eprintln s!"unknown command '{word}'"
  if let some failure := outcome.failure then
    IO.eprintln failure.message
  return UInt32.ofNat outcome.exitCode

end StackCompiler

def main (args : List String) : IO UInt32 := StackCompiler.runOnMachine args
