import StackCompiler.Defect

/-!
# Code

The instructions of a module in the order of their positions, and the literals it uses. Each
instruction starts where the one before it ends.
-/

namespace StackCompiler

structure Constant (α : Type) where
  value : α
  symbol : Symbol.Id
deriving DecidableEq, Repr

structure Code.Placed where
  position : Nat
  instruction : Instruction
deriving DecidableEq, Repr

structure Code where
  instructions : Array Code.Placed
  -- The position of the next instruction.
  size : Nat
  integers : Array (Constant Int)
  reals : Array (Constant Binary64)
  strings : Array (Constant String)
deriving Repr

namespace Code

def empty : Code := ⟨#[], 0, #[], #[], #[]⟩

variable (c : Code)

def push (i : Instruction) : Code :=
  { c with instructions := c.instructions.push ⟨c.size, i⟩, size := c.size + i.size }

def indexAt? (position : Nat) : Option Nat :=
  c.instructions.findIdx? fun p => p.position = position

def at? (position : Nat) : Option Instruction :=
  (c.instructions.find? fun p => p.position = position).map Placed.instruction

def patch (position : Nat) (bytes : List UInt8) : Except Defect Code :=
  match c.indexAt? position, c.at? position with
  | some k, some i =>
    match i.patch? bytes with
    | some j => .ok { c with instructions := c.instructions.setIfInBounds k ⟨position, j⟩ }
    | none => .error (.cannotPatch bytes.length i)
  | _, _ => .error (.noInstruction position)

def addInteger (n : Int) (id : Symbol.Id) : Code := { c with integers := c.integers.push ⟨n, id⟩ }

def addReal (x : Binary64) (id : Symbol.Id) : Code := { c with reals := c.reals.push ⟨x, id⟩ }

def addString (s : String) (id : Symbol.Id) : Code := { c with strings := c.strings.push ⟨s, id⟩ }

def Placed.text (p : Placed) : String :=
  Text.digits 4 p.position ++ ": " ++ p.instruction.text

def text : String :=
  s!"instructions: {c.instructions.size}\n" ++
    String.join (c.instructions.toList.map fun p => p.text ++ "\n") ++
    s!"constants: {c.integers.size} int, {c.reals.size} real, {c.strings.size} string\n"

end Code

end StackCompiler
