import StackCompiler.Code.Basic
import StackCompiler.Code.Section

/-!
# Modules

A module is the code of a program as the machine loads it. The literals lie behind the
instructions, from the next word boundary on: integers, then reals, then strings. When they have
their places, all loads of symbols can be filled in.
-/

namespace StackCompiler

def maxOffset : Nat := 0x7fffffff

def Instruction.resolve (s : Scopes) : Instruction → Except Defect Instruction
  | plain op bytes => .ok (plain op bytes)
  | symbolic op id offset =>
    match s.symbol? id with
    | none => .ok (symbolic op id offset)
    | some sym =>
      match sym.storage with
      | some st => .ok (symbolic (op.inRegion st.region) id st.offset)
      | none => .error (.noStorage sym op)

namespace Code

def wordBoundary (n : Nat) : Nat := (n + (Section.wordSize - 1)) / Section.wordSize * Section.wordSize

variable (c : Code)

/-- The symbols of all literals in the order of their places, with their sizes in bytes. A string
ends with a zero byte. -/
def pool : List (Symbol.Id × Nat) :=
  c.integers.toList.map (fun k => (k.symbol, Section.wordSize)) ++
    c.reals.toList.map (fun k => (k.symbol, Section.wordSize)) ++
    c.strings.toList.map (fun k => (k.symbol, k.value.utf8ByteSize + 1))

/-- Gives literals their places from `offset` on, as far as addresses reach, and tells where they
end. -/
def placePool (offset : Nat) (s : Scopes) : List (Symbol.Id × Nat) → Except Defect Nat × Scopes
  | [] => (.ok offset, s)
  | (id, size) :: rest =>
    if offset ≤ maxOffset then
      placePool (offset + size) (s.setStorage id ⟨.constants, offset⟩) rest
    else (.error (.constantTooFar offset), s)

def resolveFrom (s : Scopes) (k : Nat) (is : Array Placed) : Except Defect Unit × Array Placed :=
  if h : k < is.size then
    match is[k].instruction.resolve s with
    | .ok i => resolveFrom s (k + 1) (is.set k ⟨is[k].position, i⟩)
    | .error d => (.error d, is)
  else (.ok (), is)
termination_by is.size - k
decreasing_by
  rw [Array.size_set]
  omega

/-- Fills in all loads of symbols. Those before one that has no place are filled in all the same. -/
def resolve (s : Scopes) : Except Defect Unit × Code :=
  let (result, is) := resolveFrom s 0 c.instructions
  (result, { c with instructions := is })

def codeBytes : List UInt8 := c.instructions.toList.flatMap fun p => p.instruction.bytes

def stringBytes : List UInt8 := c.strings.toList.flatMap fun k => k.value.toUTF8.toList ++ [0]

def sections : List Section :=
  [.ofBytes c.codeBytes,
   .ofLines (c.integers.toList.map fun k => toString k.value),
   .ofLines (c.reals.toList.map fun k => k.value.write),
   .ofBytes c.stringBytes]

def moduleText : String := Text.unlines (c.sections.map Section.text)

structure Build where
  result : Except Defect String
  -- The size of the module in bytes, once its literals have their places.
  size : Option Nat
  code : Code
  scopes : Scopes

/-- Places the literals, fills in the loads and writes the module. -/
def build (s : Scopes) : Build :=
  match placePool (wordBoundary c.size) s c.pool with
  | (.error d, s) => ⟨.error d, none, c, s⟩
  | (.ok size, s) =>
    match c.resolve s with
    | (.error d, c) => ⟨.error d, some size, c, s⟩
    | (.ok (), c) => ⟨.ok c.moduleText, some size, c, s⟩

end Code

end StackCompiler
