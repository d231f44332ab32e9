import StackCompiler.Log

/-!
# Emitting code

An emitter appends instructions to the code of a program. It opens the scopes that the program's
names live in, and ends with a defect if the program tree is broken or the code too large. The
state it has reached is there in either case.
-/

namespace StackCompiler

structure Emitter.State where
  scopes : Scopes
  code : Code
  log : Log

abbrev Emitter := EStateM Defect Emitter.State

namespace Emitter

def position : Emitter Nat := return (← get).code.size

def emit (i : Instruction) : Emitter Unit :=
  modify fun s =>
    let placed := Code.Placed.mk s.code.size i
    { s with code := s.code.push i, log := s.log.push (.emitted placed) }

def emitOp (op : Operation) : Emitter Unit := emit (.ofOperation op)

def emitValue (id : Symbol.Id) : Emitter Unit := emit (.pending .pendingValue id)

def emitAddress (id : Symbol.Id) : Emitter Unit := emit (.pending .pendingAddress id)

def maxByte : Nat := 127

def maxHalf : Nat := 32767

def emitCount (count : Nat) : Emitter Unit :=
  if count ≤ maxByte then emit (.plain .lb (bigEndian 1 count))
  else if count ≤ maxHalf then emit (.plain .lh (bigEndian 2 count))
  else throw (.countTooLarge count)

def emitAlloc (slots : Nat) : Emitter Unit := do
  unless slots = 0 do
    emitCount slots
    emitOp .alloc

def jumpTarget (position : Nat) : Emitter Nat :=
  if position ≤ maxOffset then pure position else throw (.positionTooLarge position)

def jump (target : Nat) : Instruction := .plain (.loadAddress .constants) (bigEndian 4 target)

/-- Appends a load of an address that is not known yet, and tells its position. -/
def emitOpenJump : Emitter Nat := do
  let here ← position
  emit (jump 0)
  return here

def emitJump (target : Nat) : Emitter Unit := do
  emit (jump (← jumpTarget target))

def closeJump (position : Nat) : Emitter Unit := do
  let target ← jumpTarget (← Emitter.position)
  match (← get).code.patch position (bigEndian 4 target) with
  | .ok code => modify fun s => { s with code := code }
  | .error d => throw d

def enterScope (name : String) : Emitter Unit := do
  match (← get).scopes.enter? name with
  | some scopes => modify fun s => { s with scopes := scopes }
  | none => throw (.unknownScope name)

def leaveScope : Emitter Unit := modify fun s => { s with scopes := s.scopes.leave }

def valueType (id : Symbol.Id) : Emitter DataType := return (← get).scopes.valueType id

def symbolOf (kind : Node.Kind) (symbol : Option Symbol.Id) : Emitter Symbol.Id :=
  match symbol with
  | some id => pure id
  | none => throw (.noSymbol kind)

def childOf {α : Type} (kind : Node.Kind) (child : Option α) : Emitter α :=
  match child with
  | some c => pure c
  | none => throw (.missingChild kind)

def misplaced {α : Type} (kind : Node.Kind) (place : Defect.Place) : Emitter α :=
  throw (.unexpectedNode kind place)

end Emitter

end StackCompiler
