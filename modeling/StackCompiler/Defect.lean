import StackCompiler.Instruction
import StackCompiler.Node

/-!
# Defects

What can go wrong once a program has been accepted: a broken tree, or code that outgrows the
machine.
-/

namespace StackCompiler

inductive Defect.Place where
  | program | statement | assignment | input | call | expression | booleanComparison
deriving DecidableEq, Repr

def Defect.Place.text : Defect.Place → String
  | program => "program position"
  | statement => "statement position"
  | assignment => "assignment position"
  | input => "input position"
  | call => "call position"
  | expression => "expression position"
  | booleanComparison => "boolean comparison"

inductive Defect where
  | unknownScope (name : String)
  | unexpectedNode (kind : Node.Kind) (place : Defect.Place)
  | noSymbol (kind : Node.Kind)
  | missingChild (kind : Node.Kind)
  | countTooLarge (count : Nat)
  | positionTooLarge (position : Nat)
  | constantTooFar (offset : Nat)
  | noInstruction (position : Nat)
  | cannotPatch (count : Nat) (instruction : Instruction)
  | noStorage (symbol : Symbol) (op : Operation)
  -- A defect in the words of whoever found it.
  | stated (message : String)
deriving DecidableEq, Repr

def Defect.message : Defect → String
  | unknownScope name => s!"unknown scope '{name}'"
  | unexpectedNode kind place => s!"unexpected {kind.label} node in {place.text}"
  | noSymbol kind => s!"{kind.label} node without a symbol"
  | missingChild kind => s!"{kind.label} node is missing a child"
  | countTooLarge count => s!"count {count} does not fit an operand"
  | positionTooLarge position => s!"code position {position} out of range"
  | constantTooFar offset => s!"constant offset {offset} out of range"
  | noInstruction position => s!"no instruction at position {position}"
  | cannotPatch count i => s!"cannot patch {count} operand byte(s) into {i.text}"
  | noStorage s op => s!"symbol {s.text} has no storage to backfill {op.mnemonic} with"
  | stated message => message

end StackCompiler
