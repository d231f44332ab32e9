import StackCompiler.Operation
import StackCompiler.Symbol.Scopes

/-!
# Instructions

An operation with its operand bytes. A load of a symbol takes up its full width from the start,
but what it loads from is filled in when the symbol has its place in memory.
-/

namespace StackCompiler

/-- The `width` lowest bytes of an integer in two's complement, the highest first. -/
def bigEndian (width : Nat) (n : Int) : List UInt8 :=
  (List.range width).reverse.map fun i => UInt8.ofNat ((n / Int.pow 256 i) % 256).toNat

@[simp] theorem length_bigEndian (width : Nat) (n : Int) : (bigEndian width n).length = width := by
  simp [bigEndian]

inductive Instruction where
  | plain (op : Operation) (operands : List UInt8)
  -- A load of the value or the address of a symbol, which lies at `offset` in the region of
  -- the operation once that is known.
  | symbolic (op : Operation) (symbol : Symbol.Id) (offset : Int)
deriving DecidableEq, Repr

namespace Instruction

def ofOperation (op : Operation) : Instruction := plain op []

/-- A load of a symbol whose place is not known yet. -/
def pending (op : Operation) (id : Symbol.Id) : Instruction := symbolic op id 0

def operation : Instruction → Operation
  | plain op _ => op
  | symbolic op _ _ => op

def operands : Instruction → List UInt8
  | plain _ bytes => bytes
  | symbolic _ _ offset => bigEndian 4 offset

def size (i : Instruction) : Nat := i.operands.length + 1

def bytes (i : Instruction) : List UInt8 := UInt8.ofNat i.operation.code :: i.operands

/-- The instruction with other operand bytes. Only operands of its own can be exchanged, and only
for as many. -/
def patch? (new : List UInt8) : Instruction → Option Instruction
  | plain op old => if old.length = new.length then some (plain op new) else none
  | symbolic .. => none

def symbolText : Instruction → String
  | plain .. => ""
  | symbolic _ id _ => s!" <{Symbol.idText id}>"

def text (i : Instruction) : String :=
  Text.padRight ' ' 5 i.operation.mnemonic ++ " (" ++ Text.digits 2 i.operation.code ++ "):" ++
    String.join (i.operands.map fun b => " " ++ Text.digits 2 b.toNat) ++ i.symbolText

theorem size_pos (i : Instruction) : 0 < i.size := Nat.succ_pos _

end Instruction

end StackCompiler
