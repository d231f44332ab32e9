import StackCompiler.Symbol.Basic

/-!
# Operations of the SM20 machine

SM20 is a stack machine. An operation is one byte of code; some are followed by operand bytes.
-/

namespace StackCompiler

inductive Operation where
  | halt | noop | trap
  -- Pushes the integer zero.
  | zero
  | pushFalse | pushTrue
  -- Turns an integer into a real or back.
  | convert
  | toInteger | toReal
  | add
  -- Second minus top.
  | sub
  | mul | div | rem | pow
  -- Changes the sign.
  | chs
  | abs
  -- Compares the top with zero, as do the next five.
  | gt
  | ge | lt | le | eq | ne
  | and | or | xor | not
  -- Pops a condition, then an address, and branches there if the condition is true.
  | bt
  -- Pops a condition, then an address, and branches there if the condition is false.
  | bf
  -- Pops an address and branches there.
  | br
  -- Pops an address and pushes the value found there.
  | load
  -- Pushes the operand, one byte.
  | lb
  -- Pushes the operand, two bytes.
  | lh
  -- Stores the top at the address below it, and pops both.
  | st
  | step
  -- Pops a number and reserves as many slots.
  | alloc
  | array | index | size | dup
  | readReal | readInt
  | printValue | printString | printChar | newLine | space
  -- Moves the top into the slot for the result.
  | rval
  | retn
  -- Pops an address and calls the function there.
  | js2
  -- Pushes the value at an offset in a region.
  | loadValue (region : Region)
  -- Pushes the address of an offset in a region.
  | loadAddress (region : Region)
  -- Will be `loadValue` once the region is known.
  | pendingValue
  -- Will be `loadAddress` once the region is known.
  | pendingAddress
deriving DecidableEq, Repr

namespace Operation

def all : List Operation :=
  [halt, noop, trap, zero, pushFalse, pushTrue, convert, toInteger, toReal, add, sub, mul, div,
   rem, pow, chs, abs, gt, ge, lt, le, eq, ne, and, or, xor, not, bt, bf, br, load, lb, lh, st,
   step, alloc, array, index, size, dup, readReal, readInt, printValue, printString, printChar,
   newLine, space, rval, retn, js2, loadValue .constants, loadValue .globals,
   loadValue .declarations, loadAddress .constants, loadAddress .globals,
   loadAddress .declarations, pendingValue, pendingAddress]

def entry : Operation → Nat × String
  | halt => (0, "HALT")
  | noop => (1, "NOOP")
  | trap => (2, "TRAP")
  | zero => (3, "ZERO")
  | pushFalse => (4, "FALSE")
  | pushTrue => (5, "TRUE")
  | convert => (7, "TYPE")
  | toInteger => (8, "ITYPE")
  | toReal => (9, "FTYPE")
  | add => (11, "ADD")
  | sub => (12, "SUB")
  | mul => (13, "MUL")
  | div => (14, "DIV")
  | rem => (15, "REM")
  | pow => (16, "POW")
  | chs => (17, "CHS")
  | abs => (18, "ABS")
  | gt => (21, "GT")
  | ge => (22, "GE")
  | lt => (23, "LT")
  | le => (24, "LE")
  | eq => (25, "EQ")
  | ne => (26, "NE")
  | and => (31, "AND")
  | or => (32, "OR")
  | xor => (33, "XOR")
  | not => (34, "NOT")
  | bt => (35, "BT")
  | bf => (36, "BF")
  | br => (37, "BR")
  | load => (40, "L")
  | lb => (41, "LB")
  | lh => (42, "LH")
  | st => (43, "ST")
  | step => (51, "STEP")
  | alloc => (52, "ALLOC")
  | array => (53, "ARRAY")
  | index => (54, "INDEX")
  | size => (55, "SIZE")
  | dup => (56, "DUP")
  | readReal => (60, "READF")
  | readInt => (61, "READI")
  | printValue => (62, "VALPR")
  | printString => (63, "STRPR")
  | printChar => (64, "CHRPR")
  | newLine => (65, "NEWLN")
  | space => (66, "SPACE")
  | rval => (70, "RVAL")
  | retn => (71, "RETN")
  | js2 => (72, "JS2")
  | loadValue r => (80 + r.index, s!"LV{r.index}")
  | loadAddress r => (90 + r.index, s!"LA{r.index}")
  | pendingValue => (100, "LV?")
  | pendingAddress => (110, "LA?")

def code (op : Operation) : Nat := op.entry.1

def mnemonic (op : Operation) : String := op.entry.2

def isPending : Operation → Bool
  | pendingValue | pendingAddress => true
  | _ => false

def isAddress : Operation → Bool
  | loadAddress _ | pendingAddress => true
  | _ => false

/-- The load from a region that `op` stands for: of an address if it loads addresses, of a value
otherwise. -/
def inRegion (op : Operation) (r : Region) : Operation :=
  if op.isAddress then loadAddress r else loadValue r

theorem mem_all (op : Operation) : op ∈ all := by
  cases op with
  | loadValue r => cases r <;> decide
  | loadAddress r => cases r <;> decide
  | _ => decide

theorem code_lt (op : Operation) : op.code < 256 := by
  cases op with
  | loadValue r => cases r <;> decide
  | loadAddress r => cases r <;> decide
  | _ => decide

end Operation

end StackCompiler
