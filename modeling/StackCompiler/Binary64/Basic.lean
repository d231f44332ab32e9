/-!
# Real constants

A real constant is a double-precision binary number, held as its 64 bits: a sign, eleven bits of
exponent and fifty-two bits of fraction. It is read from text and written as text, never computed
with.
-/

namespace StackCompiler

structure Binary64 where
  bits : UInt64
deriving DecidableEq, Repr

namespace Binary64

def fractionBound : Nat := 0x10000000000000

def signBit : Nat := 0x8000000000000000

def specialExponent : Nat := 2047

def infinityBits : Nat := specialExponent * fractionBound

/-- The number of the given sign whose remaining 63 bits are `magnitude`. -/
def ofSignMagnitude (negative : Bool) (magnitude : Nat) : Binary64 :=
  ⟨UInt64.ofNat (if negative then signBit + magnitude else magnitude)⟩

def isNegative (x : Binary64) : Bool := x.bits.toNat ≥ signBit

def magnitude (x : Binary64) : Nat := x.bits.toNat % signBit

def exponentField (x : Binary64) : Nat := x.magnitude / fractionBound

def fractionField (x : Binary64) : Nat := x.magnitude % fractionBound

def isNaN (x : Binary64) : Bool := x.magnitude > infinityBits

def isInfinite (x : Binary64) : Bool := x.magnitude = infinityBits

/-- For a finite number, `m` and `q` with absolute value `m * 2 ^ (q - 1074)`. -/
def decode (x : Binary64) : Nat × Nat :=
  if x.exponentField = 0 then (x.fractionField, 0)
  else (fractionBound + x.fractionField, x.exponentField - 1)

end Binary64

end StackCompiler
