import StackCompiler.Binary64.Basic
import StackCompiler.Text.Numeral

/-!
# Reading real constants

The text of a real is a sign, digits with at most one point among them, and an exponent, each part
but the digits being optional; or one of the words for infinities and for values that are not
numbers. The number read is the nearest one, of two equally near the even one.
-/

namespace StackCompiler.Binary64

open Text (isDigit digitsValue readSign readInt?)

/-- `num / den` rounded to the nearest integer, a half to the even neighbour. -/
def roundHalfEven (num den : Nat) : Nat :=
  let down := num / den
  let rest := 2 * (num % den)
  if rest < den ∨ rest = den ∧ down % 2 = 0 then down else down + 1

/-- The magnitude bits of the number nearest to `num / den * 2 ^ -1074`, for positive `num` and
`den`. The bits of a number are its multiple of the last place plus the places skipped, so a carry
out of the fraction raises the exponent by itself. -/
def roundScaled (num den : Nat) : Nat :=
  let q := (num / den).log2 - 52
  min (q * fractionBound + roundHalfEven num (den * Nat.pow 2 q)) infinityBits

def roundDecimal (n : Nat) (e : Int) : Nat :=
  let scale := e + (Nat.toDigits 10 n).length
  if n = 0 ∨ scale < -330 then 0
  else if scale > 330 then infinityBits
  else if e < 0 then roundScaled (n * Nat.pow 2 1074) (Nat.pow 10 (-e).toNat)
  else roundScaled (n * Nat.pow 10 e.toNat * Nat.pow 2 1074) 1

def readExponent? : List Char → Option Int
  | [] => some 0
  | c :: cs => if c = 'e' ∨ c = 'E' then readInt? cs else none

/-- Digits, an optional point with further digits, and an exponent. -/
def readMagnitude? (cs : List Char) : Option Nat :=
  let (whole, rest) := cs.span isDigit
  let (fraction, rest) := match rest with
    | '.' :: rest => rest.span isDigit
    | rest => ([], rest)
  if whole.isEmpty && fraction.isEmpty then none
  else do
    let e ← readExponent? rest
    return roundDecimal (digitsValue (whole ++ fraction)) (e - fraction.length)

def readName? (cs : List Char) : Option Nat :=
  let word := String.ofList (cs.map Char.toLower)
  if word = "inf" ∨ word = "infinity" then some infinityBits
  else if word = "nan" then some (infinityBits + fractionBound / 2)
  else none

def read? (s : String) : Option Binary64 := do
  let (negative, cs) := readSign s.toList
  let magnitude ← (readMagnitude? cs).or (readName? cs)
  return ofSignMagnitude negative magnitude

end StackCompiler.Binary64
