import StackCompiler.Text.Extender
import StackCompiler.Text.Unprintable

/-!
# Quoted text

A text between double quotes, on one line: quotes, backslashes and the usual controls are escaped
by a letter, other characters without a visible shape by their code point.
-/

namespace StackCompiler.Text

def escapeCode (c : Char) : List Char :=
  '\\' :: 'u' :: '\x7b' :: (Nat.toDigits 16 c.toNat ++ ['\x7d'])

def escape (c : Char) : List Char :=
  if c = '"' then ['\\', '"']
  else if c = '\\' then ['\\', '\\']
  else if c = '\n' then ['\\', 'n']
  else if c = '\r' then ['\\', 'r']
  else if c = '\t' then ['\\', 't']
  else if c = '\x00' then ['\\', '0']
  else if isExtender c || isUnprintable c then escapeCode c
  else [c]

def quote (s : String) : String := String.ofList ('"' :: (s.toList.flatMap escape ++ ['"']))

end StackCompiler.Text
