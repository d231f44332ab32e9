/-!
# Reserved words
-/

namespace StackCompiler

inductive Keyword where
  | cd20 | constants | types | is | arrays | main | begin | endWord
  | array | of | func | void | const | int | real | bool
  | forWord | repeatWord | untilWord | ifWord | elseWord
  | input | print | println | returnWord
  | not | and | or | xor | trueWord | falseWord
deriving DecidableEq, Repr

namespace Keyword

def all : List Keyword :=
  [cd20, constants, types, is, arrays, main, begin, endWord,
   array, of, func, void, const, int, real, bool,
   forWord, repeatWord, untilWord, ifWord, elseWord,
   input, print, println, returnWord,
   not, and, or, xor, trueWord, falseWord]

def spelling : Keyword → String
  | cd20 => "cd20"
  | constants => "constants"
  | types => "types"
  | is => "is"
  | arrays => "arrays"
  | main => "main"
  | begin => "begin"
  | endWord => "end"
  | array => "array"
  | of => "of"
  | func => "func"
  | void => "void"
  | const => "const"
  | int => "int"
  | real => "real"
  | bool => "bool"
  | forWord => "for"
  | repeatWord => "repeat"
  | untilWord => "until"
  | ifWord => "if"
  | elseWord => "else"
  | input => "input"
  | print => "print"
  | println => "println"
  | returnWord => "return"
  | not => "not"
  | and => "and"
  | or => "or"
  | xor => "xor"
  | trueWord => "true"
  | falseWord => "false"

/-- The word as messages show it. Only the name of the language is written in capitals. -/
def text : Keyword → String
  | cd20 => "CD20"
  | k => k.spelling

def label (k : Keyword) : String := k.spelling.capitalize

/-- The keyword a word is, if it is one. The case of ASCII letters does not matter. -/
def ofWord? (word : List Char) : Option Keyword :=
  let lower := String.ofList (word.map Char.toLower)
  all.find? fun k => k.spelling = lower

theorem mem_all (k : Keyword) : k ∈ all := by cases k <;> decide

end Keyword

end StackCompiler
