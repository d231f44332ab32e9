import StackCompiler.Keyword
import StackCompiler.Position

/-!
# Tokens

What the source text is made of once blanks and comments are left out.
-/

namespace StackCompiler

inductive Token.Kind where
  | comma | leftBracket | rightBracket | leftParen | rightParen
  | assign | plus | minus | star | slash | percent | caret
  | less | greater | colon | bang | semicolon | dot
  | lessEq | greaterEq | notEq | eqEq | plusEq | minusEq | starEq | slashEq
  | ident
  | keyword (word : Keyword)
  | integer | real | string
  -- Text that is no token of the language.
  | undefined
  | eof
deriving DecidableEq, Repr

namespace Token.Kind

def all : List Kind :=
  [comma, leftBracket, rightBracket, leftParen, rightParen,
   assign, plus, minus, star, slash, percent, caret,
   less, greater, colon, bang, semicolon, dot,
   lessEq, greaterEq, notEq, eqEq, plusEq, minusEq, starEq, slashEq,
   ident, integer, real, string, undefined, eof] ++ Keyword.all.map keyword

/-- The spelling of an operator, a delimiter or a keyword, and a name for every other kind. -/
def text : Kind → String
  | comma => ","
  | leftBracket => "["
  | rightBracket => "]"
  | leftParen => "("
  | rightParen => ")"
  | assign => "="
  | plus => "+"
  | minus => "-"
  | star => "*"
  | slash => "/"
  | percent => "%"
  | caret => "^"
  | less => "<"
  | greater => ">"
  | colon => ":"
  | bang => "!"
  | semicolon => ";"
  | dot => "."
  | lessEq => "<="
  | greaterEq => ">="
  | notEq => "!="
  | eqEq => "=="
  | plusEq => "+="
  | minusEq => "-="
  | starEq => "*="
  | slashEq => "/="
  | ident => "identifier"
  | keyword k => k.text
  | integer => "integer"
  | real => "real"
  | string => "string"
  | undefined => "undefined"
  | eof => "EOF"

def label : Kind → String
  | comma => "Comma"
  | leftBracket => "LeftBracket"
  | rightBracket => "RightBracket"
  | leftParen => "LeftParen"
  | rightParen => "RightParen"
  | assign => "Assign"
  | plus => "Plus"
  | minus => "Minus"
  | star => "Star"
  | slash => "Slash"
  | percent => "Percent"
  | caret => "Caret"
  | less => "Less"
  | greater => "Greater"
  | colon => "Colon"
  | bang => "Bang"
  | semicolon => "Semicolon"
  | dot => "Dot"
  | lessEq => "LessEq"
  | greaterEq => "GreaterEq"
  | notEq => "NotEq"
  | eqEq => "EqEq"
  | plusEq => "PlusEq"
  | minusEq => "MinusEq"
  | starEq => "StarEq"
  | slashEq => "SlashEq"
  | ident => "Ident"
  | keyword k => s!"Keyword({k.label})"
  | integer => "Integer"
  | real => "Real"
  | string => "String"
  | undefined => "Undefined"
  | eof => "Eof"

def describe : Kind → String
  | ident => "an identifier"
  | integer => "an integer literal"
  | real => "a real literal"
  | string => "a string literal"
  | undefined => "an undefined token"
  | eof => "end of file"
  | k => s!"'{k.text}'"

def ofLabel? (s : String) : Option Kind := all.find? fun k => k.label = s

theorem mem_all (k : Kind) : k ∈ all := by
  cases k with
  | keyword w => exact List.mem_append_right _ (List.mem_map_of_mem w.mem_all)
  | _ => exact List.mem_append_left _ (by decide)

end Token.Kind

/-- A token and the place of its first character. Identifiers, literals and undefined text carry
their characters, a string without its quotes. -/
structure Token where
  kind : Token.Kind
  lexeme : Option String
  position : Position
deriving DecidableEq, Repr

namespace Token

def eof (p : Position) : Token := ⟨.eof, none, p⟩

def text (t : Token) : String := t.lexeme.getD ""

def width (t : Token) : Nat :=
  match t.kind, t.lexeme with
  | .eof, _ => 1
  | .string, some s => s.length + 2
  | _, some s => max s.length 1
  | k, none => k.text.length

def describe (t : Token) : String :=
  match t.lexeme with
  | some s => s!"'{s}'"
  | none => t.kind.describe

end Token

end StackCompiler
