import StackCompiler.Text.Blank
import StackCompiler.Text.Letter
import StackCompiler.Text.Numeral
import StackCompiler.Text.Numeric
import StackCompiler.Token.Basic

/-!
# From text to tokens

A lexer is the text that is left and the place where it starts. Blanks and comments are skipped,
then the longest token at the head of the text is cut off. Every text gives tokens: what fits no
token of the language becomes an undefined one.
-/

namespace StackCompiler

/-- The text that is left to read, and the place of its first character. -/
structure Lexer where
  rest : List Char
  position : Position
deriving Repr

namespace Lexer

def ofString (source : String) : Lexer := ⟨source.toList, .start⟩

def atEnd (l : Lexer) : Bool := l.rest.isEmpty

def drop : Nat → Lexer → Lexer
  | 0, l => l
  | n + 1, ⟨c :: rest, p⟩ => drop n ⟨rest, p.next c⟩
  | _ + 1, l => l

theorem drop_rest (n : Nat) (l : Lexer) : (l.drop n).rest = l.rest.drop n := by
  induction n generalizing l with
  | zero => rfl
  | succ n ih =>
    obtain ⟨rest, p⟩ := l
    cases rest with
    | nil => rfl
    | cons c rest => simpa [drop] using ih ⟨rest, p.next c⟩

/-! ## Blanks and comments -/

/-- The length of a text through the first two stars and slash, or to its end if there are none. -/
def closingLength : List Char → Nat
  | '*' :: '*' :: '/' :: _ => 3
  | _ :: rest => closingLength rest + 1
  | [] => 0

/-- The length of the blank or the comment at the head of a text, if there is one. A comment starts
with a slash and two dashes and runs through the end of the line, or starts with a slash and two
stars and runs through the next two stars and slash. The end of the source ends either. -/
def triviaLength : List Char → Option Nat
  | '/' :: '-' :: '-' :: rest => some ((rest.takeWhile (· ≠ '\n')).length + 4)
  | '/' :: '*' :: '*' :: rest => some (closingLength rest + 3)
  | c :: _ => if Text.isBlank c then some 1 else none
  | [] => none

theorem triviaLength_pos {cs : List Char} {n : Nat} (h : triviaLength cs = some n) : 0 < n := by
  unfold triviaLength at h
  split at h
  · injection h; omega
  · injection h; omega
  · split at h
    · injection h; omega
    · contradiction
  · contradiction

theorem ne_nil_of_triviaLength {cs : List Char} {n : Nat} (h : triviaLength cs = some n) :
    cs ≠ [] := by
  rintro rfl
  simp [triviaLength] at h

def skipTrivia (l : Lexer) : Lexer :=
  match _h : triviaLength l.rest with
  | some n => skipTrivia (l.drop n)
  | none => l
termination_by l.rest.length
decreasing_by
  have := triviaLength_pos _h
  have := List.length_pos_iff.2 (ne_nil_of_triviaLength _h)
  rw [drop_rest, List.length_drop]
  omega

/-! ## Tokens -/

def isWordChar (c : Char) : Bool := Text.isLetter c || Text.isNumeric c

def isSpecial (c : Char) : Bool := ",[]()=+-*/%^<>:!;.\"".toList.contains c

def isUndefinedChar (c : Char) : Bool := !Text.isBlank c && !isWordChar c && !isSpecial c

structure Cut where
  kind : Token.Kind
  lexeme : Option (List Char)
  -- The number of characters after the first one.
  more : Nat
deriving Repr

def Cut.single (kind : Token.Kind) : Cut := ⟨kind, none, 0⟩

def Cut.compound (single withEq : Token.Kind) : List Char → Cut
  | '=' :: _ => ⟨withEq, none, 1⟩
  | _ => .single single

def Cut.word (c : Char) (rest : List Char) : Cut :=
  let more := rest.takeWhile isWordChar
  match Keyword.ofWord? (c :: more) with
  | some k => ⟨.keyword k, none, more.length⟩
  | none => ⟨.ident, some (c :: more), more.length⟩

/-- A number. A point belongs to it only if a digit follows the point. -/
def Cut.number (c : Char) (rest : List Char) : Cut :=
  let whole := rest.takeWhile Text.isDigit
  match rest.drop whole.length with
  | '.' :: d :: after =>
    if Text.isDigit d then
      let text := whole ++ '.' :: d :: after.takeWhile Text.isDigit
      ⟨.real, some (c :: text), text.length⟩
    else ⟨.integer, some (c :: whole), whole.length⟩
  | _ => ⟨.integer, some (c :: whole), whole.length⟩

/-- A string. One that is not closed on its line is undefined text. -/
def Cut.string (rest : List Char) : Cut :=
  let body := rest.takeWhile fun c => c ≠ '"' && c ≠ '\n'
  match rest.drop body.length with
  | '"' :: _ => ⟨.string, some body, body.length + 1⟩
  | _ => ⟨.undefined, some ('"' :: body), body.length⟩

def Cut.undefined (c : Char) (rest : List Char) : Cut :=
  let more := rest.takeWhile isUndefinedChar
  ⟨.undefined, some (c :: more), more.length⟩

def cut (c : Char) (rest : List Char) : Cut :=
  match c with
  | ',' => .single .comma
  | '[' => .single .leftBracket
  | ']' => .single .rightBracket
  | '(' => .single .leftParen
  | ')' => .single .rightParen
  | '%' => .single .percent
  | '^' => .single .caret
  | ':' => .single .colon
  | ';' => .single .semicolon
  | '.' => .single .dot
  | '=' => .compound .assign .eqEq rest
  | '+' => .compound .plus .plusEq rest
  | '-' => .compound .minus .minusEq rest
  | '*' => .compound .star .starEq rest
  | '/' => .compound .slash .slashEq rest
  | '<' => .compound .less .lessEq rest
  | '>' => .compound .greater .greaterEq rest
  | '!' => .compound .bang .notEq rest
  | '"' => .string rest
  | c =>
    if Text.isDigit c then .number c rest
    else if Text.isLetter c then .word c rest
    else .undefined c rest

/-- The next token, and the lexer after it. At the end of the text this is the end of the source,
as often as it is asked for. -/
def next (l : Lexer) : Token × Lexer :=
  let l := l.skipTrivia
  match l.rest with
  | [] => (.eof l.position, l)
  | c :: rest =>
    let t := cut c rest
    (⟨t.kind, t.lexeme.map String.ofList, l.position⟩, l.drop (t.more + 1))

theorem length_skipTrivia_le (l : Lexer) : l.skipTrivia.rest.length ≤ l.rest.length := by
  fun_induction skipTrivia l with
  | case1 l n h ih => rw [drop_rest, List.length_drop] at ih; omega
  | case2 l h => exact Nat.le_refl _

theorem length_next_lt {l : Lexer} (h : l.next.1.kind ≠ .eof) :
    l.next.2.rest.length < l.rest.length := by
  have hle := length_skipTrivia_le l
  cases hr : l.skipTrivia.rest with
  | nil => simp [next, hr, Token.eof] at h
  | cons c rest =>
    rw [hr, List.length_cons] at hle
    simp only [next, hr, drop_rest, List.length_drop, List.length_cons]
    omega

def tokensAfter (acc : List Token) (l : Lexer) : List Token :=
  let t := l.next
  if _h : t.1.kind = .eof then (t.1 :: acc).reverse else tokensAfter (t.1 :: acc) t.2
termination_by l.rest.length
decreasing_by exact length_next_lt _h

def tokens (l : Lexer) : List Token := l.tokensAfter []

end Lexer

/-- The tokens of a source. The last one, and no other, marks its end. -/
def tokensOf (source : String) : List Token := (Lexer.ofString source).tokens

/-- Where the characters of a source are known, its tokens are found without decoding it. -/
theorem tokensOf_chars (source : String) {cs : List Char} (h : source = String.ofList cs) :
    tokensOf source = Lexer.tokens ⟨cs, .start⟩ := by
  rw [tokensOf, Lexer.ofString, h, String.toList_ofList]

theorem append_eq_ofList {a b : String} {cs ds : List Char} (ha : a = String.ofList cs)
    (hb : b = String.ofList ds) : a ++ b = String.ofList (cs ++ ds) := by
  rw [ha, hb, String.ofList_append]

end StackCompiler
