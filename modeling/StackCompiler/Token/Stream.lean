import StackCompiler.Diagnostic.Fault

/-!
# Token streams

The tokens of a source with one of them current. Behind the last token the stream stays at the end
of the source.
-/

namespace StackCompiler

/-- Tokens, the index of the current one, and the place where the source ends. -/
structure TokenStream where
  tokens : Array Token
  finish : Position
  index : Nat
deriving Repr

namespace TokenStream

/-- A stream at the first of some prepared tokens. Their end has no place in any source. -/
def ofTokens (ts : List Token) : TokenStream := ⟨ts.toArray, ⟨0, 0⟩, 0⟩

/-- A stream at the first of the tokens that a source was cut into, which end with its end. -/
def ofSource (ts : List Token) : TokenStream :=
  ⟨ts.toArray, (ts.getLast?.map Token.position).getD .start, 0⟩

variable (s : TokenStream)

def current : Token := s.tokens.getD s.index (.eof s.finish)

def kind : Token.Kind := s.current.kind

def advance : TokenStream := { s with index := s.index + 1 }

def remaining : Nat := s.tokens.size - s.index

def atEnd : Bool := s.kind = .eof

def isExhausted : Bool := s.atEnd && s.tokens.size ≤ s.index + 1

def accept (k : Token.Kind) : Bool × TokenStream :=
  if s.kind = k then (true, s.advance) else (false, s)

def unexpected (what : String) : ParseError := ⟨s.current, .unexpected what s.current⟩

def expect (k : Token.Kind) : Except ParseError Token × TokenStream :=
  if s.kind = k then (.ok s.current, s.advance) else (.error (s.unexpected k.describe), s)

@[simp] theorem advance_tokens : s.advance.tokens = s.tokens := rfl

@[simp] theorem advance_finish : s.advance.finish = s.finish := rfl

@[simp] theorem advance_index : s.advance.index = s.index + 1 := rfl

theorem remaining_advance_lt (h : s.atEnd = false) : s.advance.remaining < s.remaining := by
  have hlt : s.index < s.tokens.size := by
    refine Nat.lt_of_not_le fun hle => ?_
    have : s.current = .eof s.finish := by
      simp [current, Array.getD, Nat.not_lt.2 hle]
    simp [atEnd, kind, this, Token.eof] at h
  simp only [remaining, advance_tokens, advance_index]
  omega

end TokenStream

end StackCompiler
