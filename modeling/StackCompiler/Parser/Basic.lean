import StackCompiler.Log
import StackCompiler.Token.Stream

/-!
# Parsers

A parser reads tokens from a stream. It declares symbols and opens scopes on its way, reports what
is odd and logs what it does, and ends with a value or with an error. The state it has reached is
there in either case.

Recursion and repetition are tied to the stream: a parser runs itself again only when fewer tokens
are left than before.
-/

namespace StackCompiler

structure Parser.State where
  stream : TokenStream
  scopes : Scopes
  -- What was reported, the latest last.
  diagnostics : Array Diagnostic
  log : Log
  -- The function whose body is read, if any.
  function : Option Symbol.Id
  -- The number of open parentheses around the expression that is read.
  depth : Nat

abbrev Parser := EStateM ParseError Parser.State

namespace Parser

variable {α β : Type}

def peek : Parser Token := return (← get).stream.current

def advance : Parser Token :=
  modifyGet fun s => (s.stream.current, { s with stream := s.stream.advance })

def is (k : Token.Kind) : Parser Bool := return (← get).stream.kind = k

def atEnd : Parser Bool := is .eof

def accept (k : Token.Kind) : Parser Bool :=
  modifyGet fun s =>
    let (found, stream) := s.stream.accept k
    (found, { s with stream := stream })

def fail (t : Token) (f : Fault) : Parser α := throw ⟨t, f⟩

def unexpected (what : String) : Parser α := do throw ((← get).stream.unexpected what)

def expect (k : Token.Kind) : Parser Token := fun s =>
  match s.stream.expect k with
  | (.ok t, stream) => .ok t { s with stream := stream }
  | (.error e, stream) => .error e { s with stream := stream }

def warn (t : Token) (n : Notice) : Parser Unit :=
  let d := Diagnostic.warning t n
  modify fun s =>
    { s with diagnostics := s.diagnostics.push d, log := s.log.push (.warned d.remark) }

/-- Consumes a separator. If it is missing, goes on as if it were there. -/
def separator (k : Token.Kind) : Parser Unit := do
  unless ← accept k do
    warn (← peek) (.missing k)

/-- Fails because no token was consumed where one had to be. -/
def noProgress : Parser α := do fail (← peek) .noProgress

/-- A parser that runs itself on what is left of the stream after at least one token. -/
def fix (body : Parser α → Parser α) : Parser α := fun s =>
  body (fun s' =>
    if s'.stream.remaining < s.stream.remaining then fix body s' else noProgress s') s
termination_by s => s.stream.remaining

/-- Runs `step` until it ends with a result. Each step but the last consumes tokens. -/
def loop (step : β → Parser (β ⊕ α)) (b : β) : Parser α := fun s =>
  match step b s with
  | .ok (.inr a) s' => .ok a s'
  | .ok (.inl b') s' =>
    if s'.stream.remaining < s.stream.remaining then loop step b' s' else noProgress s'
  | .error e s' => .error e s'
termination_by s => s.stream.remaining

def commaList (item : Parser α) : Parser (List α) :=
  loop (fun before => do
    let items := (← item) :: before
    if ← accept .comma then return .inl items else return .inr items.reverse) []

/-- Items one after the other, as long as `more` says that there is another. -/
def whileList (more : Parser Bool) (item : Parser α) : Parser (List α) :=
  loop (fun before => do
    if ← more then return .inl ((← item) :: before) else return .inr before.reverse) []

/-- Operands with operators between them, which associate to the left. `combine` joins what was
read so far and the next operand; it is given the first token of the whole, the first token of the
operand and the operator. -/
def leftChain (operand : Parser Node) (operator? : Token.Kind → Option Node.Kind)
    (combine : Node.Kind → (left right : Node) → (first next op : Token) → Parser Node) :
    Parser Node := do
  let first ← peek
  let left ← operand
  loop (fun left => do
    match operator? (← peek).kind with
    | none => return .inr left
    | some k =>
      let op ← advance
      let next ← peek
      let right ← operand
      return .inl (← combine k left right first next op)) left

def createScope (name : String) : Parser Unit :=
  modify fun s =>
    { s with scopes := s.scopes.create name, log := s.log.push (.scopeCreated name) }

def leaveScope : Parser Unit := modify fun s => { s with scopes := s.scopes.leave }

/-- The name of the scope of a statement: that of the scope around it, the construct, and the place
of its first token. -/
def statementScope (construct : String) (t : Token) : Parser String := do
  let outer := (← get).scopes.current?.getD "global"
  return outer ++ "::" ++ construct ++ "@" ++ t.position.text

def resolve (name : String) : Parser (Option Symbol.Id) := return (← get).scopes.resolve name

def symbol? (id : Symbol.Id) : Parser (Option Symbol) := return (← get).scopes.symbol? id

def checkFresh (t : Token) : Parser Unit := do
  if (← get).scopes.declaresHere t.text then fail t (.duplicate t.text)

def declare (t : Token) (sym : Symbol) (region : Option Region) : Parser Symbol.Id := do
  checkFresh t
  modifyGet fun s =>
    let (id, scopes) := s.scopes.declare sym region
    let log := match region, (scopes.symbol? id).bind Symbol.storage with
      | some _, some st => s.log.push (.bound sym.kind sym.name st)
      | _, _ => s.log
    (id, { s with scopes := scopes, log := log })

def addAttribute (id : Symbol.Id) (a : Symbol.Attribute) : Parser Unit :=
  modify fun s => { s with scopes := s.scopes.addAttribute id a }

def typeOf (n : Node) : Parser DataType :=
  return (n.symbol.map (← get).scopes.valueType).getD .void

def typed (n : Node) (type : DataType) (t : Token) : Parser Node :=
  modifyGet fun s =>
    let (id, scopes) := s.scopes.addTemporary type t.position
    (n.withSymbol id, { s with scopes := scopes })

/-- The symbol of a literal in the pool. The same text always has the same symbol. -/
def intern (key : String) (t : Token) (kind : Symbol.Kind) (type : DataType)
    (value : Symbol.Attribute) : Parser Symbol.Id :=
  modifyGet fun s =>
    match s.scopes.resolveConstant key with
    | some id => (id, s)
    | none =>
      let sym := Symbol.new kind key t.position [value, .dataType type]
      let (id, scopes) := s.scopes.addConstant key sym
      (id, { s with scopes := scopes })

end Parser

end StackCompiler
