import StackCompiler.Program.Code
import StackCompiler.Proofs.Layout
import StackCompiler.Proofs.Typing

/-!
# The code of a program, written down

The instructions of every part of a program, given the types of its symbols and the position of the
part. Where an emitter has to come back to a jump, the target is written down at once.
-/

namespace StackCompiler

/-- An instruction before the places of symbols are known. -/
inductive Line where
  | op (o : Operation)
  /-- Loads a number of slots or arguments. -/
  | count (n : Nat)
  /-- Loads the value of a symbol. -/
  | value (id : Symbol.Id)
  /-- Loads the address of a symbol. -/
  | address (id : Symbol.Id)
  /-- Loads an address in the code. -/
  | jump (target : Nat)
deriving DecidableEq

def Line.instruction : Line → Instruction
  | op o => .ofOperation o
  | count n =>
    if n ≤ Emitter.maxByte then .plain .lb (bigEndian 1 n) else .plain .lh (bigEndian 2 n)
  | value id => .pending .pendingValue id
  | address id => .pending .pendingAddress id
  | jump target => Emitter.jump target

/-- The operand of the instruction can hold what the line loads. -/
def Line.Fits : Line → Prop
  | count n => n ≤ Emitter.maxHalf
  | jump target => target ≤ maxOffset
  | _ => True

def span (lines : List Line) : Nat := sizeOfAll (lines.map Line.instruction)

section Span

variable (l : Line) (lines more : List Line)

@[simp] theorem span_nil : span [] = 0 := rfl

@[simp] theorem span_cons : span (l :: lines) = l.instruction.size + span lines := by simp [span]

@[simp] theorem span_append : span (lines ++ more) = span lines + span more := by simp [span]

@[simp] theorem size_op (o : Operation) : (Line.op o).instruction.size = 1 := rfl

@[simp] theorem size_value (id : Symbol.Id) : (Line.value id).instruction.size = 5 := rfl

@[simp] theorem size_address (id : Symbol.Id) : (Line.address id).instruction.size = 5 := rfl

@[simp] theorem size_jump (target : Nat) : (Line.jump target).instruction.size = 5 := by
  simp [Line.instruction, Emitter.jump, Instruction.size, Instruction.operands]

end Span

namespace Assembly

section Expressions

variable (types : Symbol.Id → DataType)

def call (function : Symbol.Id) (arity : Nat) (arguments : List Line) : List Line :=
  (if (types function).isVoid then [] else [.op .zero]) ++ arguments ++
    [.count arity, .address function, .op .js2]

def relation (kind : Node.Kind) (t : DataType) (operands : List Line) (o : Operation) :
    List Line :=
  if t.isBoolean then operands ++ .op .xor :: (if kind = .equal then [.op .not] else [])
  else operands ++ [.op .sub, .op o]

/-- Code that pushes the value of an expression, or those of a list of them, the last one first. -/
def values : Node → List Line
  | .mk kind _ symbol l _ r =>
    let left := match l with
      | some n => values n
      | none => []
    let right := match r with
      | some n => values n
      | none => []
    match kind with
    | .expressionList => right ++ left
    | .intLiteral | .realLiteral | .reference => [.value (symbol.getD 0)]
    | .trueLiteral => [.op .pushTrue]
    | .falseLiteral => [.op .pushFalse]
    | .call => call types (symbol.getD 0) (Emitter.argumentItems l).length left
    | .not => left ++ [.op .not]
    | kind =>
      match Emitter.binaryOperation? kind, Emitter.relationOperation? kind with
      | some o, _ => left ++ right ++ [.op o]
      | none, some o =>
        relation kind (((l.bind Node.symbol).map types).getD .void) (left ++ right) o
      | none, none => []

def valuesOf (n : Option Node) : List Line := n.elim [] (values types)

section Shapes

variable {types} {k : Node.Kind} {v : Option String} {s : Option Symbol.Id} {l r : Node}
  {c : Option Node} {o : Operation}

theorem values_binary (hk : Emitter.binaryOperation? k = some o) :
    values types (.mk k v s (some l) c (some r)) =
      values types l ++ (values types r ++ [.op o]) := by
  rw [← List.append_assoc]
  cases k <;> cases hk <;> rfl

theorem values_relation (hk : Emitter.relationOperation? k = some o) :
    values types (.mk k v s (some l) c (some r)) =
      relation k ((l.symbol.map types).getD .void) (values types l ++ values types r) o := by
  cases k <;> cases hk <;> rfl

theorem values_call (args r : Option Node) :
    values types (.mk .call v s args c r) =
      call types (s.getD 0) (Emitter.argumentItems args).length (valuesOf types args) := by
  cases args <;> cases r <;> rfl

end Shapes

theorem valuesOf_list (args : List Node) :
    valuesOf types (Node.list .expressionList args) = args.reverse.flatMap (values types) := by
  induction args with
  | nil => rfl
  | cons a args ih =>
    rw [Node.list_cons, List.reverse_cons, List.flatMap_append, ← ih]
    cases Node.list .expressionList args with
    | none => simp [valuesOf]
    | some rest => exact congrArg (values types rest ++ ·) (List.flatMap_singleton _ _).symm

end Expressions

/-! ## Statements -/

section Statements

variable (types : Symbol.Id → DataType)

def assignment (n : Node) : List Line :=
  let target := n.symbol.getD 0
  match Emitter.compoundOperation? n.kind with
  | none => .address target :: valuesOf types n.right ++ [.op .st]
  | some o => .address target :: .value target :: valuesOf types n.right ++ [.op o, .op .st]

def assignments (n : Option Node) : List Line :=
  (Node.listed .assignList n).flatMap (assignment types)

def read (n : Node) : List Line :=
  let target := n.symbol.getD 0
  [.address target, .op (if types target = .int then .readInt else .readReal), .op .st]

def input (n : Node) : List Line := (Node.listed .variableList n.left).flatMap (read types)

def printEntry (n : Node) : List Line :=
  if n.kind = .string then [.address (n.symbol.getD 0), .op .printString]
  else values types n ++ [.op .printValue]

def print (n : Node) : List Line :=
  (Node.listed .printList n.left).flatMap (printEntry types) ++
    if n.kind = .println then [.op .newLine] else []

def returns (routine : Emitter.Routine) (n : Node) : List Line :=
  match routine, n.left with
  | .main, _ => [.op .halt]
  | .function, none => [.op .retn]
  | .function, some result => values types result ++ [.op .rval, .op .retn]

section Jumps

variable (p : Nat) (start test : List Line) (body otherwise : Nat → List Line)

def ifThen : List Line :=
  let q := p + 5 + span test + 1
  let b := body q
  .jump (q + span b) :: (test ++ .op .bf :: b)

def ifElse : List Line :=
  let q := p + 5 + span test + 1
  let b := body q
  let q' := q + span b + 5 + 1
  let o := otherwise q'
  .jump q' :: (test ++ .op .bf :: (b ++ .jump (q' + span o) :: .op .br :: o))

def forLoop : List Line :=
  let top := p + span start
  let q := top + 5 + span test + 1
  let b := body q
  start ++ .jump (q + span b + 5 + 1) :: (test ++ .op .bf :: (b ++ [.jump top, .op .br]))

def repeatLoop : List Line :=
  let top := p + span start
  start ++ (body top ++ .jump top :: (test ++ [.op .bf]))

end Jumps

/-- Code of the statements of a block, by the position where it starts. -/
def block (routine : Emitter.Routine) : Node → Nat → List Line
  | .mk kind text symbol l c r =>
    let n := Node.mk kind text symbol l c r
    let left := match l with
      | some n => block routine n
      | none => fun _ => []
    let centre := match c with
      | some n => block routine n
      | none => fun _ => []
    let right := match r with
      | some n => block routine n
      | none => fun _ => []
    fun p => match kind with
    | .statements => left p ++ right (p + span (left p))
    | .assign | .addAssign | .subAssign | .mulAssign | .divAssign => assignment types n
    | .forLoop => forLoop p (assignments types l) (valuesOf types c) right
    | .ifThen => ifThen p (valuesOf types l) centre
    | .ifElse => ifElse p (valuesOf types l) centre right
    | .repeatLoop => repeatLoop p (assignments types l) (valuesOf types r) centre
    | .input => input types n
    | .print | .println => print types n
    | .returns => returns types routine n
    | .callStatement =>
      call types (symbol.getD 0) (Emitter.argumentItems l).length (valuesOf types l)
    | _ => []

def blockOf (routine : Emitter.Routine) (n : Option Node) (p : Nat) : List Line :=
  n.elim [] fun n => block types routine n p

section Shapes

variable {types} {routine : Emitter.Routine} {v : Option String} {s : Option Symbol.Id}
  {l c r : Option Node} {p : Nat}

theorem block_forLoop : block types routine (.mk .forLoop v s l c r) p =
    forLoop p (assignments types l) (valuesOf types c) (blockOf types routine r) := by
  cases l <;> cases c <;> cases r <;> rfl

theorem block_ifThen : block types routine (.mk .ifThen v s l c r) p =
    ifThen p (valuesOf types l) (blockOf types routine c) := by
  cases l <;> cases c <;> cases r <;> rfl

theorem block_ifElse : block types routine (.mk .ifElse v s l c r) p =
    ifElse p (valuesOf types l) (blockOf types routine c) (blockOf types routine r) := by
  cases l <;> cases c <;> cases r <;> rfl

theorem block_repeatLoop : block types routine (.mk .repeatLoop v s l c r) p =
    repeatLoop p (assignments types l) (valuesOf types r) (blockOf types routine c) := by
  cases l <;> cases c <;> cases r <;> rfl

theorem block_assignment {k : Node.Kind} (hk : k = .assign ∨ k ∈ Node.Kind.compoundAssignments) :
    block types routine (.mk k v s l c r) p = assignment types (.mk k v s l c r) := by
  rw [← List.mem_cons] at hk
  fin_cases hk <;> cases l <;> cases c <;> cases r <;> rfl

theorem block_input : block types routine (.mk .input v s l c r) p =
    input types (.mk .input v s l c r) := by
  cases l <;> cases c <;> cases r <;> rfl

theorem block_print {k : Node.Kind} (hk : k = .print ∨ k = .println) :
    block types routine (.mk k v s l c r) p = print types (.mk k v s l c r) := by
  rcases hk with rfl | rfl <;> cases l <;> cases c <;> cases r <;> rfl

theorem block_returns : block types routine (.mk .returns v s l c r) p =
    returns types routine (.mk .returns v s l c r) := by
  cases l <;> cases c <;> cases r <;> rfl

theorem block_callStatement : block types routine (.mk .callStatement v s l c r) p =
    call types (s.getD 0) (Emitter.argumentItems l).length (valuesOf types l) := by
  cases l <;> cases c <;> cases r <;> rfl

end Shapes

theorem blockOf_binary (routine : Emitter.Routine) (n rest : Node) :
    blockOf types routine (some (Node.binary .statements n rest)) =
      fun p => block types routine n p ++
        block types routine rest (p + span (block types routine n p)) :=
  rfl

theorem blockOf_list_cons (routine : Emitter.Routine) (n : Node) (rest : List Node) (p : Nat) :
    blockOf types routine (Node.list .statements (n :: rest)) p =
      block types routine n p ++ blockOf types routine (Node.list .statements rest)
        (p + span (block types routine n p)) := by
  rw [Node.list_cons]
  cases Node.list .statements rest with
  | none => simp [blockOf]
  | some r => rw [Option.elim_some, blockOf_binary]; rfl

end Statements

section Programs

variable (types : Symbol.Id → DataType)

def alloc (slots : Nat) : List Line :=
  if slots = 0 then [] else [.count slots, .op .alloc]

def constant (n : Node) : List Line :=
  .address (n.symbol.getD 0) :: valuesOf types n.left ++ [.op .st]

/-- What main does before its statements: it reserves slots and computes the named constants. -/
def prologue (root : Node) : List Line :=
  alloc (root.constantNodes.length + root.variableNodes.length) ++
    root.constantNodes.flatMap (constant types)

def main (root : Node) : List Line :=
  prologue types root ++
    blockOf types .main (root.right.bind Node.right) (span (prologue types root)) ++ [.op .halt]

def function (n : Node) (p : Nat) : List Line :=
  let frame := alloc n.localNodes.length
  frame ++ blockOf types .function n.right (p + span frame) ++
    if Emitter.endsWithReturn n.right then [] else [.op .retn]

def functions (p : Nat) : List Node → List (List Line)
  | [] => []
  | n :: ns => function types n p :: functions (p + span (function types n p)) ns

/-- The code of main, and then of the functions, apart. -/
def segments (root : Node) : List (List Line) :=
  main types root :: functions types (span (main types root)) root.functionNodes

/-- The scopes once the functions from position `p` on have their entries. -/
def enter (S : Scopes) (p : Nat) : List Node → Scopes
  | [] => S
  | n :: ns => enter (S.setStorage (n.symbol.getD 0) ⟨.constants, p⟩)
      (p + span (function types n p)) ns

def program (root : Node) : List Line := (segments types root).flatten

end Programs

end Assembly

end StackCompiler
