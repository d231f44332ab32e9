import StackCompiler.Code.Emitter

/-!
# Code of expressions

The code of an expression pushes its value. Operands are evaluated from left to right; the
arguments of a call are pushed from the last to the first. The machine compares only with zero, so
numbers are subtracted first, and booleans are equal if exactly one of them being true is false.
-/

namespace StackCompiler.Emitter

def binaryOperation? : Node.Kind → Option Operation
  | .and => some .and
  | .or => some .or
  | .xor => some .xor
  | .add => some .add
  | .subtract => some .sub
  | .multiply => some .mul
  | .divide => some .div
  | .modulo => some .rem
  | .power => some .pow
  | _ => none

/-- The comparison with zero that decides a relation between numbers by their difference. -/
def relationOperation? : Node.Kind → Option Operation
  | .equal => some .eq
  | .notEqual => some .ne
  | .greater => some .gt
  | .greaterEq => some .ge
  | .less => some .lt
  | .lessEq => some .le
  | _ => none

def binaryCode (kind : Node.Kind) (left right : Option (Emitter Unit)) (op : Operation) :
    Emitter Unit := do
  let left ← childOf kind left
  let right ← childOf kind right
  left
  right
  emitOp op

def relationCode (kind : Node.Kind) (left right : Option (Emitter Unit))
    (leftSymbol : Option Symbol.Id) (op : Operation) : Emitter Unit := do
  let _ ← childOf kind left
  let type := (leftSymbol.map (← get).scopes.valueType).getD .void
  if type.isBoolean then
    binaryCode kind left right .xor
    match kind with
    | .equal => emitOp .not
    | .notEqual => return
    | _ => misplaced kind .booleanComparison
  else
    binaryCode kind left right .sub
    emitOp op

/-- Code of a call, given the number of arguments and the code that pushes them. A function that
yields a value finds a slot for it below the arguments. -/
def callCode (kind : Node.Kind) (symbol : Option Symbol.Id) (count : Nat)
    (arguments : Emitter Unit) : Emitter Unit := do
  let function ← symbolOf kind symbol
  unless (((← get).scopes.symbol? function).map fun s => s.kind.isFunction).getD false do
    misplaced kind .call
  unless (← valueType function).isVoid do
    emitOp .zero
  arguments
  emitCount count
  emitAddress function
  emitOp .js2

def argumentItems (arguments : Option Node) : List Node :=
  (arguments.map fun n => n.items .expressionList).getD []

/-- Code of a node of the given kind, given the code for it as an expression. A list is none. -/
def single (kind : Node.Kind) (code : Emitter Unit) : Emitter Unit :=
  if kind = .expressionList then misplaced kind .expression else code

/-- Code that pushes the values of a list of expressions, the last one first. An expression is a
list of one. -/
def values : Node → Emitter Unit
  | .mk kind _ symbol l _ r =>
    let all := match l with
      | some n => values n
      | none => pure ()
    let left := match l with
      | some n => some (single n.kind (values n))
      | none => none
    let right := match r with
      | some n => some (single n.kind (values n))
      | none => none
    let rest := match r with
      | some n => values n
      | none => pure ()
    match kind with
    | .expressionList => do
      rest
      left.getD (pure ())
    | .intLiteral | .realLiteral | .reference => do emitValue (← symbolOf kind symbol)
    | .trueLiteral => emitOp .pushTrue
    | .falseLiteral => emitOp .pushFalse
    | .call => callCode kind symbol (argumentItems l).length all
    | .not => do
      let operand ← childOf kind left
      operand
      emitOp .not
    | kind =>
      match binaryOperation? kind, relationOperation? kind with
      | some op, _ => binaryCode kind left right op
      | none, some op => relationCode kind left right (l.bind Node.symbol) op
      | none, none => misplaced kind .expression

def value (n : Node) : Emitter Unit := single n.kind (values n)

end StackCompiler.Emitter
