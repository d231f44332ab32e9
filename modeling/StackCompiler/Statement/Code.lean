import StackCompiler.Expression.Code

/-!
# Code of statements

The code of a statement leaves the stack as it was, unless somewhere in it a function that yields a
value is called for its effect: the value stays. A branch pushes its target first, then the
condition.
-/

namespace StackCompiler.Emitter

inductive Routine where
  | main | function
deriving DecidableEq, Repr

def compoundOperation? : Node.Kind → Option Operation
  | .addAssign => some .add
  | .subAssign => some .sub
  | .mulAssign => some .mul
  | .divAssign => some .div
  | _ => none

def assignmentCode (n : Node) : Emitter Unit := do
  let target ← symbolOf n.kind n.symbol
  let source ← childOf n.kind n.right
  match n.kind, compoundOperation? n.kind with
  | .assign, _ =>
    emitAddress target
    value source
    emitOp .st
  | _, some op =>
    emitAddress target
    emitValue target
    value source
    emitOp op
    emitOp .st
  | kind, none => misplaced kind .assignment

def assignmentsCode (n : Option Node) : Emitter Unit := do
  if let some list := n then
    for item in list.items .assignList do
      assignmentCode item

def readCode (n : Node) : Emitter Unit := do
  let target ← symbolOf n.kind n.symbol
  match ← valueType target with
  | .int =>
    emitAddress target
    emitOp .readInt
    emitOp .st
  | .real =>
    emitAddress target
    emitOp .readReal
    emitOp .st
  | _ => misplaced n.kind .input

def inputCode (n : Node) : Emitter Unit := do
  for item in (← childOf n.kind n.left).items .variableList do
    readCode item

def printEntryCode (n : Node) : Emitter Unit := do
  if n.kind = .string then
    emitAddress (← symbolOf n.kind n.symbol)
    emitOp .printString
  else
    value n
    emitOp .printValue

def printCode (n : Node) : Emitter Unit := do
  for item in (← childOf n.kind n.left).items .printList do
    printEntryCode item
  if n.kind = .println then
    emitOp .newLine

def returnCode (routine : Routine) (n : Node) : Emitter Unit := do
  match routine with
  | .main => emitOp .halt
  | .function =>
    if let some result := n.left then
      value result
      emitOp .rval
    emitOp .retn

def ifCode (kind : Node.Kind) (scope : String) (test : Option Node)
    (body otherwise : Emitter Unit) : Emitter Unit := do
  enterScope scope
  let test ← childOf kind test
  let skip ← emitOpenJump
  value test
  emitOp .bf
  body
  if kind = .ifElse then
    let done ← emitOpenJump
    emitOp .br
    closeJump skip
    otherwise
    closeJump done
  else
    closeJump skip
  leaveScope

def forCode (kind : Node.Kind) (scope : String) (start test : Option Node) (body : Emitter Unit) :
    Emitter Unit := do
  enterScope scope
  assignmentsCode start
  let top ← position
  let done ← emitOpenJump
  value (← childOf kind test)
  emitOp .bf
  body
  emitJump top
  emitOp .br
  closeJump done
  leaveScope

def repeatCode (kind : Node.Kind) (scope : String) (start test : Option Node)
    (body : Emitter Unit) : Emitter Unit := do
  enterScope scope
  assignmentsCode start
  let top ← position
  body
  emitJump top
  value (← childOf kind test)
  emitOp .bf
  leaveScope

/-- Code of the statements of a block, in order. A statement is a block of one. -/
def blockCode (routine : Routine) : Node → Emitter Unit
  | .mk kind text symbol l c r =>
    let n := Node.mk kind text symbol l c r
    let centre := match c with
      | some n => blockCode routine n
      | none => pure ()
    let right := match r with
      | some n => blockCode routine n
      | none => pure ()
    match kind with
    | .statements => do
      match l with
      | some n =>
        if n.kind = .statements then misplaced n.kind .statement else blockCode routine n
      | none => pure ()
      right
    | .assign | .addAssign | .subAssign | .mulAssign | .divAssign => assignmentCode n
    | .forLoop => forCode kind n.valueText l c right
    | .ifThen | .ifElse => ifCode kind n.valueText l centre right
    | .repeatLoop => repeatCode kind n.valueText l r centre
    | .input => inputCode n
    | .print | .println => printCode n
    | .returns => returnCode routine n
    | .callStatement => callCode kind symbol (argumentItems l).length
        ((l.map values).getD (pure ()))
    | kind => misplaced kind .statement

end StackCompiler.Emitter
