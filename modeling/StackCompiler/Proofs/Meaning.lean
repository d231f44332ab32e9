import StackCompiler.Proofs.Typing

/-!
# The meaning of programs

What a program without functions, input and real numbers does, told by its tree: expressions have
values, statements relate the state before to the state after, and a return ends the program.
Integers are exact. How to multiply, divide and raise to a power is left open.
-/

namespace StackCompiler

inductive Value where
  | int (n : Int)
  | bool (b : Bool)
deriving DecidableEq, Repr

namespace Value

def type : Value → DataType
  | int _ => .int
  | bool _ => .bool

def bool? : Value → Option Bool
  | int _ => none
  | bool b => some b

end Value

/-- What a program prints. -/
inductive Output where
  | value (v : Value)
  | text (t : String)
  | newLine
deriving DecidableEq, Repr

/-- Operations on integers, which may fail. -/
structure Arithmetic where
  mul : Int → Int → Option Int
  div : Int → Int → Option Int
  rem : Int → Int → Option Int
  pow : Int → Int → Option Int

abbrev Store := Symbol.Id → Option Value

def Store.set (σ : Store) (id : Symbol.Id) (v : Value) : Store :=
  fun other => if other = id then some v else σ other

/-- The value that a node of the given kind makes of those of its operands. -/
def Arithmetic.combine? (A : Arithmetic) (k : Node.Kind) : Value → Value → Option Value
  | .int a, .int b =>
    match k with
    | .add => some (.int (a + b))
    | .subtract => some (.int (a - b))
    | .multiply => (A.mul a b).map .int
    | .divide => (A.div a b).map .int
    | .modulo => (A.rem a b).map .int
    | .power => (A.pow a b).map .int
    | .equal => some (.bool (a = b))
    | .notEqual => some (.bool (a ≠ b))
    | .greater => some (.bool (a > b))
    | .greaterEq => some (.bool (a ≥ b))
    | .less => some (.bool (a < b))
    | .lessEq => some (.bool (a ≤ b))
    | _ => none
  | .bool a, .bool b =>
    match k with
    | .and => some (.bool (a && b))
    | .or => some (.bool (a || b))
    | .xor => some (.bool (a ^^ b))
    | .equal => some (.bool (a == b))
    | .notEqual => some (.bool (a != b))
    | _ => none
  | _, _ => none

def Node.eval (A : Arithmetic) (σ : Store) : Node → Option Value
  | .mk kind text symbol l _ r =>
    let left := match l with
      | some n => n.eval A σ
      | none => none
    let right := match r with
      | some n => n.eval A σ
      | none => none
    match kind with
    | .intLiteral => (text.bind Text.readWord?).map .int
    | .trueLiteral => some (.bool true)
    | .falseLiteral => some (.bool false)
    | .reference => symbol.bind σ
    | .not => (left.bind Value.bool?).map fun b => .bool !b
    | kind => left.bind fun a => right.bind fun b => A.combine? kind a b

theorem Node.eval_not (A : Arithmetic) (σ : Store) (v : Option String) (s : Option Symbol.Id)
    (n : Node) (c r : Option Node) : (Node.mk .not v s (some n) c r).eval A σ =
      ((n.eval A σ).bind Value.bool?).map fun b => .bool !b := by
  cases r <;> rfl

theorem Node.eval_binary (A : Arithmetic) (σ : Store) {k : Kind} (v : Option String)
    (s : Option Symbol.Id) (l r : Node) (c : Option Node)
    (hk : k ∈ Kind.logical ++ Kind.arithmetic ++ Kind.relations) :
    (Node.mk k v s (some l) c (some r)).eval A σ =
      (l.eval A σ).bind fun a => (r.eval A σ).bind fun b => A.combine? k a b := by
  fin_cases hk <;> rfl

structure State where
  store : Store
  output : List Output

namespace Node

variable (A : Arithmetic)

/-- The operation of a compound assignment. -/
def compoundKind? : Kind → Option Kind
  | .addAssign => some .add
  | .subAssign => some .subtract
  | .mulAssign => some .multiply
  | .divAssign => some .divide
  | _ => none

def assign (n : Node) (σ : Store) : Option Store :=
  n.symbol.bind fun target =>
    let given := n.right.bind (eval A σ)
    let value := match compoundKind? n.kind with
      | none => given
      | some k => (σ target).bind fun old => given.bind (A.combine? k old)
    value.map (σ.set target)

def assignAll (n : Option Node) (σ : Store) : Option Store :=
  (listed .assignList n).foldlM (fun σ n => assign A n σ) σ

def printEntry (n : Node) (st : State) : Option State :=
  let entry := if n.kind = .string then n.value.map .text else (n.eval A st.store).map .value
  entry.map fun e => { st with output := st.output ++ [e] }

def print (n : Node) (st : State) : Option State :=
  ((listed .printList n.left).foldlM (fun st n => printEntry A n st) st).map fun st =>
    if n.kind = .println then { st with output := st.output ++ [.newLine] } else st

def test (n : Option Node) (st : State) : Option Bool :=
  (n.bind (eval A st.store)).bind Value.bool?

end Node

/-- Whether the program goes on after a statement. -/
inductive Flow where
  | running
  | stopped
deriving DecidableEq, Repr

/-- How the state after a statement can follow from the one before it. -/
abbrev Meaning := State → Flow → State → Prop

namespace Meaning

def skip : Meaning := fun st flow st' => flow = .running ∧ st' = st

def stop : Meaning := fun st flow st' => flow = .stopped ∧ st' = st

def update (f : State → Option State) : Meaning := fun st flow st' => flow = .running ∧ f st = some st'

def andThen (P Q : Meaning) : Meaning := fun st flow st'' =>
  (flow = .stopped ∧ P st .stopped st'') ∨ ∃ st', P st .running st' ∧ Q st' flow st''

theorem andThen_skip (P : Meaning) : P.andThen skip = P := by
  funext st flow st''
  cases flow <;> simp [andThen, skip]

def choose (test : State → Option Bool) (P Q : Meaning) : Meaning := fun st flow st' =>
  (test st = some true ∧ P st flow st') ∨ (test st = some false ∧ Q st flow st')

/-- Goes on as long as the condition holds, which is tested first. -/
inductive whileTrue (test : State → Option Bool) (P : Meaning) : Meaning
  | done {st : State} (ht : test st = some false) : whileTrue test P st .running st
  | stop {st st' : State} (ht : test st = some true) (h : P st .stopped st') :
      whileTrue test P st .stopped st'
  | next {st st' st'' : State} {flow : Flow} (ht : test st = some true) (h : P st .running st')
      (hw : whileTrue test P st' flow st'') : whileTrue test P st flow st''

/-- Goes on until the condition holds, which is tested last. -/
inductive untilTrue (test : State → Option Bool) (P : Meaning) : Meaning
  | done {st st' : State} (h : P st .running st') (ht : test st' = some true) :
      untilTrue test P st .running st'
  | stop {st st' : State} (h : P st .stopped st') : untilTrue test P st .stopped st'
  | next {st st' st'' : State} {flow : Flow} (h : P st .running st') (ht : test st' = some false)
      (hu : untilTrue test P st' flow st'') : untilTrue test P st flow st''

end Meaning

namespace Node

variable (A : Arithmetic)

/-- The effect on the state of something that only concerns the variables. -/
def onStore (f : Store → Option Store) (st : State) : Option State :=
  (f st.store).map fun σ => { st with store := σ }

def exec : Node → Meaning
  | .mk kind text symbol l c r =>
    let n := Node.mk kind text symbol l c r
    let left := match l with
      | some n => n.exec
      | none => .skip
    let centre := match c with
      | some n => n.exec
      | none => .skip
    let right := match r with
      | some n => n.exec
      | none => .skip
    match kind with
    | .statements => .andThen left right
    | .assign | .addAssign | .subAssign | .mulAssign | .divAssign => .update (onStore (assign A n))
    | .forLoop => .andThen (.update (onStore (assignAll A l))) (.whileTrue (test A c) right)
    | .ifThen => .choose (test A l) centre .skip
    | .ifElse => .choose (test A l) centre right
    | .repeatLoop => .andThen (.update (onStore (assignAll A l))) (.untilTrue (test A r) centre)
    | .print | .println => .update (print A n)
    | .returns => .stop
    | _ => fun _ _ _ => False

def execOf (n : Option Node) : Meaning := n.elim .skip (exec A)

section Shapes

variable {A} {v : Option String} {s : Option Symbol.Id} {l c r : Option Node}

theorem exec_assignment {k : Kind} (hk : k = .assign ∨ k ∈ Kind.compoundAssignments) :
    (mk k v s l c r).exec A = .update (onStore (assign A (mk k v s l c r))) := by
  rw [← List.mem_cons] at hk
  fin_cases hk <;> cases l <;> cases c <;> cases r <;> rfl

theorem exec_print {k : Kind} (hk : k = .print ∨ k = .println) :
    (mk k v s l c r).exec A = .update (print A (mk k v s l c r)) := by
  rcases hk with rfl | rfl <;> cases l <;> cases c <;> cases r <;> rfl

theorem exec_forLoop : (mk .forLoop v s l c r).exec A =
    .andThen (.update (onStore (assignAll A l))) (.whileTrue (test A c) (execOf A r)) := by
  cases l <;> cases c <;> cases r <;> rfl

theorem exec_repeatLoop : (mk .repeatLoop v s l c r).exec A =
    .andThen (.update (onStore (assignAll A l))) (.untilTrue (test A r) (execOf A c)) := by
  cases l <;> cases c <;> cases r <;> rfl

theorem exec_ifThen : (mk .ifThen v s l c r).exec A = .choose (test A l) (execOf A c) .skip := by
  cases l <;> cases c <;> cases r <;> rfl

theorem exec_ifElse :
    (mk .ifElse v s l c r).exec A = .choose (test A l) (execOf A c) (execOf A r) := by
  cases l <;> cases c <;> cases r <;> rfl

theorem exec_returns : (mk .returns v s l c r).exec A = .stop := by
  cases l <;> cases c <;> cases r <;> rfl

theorem execOf_list_cons (n : Node) (rest : List Node) :
    execOf A (list .statements (n :: rest)) =
      .andThen (n.exec A) (execOf A (list .statements rest)) := by
  rw [list_cons]
  cases list .statements rest with
  | none => exact (Meaning.andThen_skip _).symm
  | some m => rfl

end Shapes

def initConstant (n : Node) (σ : Store) : Option Store :=
  n.symbol.bind fun target => (n.left.bind (eval A σ)).map (σ.set target)

/-- The values of all named constants, each computed from those before it. -/
def initAll (root : Node) (σ : Store) : Option Store :=
  root.constantNodes.foldlM (fun σ n => initConstant A n σ) σ

/-- The program ends with the given output and values, whether or not by a return, if its variables
have the values of `σ₀` before. -/
def Runs (root : Node) (σ₀ : Store) (output : List Output) (σ : Store) : Prop :=
  ∃ σ₁, initAll A root σ₀ = some σ₁ ∧
    ∃ flow, execOf A (root.right.bind right) ⟨σ₁, []⟩ flow ⟨σ, output⟩

def declared (root : Node) : List Symbol.Id :=
  (root.constantNodes ++ root.variableNodes).filterMap symbol

/-- The node does not read input and does not stand for a real number. -/
def IsPlain (types : Symbol.Id → DataType) (n : Node) : Prop :=
  n.kind ≠ .input ∧ ∀ id ∈ n.symbol, types id ≠ .real

instance (types : Symbol.Id → DataType) : DecidablePred (IsPlain types) := fun _ =>
  inferInstanceAs (Decidable (_ ∧ _))

end Node

end StackCompiler
