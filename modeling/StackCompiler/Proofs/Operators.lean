import StackCompiler.Proofs.Grammar

/-!
# Operators

The node that an operator makes tells the operator. What a parser does about an operator depends on
the kind of the next token only, so it is taken apart into looking at that kind and going on.
-/

namespace StackCompiler.Parser

section

variable {k : Token.Kind} {op : Node.Kind}

theorem logicalOperator?_eq (h : logicalOperator? k = some op) :
    k = op.operator ∧ op ∈ Node.Kind.logical := by
  unfold logicalOperator? at h
  split at h <;> cases h <;> decide

theorem relationOperator?_eq (h : relationOperator? k = some op) :
    k = op.operator ∧ op ∈ Node.Kind.relations := by
  unfold relationOperator? at h
  split at h <;> cases h <;> decide

theorem sumOperator?_eq (h : sumOperator? k = some op) :
    k = op.operator ∧ op ∈ [Node.Kind.add, .subtract] := by
  unfold sumOperator? at h
  split at h <;> cases h <;> decide

theorem productOperator?_eq (h : productOperator? k = some op) :
    k = op.operator ∧ op ∈ [Node.Kind.multiply, .divide, .modulo] := by
  unfold productOperator? at h
  split at h <;> cases h <;> decide

theorem assignOperator?_eq (h : assignOperator? k = some op) :
    k = op.operator ∧ op ∈ .assign :: Node.Kind.compoundAssignments := by
  unfold assignOperator? at h
  split at h <;> cases h <;> decide

end

def look {γ : Type} (φ : Token.Kind → γ) : Parser γ := fun s => .ok (φ s.stream.kind) s

/-- What follows an operand, once it is known whether there is another operator. -/
def chainLink (operand : Parser Node)
    (combine : Node.Kind → Node → Node → Token → Token → Token → Parser Node) (first : Token)
    (left : Node) : Option Node.Kind → Parser (Node ⊕ Node)
  | none => return .inr left
  | some c => do
    let op ← advance
    let next ← peek
    let right ← operand
    return .inl (← combine c left right first next op)

/-- A relation, negated behind a `not`. -/
def negated (negation : Option Token) (first : Token) (node : Node) : Parser Node :=
  match negation with
  | some t => do
    checkBoolean node first
    typed (.unary .not node) .bool t
  | none => return node

/-- What follows the first side of a relation. -/
def otherSide (expression : Parser Node) (negation : Option Token) (first : Token) (left : Node) :
    Option Node.Kind → Parser Node
  | some c => do
    let op ← advance
    let right ← sum expression
    let node ← compare c left right op
    negated negation first node
  | none => negated negation first left

/-- A relation, behind a `not` if there is one. -/
def relationBehind (expression : Parser Node) (negation : Option Token) : Parser Node := do
  let first ← peek
  let left ← sum expression
  look relationOperator? >>= otherSide expression negation first left

theorem relation_eq (e : Parser Node) : relation e = is (.keyword .not) >>= fun c =>
    if c then advance >>= fun t => relationBehind e (some t) else relationBehind e none := rfl

end StackCompiler.Parser
