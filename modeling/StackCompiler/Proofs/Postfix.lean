import StackCompiler.Proofs.Machine

/-!
# Expressions in postfix order

The code of an expression without calls pushes operands and combines what lies on top of the stack.
What becomes of the stack depends on the values of the operands only, not on where the code, the
variables and the literals are.
-/

namespace StackCompiler

/-- Trees of expressions without calls and real numbers, with the types of their values. Every node
is bound to a symbol of its type. -/
inductive Scopes.Computes (s : Scopes) : Node → DataType → Prop
  | integer {text : String} {id : Symbol.Id} {n : Int} (hn : Text.readWord? text = some n)
      (ht : s.HasType id .int) :
      Computes s (.mk .intLiteral (some text) (some id) none none none) .int
  | truth {k : Node.Kind} {text : Option String} {id : Symbol.Id}
      (hk : k = .trueLiteral ∨ k = .falseLiteral) (ht : s.HasType id .bool) :
      Computes s (.mk k text (some id) none none none) .bool
  | reference {text : Option String} {id : Symbol.Id} {t : DataType} (ht : s.HasType id t)
      (hv : t = .int ∨ t = .bool) :
      Computes s (.mk .reference text (some id) none none none) t
  | not {text : Option String} {id : Symbol.Id} {n : Node} (hn : Computes s n .bool)
      (ht : s.HasType id .bool) : Computes s (.mk .not text (some id) (some n) none none) .bool
  | operation {k : Node.Kind} {text : Option String} {id : Symbol.Id} {l r : Node} {t : DataType}
      (hk : k ∈ Node.Kind.logical ∧ t = .bool ∨ k ∈ Node.Kind.arithmetic ∧ t = .int)
      (hl : Computes s l t) (hr : Computes s r t) (ht : s.HasType id t) :
      Computes s (.mk k text (some id) (some l) none (some r)) t
  | relation {k : Node.Kind} {text : Option String} {id : Symbol.Id} {l r : Node} {t : DataType}
      (hk : k ∈ Node.Kind.relations)
      (hc : t = .int ∨ (k = .equal ∨ k = .notEqual) ∧ t = .bool) (hl : Computes s l t)
      (hr : Computes s r t) (ht : s.HasType id .bool) :
      Computes s (.mk k text (some id) (some l) none (some r)) .bool

theorem Scopes.Computes.typed {s : Scopes} {n : Node} {t : DataType} (h : s.Computes n t) :
    s.Typed n t := by
  cases h <;> exact ⟨_, rfl, by assumption⟩

namespace Node

def leaves (n : Node) : List Node := n.nodes.filter fun m => m.left.isNone && m.right.isNone

section Leaves

variable {k : Kind} {text : Option String} {symbol : Option Symbol.Id} {l r : Node}

theorem leaves_unary : (mk k text symbol (some l) none none).leaves = l.leaves := by
  simp [leaves, nodes_mk, left]

theorem leaves_binary : (mk k text symbol (some l) none (some r)).leaves =
    l.leaves ++ r.leaves := by
  simp [leaves, nodes_mk, left]

end Leaves

def load (n : Node) : Line :=
  match n.kind with
  | .trueLiteral => .op .pushTrue
  | .falseLiteral => .op .pushFalse
  | _ => .value (n.symbol.getD 0)

theorem Kind.mem_of_operation {k : Kind} {t : DataType}
    (hk : k ∈ logical ∧ t = .bool ∨ k ∈ arithmetic ∧ t = .int) : k ∈ logical ++ arithmetic := by
  rcases hk with ⟨hk, -⟩ | ⟨hk, -⟩ <;> simp [hk]

end Node

inductive Item where
  | operand (n : Node)
  | op (o : Operation)

namespace Item

def line : Item → Line
  | operand n => n.load
  | op o => .op o

def operand? : Item → Option Node
  | operand n => some n
  | op _ => none

end Item

theorem Assembly.relation_eq (k : Node.Kind) (t : DataType) (operands : List Line)
    (o : Operation) :
    Assembly.relation k t operands o = operands ++ Assembly.relation k t [] o := by
  unfold Assembly.relation
  split <;> simp

theorem Value.exists_int {v : Value} (h : v.type = .int) : ∃ n, v = .int n := by
  cases v with
  | int n => exact ⟨n, rfl⟩
  | bool b => cases h

theorem Value.exists_bool {v : Value} (h : v.type = .bool) : ∃ b, v = .bool b := by
  cases v with
  | int n => cases h
  | bool b => exact ⟨b, rfl⟩

namespace Arithmetic

variable {A : Arithmetic} {k : Node.Kind} {a b v : Value}

theorem type_of_arithmetic (hk : k ∈ Node.Kind.arithmetic) (h : A.combine? k a b = some v) :
    v.type = .int := by
  cases a with
  | bool a => fin_cases hk <;> cases b <;> cases h
  | int a =>
    cases b with
    | bool b => cases h
    | int b =>
      fin_cases hk
      · cases h
        rfl
      · cases h
        rfl
      all_goals
        obtain ⟨n, -, rfl⟩ := Option.map_eq_some_iff.1 h
        rfl

theorem type_of_truth (hk : k ∈ Node.Kind.logical ++ Node.Kind.relations)
    (h : A.combine? k a b = some v) : v.type = .bool := by
  fin_cases hk <;> cases a <;> cases b <;> cases h <;> rfl

end Arithmetic

/-- No operation on integers fails. -/
def Arithmetic.Total (A : Arithmetic) : Prop :=
  ∀ a b, (A.mul a b).isSome ∧ (A.div a b).isSome ∧ (A.rem a b).isSome ∧ (A.pow a b).isSome

/-- The operation combines values on top of the stack and does nothing else. -/
def Operation.combines : Operation → Bool
  | .add | .sub | .mul | .div | .rem | .pow => true
  | .gt | .ge | .lt | .le | .eq | .ne => true
  | .and | .or | .xor | .not => true
  | _ => false

namespace Machine

variable {M : Machine} {k : Node.Kind} {o : Operation} {t u : DataType} {stack : List Cell}

variable (M) in
/-- What an operation makes of the stack. -/
def compute (stack : List Cell) (o : Operation) : Option (List Cell) :=
  (M.execute o 0 ⟨0, stack, [], []⟩).map Config.stack

theorem execute_of_combines (ho : o.combines = true) (p : Nat) (stack : List Cell)
    (slots : List (Option Value)) (output : List Output) :
    M.execute o 0 ⟨p, stack, slots, output⟩ =
      (M.compute stack o).map fun stack' => ⟨p, stack', slots, output⟩ := by
  have hmap (x : Option Int) (rest : List Cell) :
      x.map (fun n => (⟨p, .value (.int n) :: rest, slots, output⟩ : Config)) =
        ((x.map fun n => (⟨0, .value (.int n) :: rest, [], []⟩ : Config)).map Config.stack).map
          fun stack' => ⟨p, stack', slots, output⟩ := by
    cases x <;> rfl
  cases o <;> cases ho <;>
    rcases stack with _ | ⟨(_ | _) | _, _ | ⟨(_ | _) | _, _⟩⟩ <;>
    first
    | rfl
    | exact hmap _ _

/-- The operations compute a node of kind `k` with operands of type `t`. -/
structure Combines (k : Node.Kind) (t u : DataType) (ops : List Operation) : Prop where
  combines : ∀ o ∈ ops, o.combines = true
  type : ∀ (A : Arithmetic) a b v, A.combine? k a b = some v → v.type = u
  total : ∀ A : Arithmetic, A.Total → ∀ a b, a.type = t → b.type = t → (A.combine? k a b).isSome
  result : ∀ (M : Machine) a b stack, a.type = t → b.type = t →
    ops.foldlM M.compute (.value b :: .value a :: stack) =
      (M.arithmetic.combine? k a b).map fun v => .value v :: stack

theorem combines_operation
    (hk : k ∈ Node.Kind.logical ∧ t = .bool ∨ k ∈ Node.Kind.arithmetic ∧ t = .int)
    (ho : Emitter.binaryOperation? k = some o) : Combines k t t [o] := by
  have hresult (M : Machine) (a b : Value) (stack : List Cell) : [o].foldlM M.compute
      (.value b :: .value a :: stack) =
        (M.arithmetic.combine? k a b).map fun v => .value v :: stack := by
    have hmap (x : Option Int) :
        (x.map fun n => (⟨0, .value (.int n) :: stack, [], []⟩ : Config)).map Config.stack =
          (x.map .int).map fun v => .value v :: stack := by
      cases x <;> rfl
    rw [List.foldlM_cons]
    simp only [List.foldlM_nil, bind_pure]
    cases k <;> cases ho <;> cases a <;> cases b <;>
      first
      | rfl
      | exact hmap _
  have hcombines : o.combines = true := by cases k <;> cases ho <;> rfl
  rcases hk with ⟨hk, rfl⟩ | ⟨hk, rfl⟩
  · refine ⟨by simp [hcombines], fun _ a b v => Arithmetic.type_of_truth (by simp [hk]),
      ?_, fun M a b stack _ _ => hresult M a b stack⟩
    intro _ _ a b ha hb
    obtain ⟨a, rfl⟩ := Value.exists_bool ha
    obtain ⟨b, rfl⟩ := Value.exists_bool hb
    fin_cases hk <;> rfl
  · refine ⟨by simp [hcombines], fun _ a b v => Arithmetic.type_of_arithmetic hk, ?_,
      fun M a b stack _ _ => hresult M a b stack⟩
    intro A hA a b ha hb
    obtain ⟨a, rfl⟩ := Value.exists_int ha
    obtain ⟨b, rfl⟩ := Value.exists_int hb
    obtain ⟨hmul, hdiv, hrem, hpow⟩ := hA a b
    fin_cases hk <;> simp [Arithmetic.combine?, *]

/-- Numbers are compared by their difference; truths are equal if not exactly one of them holds. -/
theorem combines_relation (hk : k ∈ Node.Kind.relations)
    (ho : Emitter.relationOperation? k = some o)
    (hc : t = .int ∨ (k = .equal ∨ k = .notEqual) ∧ t = .bool) :
    ∃ ops : List Operation, Assembly.relation k t [] o = ops.map .op ∧ Combines k t .bool ops := by
  have htype (A : Arithmetic) (a b v : Value) : A.combine? k a b = some v → v.type = .bool :=
    Arithmetic.type_of_truth (by simp [hk])
  rcases hc with rfl | ⟨hk', rfl⟩
  · refine ⟨[.sub, o], rfl, ?_, htype, fun _ _ a b ha hb => ?_, fun M a b stack ha hb => ?_⟩
    · cases k <;> cases ho <;> simp [Operation.combines]
    all_goals
      obtain ⟨a, rfl⟩ := Value.exists_int ha
      obtain ⟨b, rfl⟩ := Value.exists_int hb
    · cases k <;> cases ho <;> rfl
    · have htruth {b c : Bool} (h : b = c) : some (.value (.bool b) :: stack) =
          some (.value (.bool c) :: stack) := by rw [h]
      cases k <;> cases ho <;> exact htruth (decide_eq_decide.2 (by omega))
  · refine ⟨.xor :: if k = .equal then [.not] else [], ?_, ?_, htype, fun _ _ a b ha hb => ?_,
      fun M a b stack ha hb => ?_⟩
    · rcases hk' with rfl | rfl <;> rfl
    · rcases hk' with rfl | rfl <;> simp [Operation.combines]
    all_goals
      obtain ⟨a, rfl⟩ := Value.exists_bool ha
      obtain ⟨b, rfl⟩ := Value.exists_bool hb
    · rcases hk' with rfl | rfl <;> rfl
    · rcases hk' with rfl | rfl <;> cases a <;> cases b <;> rfl

/-! ## Expressions on the stack -/

variable {s : Scopes} {σ : Store} {n l r : Node} {text : Option String} {id : Symbol.Id}
  {xs ys : List Item}

variable (M σ) in
/-- What an item makes of the stack. -/
def apply (stack : List Cell) : Item → Option (List Cell)
  | .operand n => (n.eval M.arithmetic σ).map fun v => .value v :: stack
  | .op o => M.compute stack o

variable (s σ) in
/-- The items are the code of an expression of type `t`: together they push its value. -/
structure Evaluates (n : Node) (t : DataType) (items : List Item) : Prop where
  code : Assembly.values s.valueType n = items.map Item.line
  leaves : items.filterMap Item.operand? = n.leaves
  combines : ∀ o, Item.op o ∈ items → o.combines = true
  type : ∀ A v, n.eval A σ = some v → v.type = t
  total : ∀ A : Arithmetic, A.Total → (∀ o ∈ n.leaves, (o.eval A σ).isSome) → (n.eval A σ).isSome
  result : ∀ (M : Machine) stack, items.foldlM (M.apply σ) stack =
    (n.eval M.arithmetic σ).map fun v => .value v :: stack

theorem evaluates_operand {k : Node.Kind}
    (hcode : Assembly.values s.valueType (.mk k text (some id) none none none) =
      [(Node.mk k text (some id) none none none).load])
    (htype : ∀ A v, (Node.mk k text (some id) none none none).eval A σ = some v → v.type = t) :
    Evaluates s σ (.mk k text (some id) none none none) t
      [.operand (.mk k text (some id) none none none)] where
  code := hcode
  leaves := rfl
  combines := by simp
  type := htype
  total _ _ h := h _ (List.mem_singleton_self _)
  result M stack := by simp [apply]

theorem Evaluates.not (h : Evaluates s σ n .bool xs) :
    Evaluates s σ (.mk .not text (some id) (some n) none none) .bool (xs ++ [.op .not]) where
  code := by
    rw [List.map_append, ← h.code]
    rfl
  leaves := by
    rw [List.filterMap_append, h.leaves, Node.leaves_unary]
    exact List.append_nil _
  combines o ho := by
    rcases List.mem_append.1 ho with ho | ho
    · exact h.combines o ho
    · cases List.mem_singleton.1 ho
      rfl
  type A v hv := by
    rw [Node.eval_not] at hv
    obtain ⟨b, -, rfl⟩ := Option.map_eq_some_iff.1 hv
    rfl
  total A hA ho := by
    rw [Node.leaves_unary] at ho
    obtain ⟨v, hv⟩ := Option.isSome_iff_exists.1 (h.total A hA ho)
    obtain ⟨b, rfl⟩ := Value.exists_bool (h.type A v hv)
    rw [Node.eval_not, hv]
    rfl
  result M stack := by
    rw [List.foldlM_append, h.result, Node.eval_not]
    cases hv : n.eval M.arithmetic σ with
    | none => rfl
    | some v =>
      obtain ⟨b, rfl⟩ := Value.exists_bool (h.type _ v hv)
      rfl

theorem Evaluates.binary {k : Node.Kind} {ops : List Operation} (hl : Evaluates s σ l t xs)
    (hr : Evaluates s σ r t ys) (h : Combines k t u ops)
    (hk : k ∈ Node.Kind.logical ++ Node.Kind.arithmetic ++ Node.Kind.relations)
    (hcode : Assembly.values s.valueType (.mk k text (some id) (some l) none (some r)) =
      Assembly.values s.valueType l ++ (Assembly.values s.valueType r ++ ops.map .op)) :
    Evaluates s σ (.mk k text (some id) (some l) none (some r)) u
      (xs ++ (ys ++ ops.map .op)) where
  code := by
    rw [hcode, hl.code, hr.code]
    simp [Item.line]
  leaves := by
    have hops : (ops.map Item.op).filterMap Item.operand? = [] := by
      simp [List.filterMap_map, Function.comp_def, Item.operand?]
    rw [List.filterMap_append, List.filterMap_append, hl.leaves, hr.leaves, hops,
      List.append_nil, Node.leaves_binary]
  combines o ho := by
    simp only [List.mem_append, List.mem_map] at ho
    rcases ho with ho | ho | ⟨o', ho, heq⟩
    · exact hl.combines o ho
    · exact hr.combines o ho
    · cases heq
      exact h.combines o ho
  type A v hv := by
    rw [Node.eval_binary _ _ _ _ _ _ _ hk, Option.bind_eq_some_iff] at hv
    obtain ⟨a, -, hv⟩ := hv
    obtain ⟨b, -, hv⟩ := Option.bind_eq_some_iff.1 hv
    exact h.type A a b v hv
  total A hA ho := by
    rw [Node.leaves_binary, List.forall_mem_append] at ho
    obtain ⟨a, ha⟩ := Option.isSome_iff_exists.1 (hl.total A hA ho.1)
    obtain ⟨b, hb⟩ := Option.isSome_iff_exists.1 (hr.total A hA ho.2)
    rw [Node.eval_binary _ _ _ _ _ _ _ hk, ha, hb]
    exact h.total A hA a b (hl.type A a ha) (hr.type A b hb)
  result M stack := by
    have hops (stack : List Cell) :
        (ops.map Item.op).foldlM (M.apply σ) stack = ops.foldlM M.compute stack := by
      rw [List.foldlM_map]
      rfl
    rw [List.foldlM_append, hl.result, Node.eval_binary _ _ _ _ _ _ _ hk]
    cases ha : l.eval M.arithmetic σ with
    | none => rfl
    | some a =>
      show (ys ++ ops.map Item.op).foldlM (M.apply σ) (.value a :: stack) = _
      rw [List.foldlM_append, hr.result]
      cases hb : r.eval M.arithmetic σ with
      | none => rfl
      | some b =>
        show (ops.map Item.op).foldlM (M.apply σ) (.value b :: .value a :: stack) = _
        rw [hops]
        exact h.result M a b stack (hl.type _ a ha) (hr.type _ b hb)

/-- The code of an expression pushes the value, given variables that hold values of their types. -/
theorem exists_evaluates (h : s.Computes n t) (hσ : ∀ o ∈ n.leaves, o.kind = .reference →
    ∀ id v, o.symbol = some id → σ id = some v → v.type = s.valueType id) :
    ∃ items, Evaluates s σ n t items := by
  induction h with
  | integer =>
    refine ⟨_, evaluates_operand rfl fun A v hv => ?_⟩
    obtain ⟨m, -, rfl⟩ := Option.map_eq_some_iff.1 hv
    rfl
  | truth hk =>
    rcases hk with rfl | rfl
    all_goals
      refine ⟨_, evaluates_operand rfl fun A v hv => ?_⟩
      cases hv
      rfl
  | reference ht =>
    refine ⟨_, evaluates_operand rfl fun A v hv => ?_⟩
    exact (hσ _ (List.mem_singleton_self _) rfl _ v rfl hv).trans ht.valueType
  | not hn ht ih =>
    rw [Node.leaves_unary] at hσ
    obtain ⟨xs, hx⟩ := ih hσ
    exact ⟨_, hx.not⟩
  | operation hk hl hr ht ihl ihr =>
    rw [Node.leaves_binary, List.forall_mem_append] at hσ
    obtain ⟨xs, hx⟩ := ihl hσ.1
    obtain ⟨ys, hy⟩ := ihr hσ.2
    have hmem := Node.Kind.mem_of_operation hk
    obtain ⟨o, ho⟩ := Emitter.exists_binaryOperation hmem
    exact ⟨_, hx.binary hy (combines_operation hk ho) (List.mem_append_left _ hmem)
      (Assembly.values_binary ho)⟩
  | relation hk hc hl hr ht ihl ihr =>
    rw [Node.leaves_binary, List.forall_mem_append] at hσ
    obtain ⟨xs, hx⟩ := ihl hσ.1
    obtain ⟨ys, hy⟩ := ihr hσ.2
    obtain ⟨o, ho⟩ := Emitter.exists_relationOperation hk
    obtain ⟨ops, hops, hcombines⟩ := combines_relation hk ho hc
    -- the left operand's type decides how the two are compared
    obtain ⟨id, hid, hty⟩ := hl.typed
    refine ⟨_, hx.binary hy hcombines (by simp [hk]) ?_⟩
    rw [Assembly.values_relation ho, Assembly.relation_eq, hid, Option.map_some, Option.getD_some,
      hty.valueType, hops, List.append_assoc]

end Machine

end StackCompiler
