import StackCompiler.Proofs.Postfix
import StackCompiler.Proofs.Simulation.Basic
import StackCompiler.Proofs.Subtrees

/-!
# Expressions on the machine

The code of an expression pushes its value, and the machine is stuck if there is none. Values have
the types that the scopes give to expressions.
-/

namespace StackCompiler

/-- Every variable has a value of its type, if it has one. -/
def Store.Typed (σ : Store) (s : Scopes) (ids : List Symbol.Id) : Prop :=
  ∀ id ∈ ids, ∀ v, σ id = some v → v.type = s.valueType id

/-- All variables with a name are among the given ones, and no function has a name. -/
structure Names.Within (names : Names) (s : Scopes) (ids : List Symbol.Id) : Prop where
  vars : ∀ text id t, names text = some id → s.IsVariable id t → id ∈ ids
  functions : ∀ text id, names text = some id → ¬ s.IsFunction id

namespace Scopes

variable {s : Scopes} {names : Names} {ids : List Symbol.Id} {n : Node} {t : DataType}

theorem Typed.ne_real (ht : s.Typed n t) (hp : n.IsPlain s.valueType) : t ≠ .real := by
  obtain ⟨id, hid, ht⟩ := ht
  rw [← ht.valueType]
  exact hp.2 id hid

theorem Typed.eq_int (ht : s.Typed n t) (hp : n.IsPlain s.valueType) (hn : t.isNumeric) :
    t = .int := by
  have hreal := ht.ne_real hp
  cases t <;> first | rfl | contradiction

theorem IsExpression.computes (h : s.IsExpression names n) (hN : names.Within s ids)
    (hp : n.All (Node.IsPlain s.valueType)) (ht : s.Typed n t) : s.Computes n t := by
  have hof {n : Node} {t : DataType} (ht : s.Typed n t) (h : ∃ u, s.Computes n u) :
      s.Computes n t := by
    obtain ⟨u, hu⟩ := h
    exact hu.typed.unique ht ▸ hu
  -- types are unique, so any type will do
  refine hof ht ?_
  clear ht
  induction h with
  | integer hn hr hs => exact ⟨_, .integer hn (hs.hasType (by simp) rfl)⟩
  | real hx hr hs => exact absurd (hs.hasType (by simp) rfl).valueType (hp.self.2 _ rfl)
  | truth hk hb => exact ⟨_, .truth hk hb⟩
  | @reference text id t hn hv =>
    have htype := hv.hasType
    have hreal : s.Typed (variableNode text id) t := ⟨_, rfl, htype⟩
    obtain ⟨sym, -, hv⟩ := hv
    rcases hv.scalar with h | h | h
    · exact ⟨_, .reference htype (.inl h)⟩
    · exact absurd h (hreal.ne_real hp.self)
    · exact ⟨_, .reference htype (.inr h)⟩
  | call hn hc =>
    obtain ⟨sym, hs, hk, -⟩ := hc
    exact absurd ⟨sym, hs, hk⟩ (hN.functions _ _ hn)
  | not hn hb hty ih => exact ⟨_, .not (hof hb (ih (hp.left _ rfl))) hty⟩
  | logical hk hl hr tl tr hty ihl ihr =>
    exact ⟨_, .operation (.inl ⟨hk, rfl⟩) (hof tl (ihl (hp.left _ rfl)))
      (hof tr (ihr (hp.right _ rfl))) hty⟩
  | arithmetic hk hl hr tl tr nt nu hty ihl ihr =>
    obtain rfl := tl.eq_int (hp.left _ rfl).self nt
    obtain rfl := tr.eq_int (hp.right _ rfl).self nu
    exact ⟨_, .operation (.inr ⟨hk, rfl⟩) (hof tl (ihl (hp.left _ rfl)))
      (hof tr (ihr (hp.right _ rfl))) hty⟩
  | relation hk hl hr tl tr hc hty ihl ihr =>
    rcases hc with ⟨nt, nu⟩ | ⟨hk', rfl, rfl⟩
    · obtain rfl := tl.eq_int (hp.left _ rfl).self nt
      obtain rfl := tr.eq_int (hp.right _ rfl).self nu
      exact ⟨_, .relation hk (.inl rfl) (hof tl (ihl (hp.left _ rfl)))
        (hof tr (ihr (hp.right _ rfl))) hty⟩
    · exact ⟨_, .relation hk (.inr ⟨hk', rfl⟩) (hof tl (ihl (hp.left _ rfl)))
        (hof tr (ihr (hp.right _ rfl))) hty⟩

/-- The operand is an expression without real numbers. -/
def IsOperand (s : Scopes) (names : Names) (o : Node) : Prop :=
  s.IsExpression names o ∧ o.IsPlain s.valueType

theorem IsExpression.leaves (h : s.IsExpression names n)
    (hp : n.All (Node.IsPlain s.valueType)) : ∀ o ∈ n.leaves, s.IsOperand names o := by
  intro o ho
  obtain ⟨hmem, hleaf⟩ := List.mem_filter.1 ho
  have hall : n.All fun m => (m.left.isNone && m.right.isNone) = true → s.IsExpression names m :=
    h.all (fun m hm _ => hm) fun k a m _ hleaf => by cases hleaf
  exact ⟨hall o hmem hleaf, hp o hmem⟩

theorem typed_of_leaves {σ : Store} (hN : names.Within s ids)
    (hσ : σ.Typed s ids) (ho : ∀ o ∈ n.leaves, s.IsOperand names o) :
    ∀ o ∈ n.leaves, o.kind = .reference →
      ∀ id v, o.symbol = some id → σ id = some v → v.type = s.valueType id := by
  intro o hm hk id v hid
  obtain ⟨he, -⟩ := ho o hm
  cases he with
  | reference hn hvar =>
    cases hid
    exact hσ _ (hN.vars _ _ _ hn hvar) v
  | truth hk' => rcases hk' with rfl | rfl <;> cases hk
  | integer | real | call => cases hk
  | _ => cases (List.mem_filter.1 hm).2

end Scopes

namespace Machine

variable {M : Machine} {s L : Scopes} {ids : List Symbol.Id} {names : Names} {p : Nat}
  {stack : List Cell} {st : State} {n : Node} {t : DataType}

theorem Serves.yields_operand (hM : M.Serves s L ids) (hN : names.Within s ids) {o : Node}
    (ho : s.IsOperand names o) (hleaf : (o.left.isNone && o.right.isNone) = true)
    (hc : M.Holds L p [o.load]) : M.Yields (st.config ids p stack) (o.eval M.arithmetic st.store)
      fun v => st.config ids (p + span [o.load]) (.value v :: stack) := by
  obtain ⟨he, hp⟩ := ho
  cases he with
  | @integer text id m hm hr hs =>
    have heval : (Node.mk .intLiteral (some text) (some id) none none none).eval M.arithmetic
        st.store = some (.int m) := by
      rw [Node.eval.eq_def]
      simp only [Option.bind_some, hm, Option.map_some]
    rw [heval]
    exact Holds.leads_integer hc hM hr hs
  | real hx hr hs => exact absurd (hs.hasType (by simp) rfl).valueType (hp.2 _ rfl)
  | truth hk => rcases hk with rfl | rfl <;> exact Holds.leads_op hc rfl rfl
  | reference hn hv => exact Holds.yields_variable hc hM (hN.vars _ _ _ hn hv)
  | call hn hc' =>
    obtain ⟨sym, hs, hk, -⟩ := hc'
    exact absurd ⟨sym, hs, hk⟩ (hN.functions _ _ hn)
  | _ => cases hleaf

theorem Holds.yields_items {items : List Item}
    (hop : ∀ o, Item.op o ∈ items → o.combines = true)
    (hload : ∀ o, Item.operand o ∈ items → ∀ p stack, M.Holds L p [o.load] →
      M.Yields (st.config ids p stack) (o.eval M.arithmetic st.store)
        fun v => st.config ids (p + span [o.load]) (.value v :: stack))
    (h : M.Holds L p (items.map Item.line)) :
    M.Yields (st.config ids p stack) (items.foldlM (M.apply st.store) stack)
      fun stack' => st.config ids (p + span (items.map Item.line)) stack' := by
  induction items generalizing p stack with
  | nil => exact .refl _
  | cons i items ih =>
    rw [List.map_cons] at h
    have hhead : M.Holds L p [i.line] := (show M.Holds L p ([i.line] ++ _) from h).left
    have hi : M.Yields (st.config ids p stack) (M.apply st.store stack i)
        fun stack' => st.config ids (p + span [i.line]) stack' := by
      cases i with
      | operand o => exact (hload o (by simp) p stack hhead).map fun v _ => .refl _
      | op o =>
        have ho := hop o (by simp)
        have hw : o.width = 0 ∧ o ≠ .halt := by cases o <;> cases ho <;> simp [Operation.width]
        exact hhead.yields_op hw.1 hw.2 (execute_of_combines ho _ _ _ _)
    rw [List.foldlM_cons, List.map_cons, span_cons, ← Nat.add_assoc]
    refine hi.bind fun stack' _ => ?_
    exact ih (fun o ho => hop o (by simp [ho])) (fun o ho => hload o (by simp [ho])) h.tail

variable (M s L ids st) in
/-- Wherever the code of the expression stands, it pushes the value. -/
def Pushes (n : Node) : Prop :=
  ∀ p stack, M.Holds L p (Assembly.values s.valueType n) →
    M.Yields (st.config ids p stack) (n.eval M.arithmetic st.store)
      fun v => st.config ids (p + span (Assembly.values s.valueType n)) (.value v :: stack)

theorem Serves.pushes_of_computes (hM : M.Serves s L ids) (hN : names.Within s ids)
    (hσ : st.store.Typed s ids) (h : s.Computes n t)
    (ho : ∀ o ∈ n.leaves, s.IsOperand names o) : M.Pushes s L ids st n := by
  obtain ⟨items, hitems⟩ := exists_evaluates h (Scopes.typed_of_leaves hN hσ ho)
  intro p stack hc
  rw [hitems.code] at hc ⊢
  have hload (o : Node) (hm : Item.operand o ∈ items) : o ∈ n.leaves := by
    rw [← hitems.leaves]
    exact List.mem_filterMap.2 ⟨_, hm, rfl⟩
  have hy : M.Yields (st.config ids p stack) _ _ := hc.yields_items hitems.combines
    fun o hm p stack => hM.yields_operand hN (ho o (hload o hm)) (List.mem_filter.1 (hload o hm)).2
  rw [hitems.result] at hy
  cases hv : n.eval M.arithmetic st.store with
  | none =>
    rw [hv] at hy
    exact hy
  | some v =>
    rw [hv] at hy
    exact hy

theorem Serves.pushes (hM : M.Serves s L ids) (hN : names.Within s ids)
    (hσ : st.store.Typed s ids) (h : s.IsExpression names n)
    (hp : n.All (Node.IsPlain s.valueType)) : M.Pushes s L ids st n := by
  obtain ⟨t, ht, -⟩ := h.typed
  exact hM.pushes_of_computes hN hσ (h.computes hN hp ht) (h.leaves hp)

end Machine

theorem Scopes.IsExpression.eval_type {A : Arithmetic} {s : Scopes} {names : Names}
    {ids : List Symbol.Id} {σ : Store} {n : Node} {t : DataType} {v : Value}
    (h : s.IsExpression names n) (hN : names.Within s ids)
    (hp : n.All (Node.IsPlain s.valueType)) (hσ : σ.Typed s ids) (ht : s.Typed n t)
    (hv : n.eval A σ = some v) : v.type = t := by
  obtain ⟨items, hitems⟩ := Machine.exists_evaluates (h.computes hN hp ht)
    (typed_of_leaves hN hσ (h.leaves hp))
  exact hitems.type A v hv

end StackCompiler
