import StackCompiler.Proofs.Correspondence.Parsing

/-!
# Expressions that correspond

Types are the same up to names, so every check of operands, arguments and literals has the same
outcome in both streams. An operator, an operand or a parenthesis is consumed only once it is known
what it is, so an expression that is not finished ends before the end of the source.
-/

namespace StackCompiler.Correspondence

open StackCompiler.Parser

variable {r : Correspondence} {t u t' u' o o' : Token} {n n' m m' : Node} {k : Node.Kind}
  {p q : Parser Node}

theorem alike_grouped {α β : Type} {R : α → β → Prop} {p : Parser α} {q : Parser β}
    (h : r.Alike R p q) : r.Alike R (grouped p) (grouped q) := by
  intro s s' hs
  have hdepth {s s' : Parser.State} (hs : r.SameState s s') (f : Nat → Nat) :
      r.SameState { s with depth := f s.depth } { s' with depth := f s'.depth } :=
    { hs with
      depth := congrArg f hs.depth
      exact := fun hx => by rw [hs.exact hx] }
  have h := h _ _ (hdepth hs (· + 1))
  unfold grouped
  generalize p _ = x, q _ = y at h
  cases h with
  | ok h hs => exact .ok h (hdepth hs (· - 1))
  | error h hs => exact .error h (hdepth hs (· - 1))

theorem alike_checkBoolean (h : r.SameItem n n') (ht : r.SameToken t u) :
    r.Alike (fun _ _ => True) (checkBoolean n t) (checkBoolean n' u) := by
  refine (alike_typeOf h).bind fun x y hxy => ?_
  exact .ite (by rw [hxy.isBoolean]) (fun _ => .pure trivial) fun _ => alike_fail ht (by grind)

section Joining

variable (hk : k.isPlain = true) (h : r.SameItem n n') (h' : r.SameItem m m')
  (ht : r.SameToken t u) (ht' : r.SameToken t' u') (ho : r.SameToken o o')
include hk h h' ho

theorem alike_compare : r.Alike r.SameItem (compare k n m o) (compare k n' m' o') := by
  refine (alike_typeOf h).bind fun x y hxy => ?_
  refine (alike_typeOf h').bind fun x' y' hxy' => ?_
  refine alike_check ?_ ho (by grind) (alike_typed (.binary hk h h') .bool ho)
  simp only [comparable, hxy.isNumeric, hxy'.isNumeric, hxy.isBoolean, hxy'.isBoolean]

include ht ht'

theorem alike_logical :
    r.Alike r.SameItem (logical k n m t t' o) (logical k n' m' u u' o') := by
  refine (alike_checkBoolean h ht).bind fun _ _ _ => ?_
  refine (alike_checkBoolean h' ht').bind fun _ _ _ => ?_
  exact alike_typed (.binary hk h h') .bool ho

theorem alike_arithmetic :
    r.Alike r.SameItem (arithmetic k n m t t' o) (arithmetic k n' m' u u' o') := by
  refine (alike_typeOf h).bind fun x y hxy => ?_
  refine (alike_typeOf h').bind fun x' y' hxy' => ?_
  refine alike_check (by rw [hxy.isNumeric]) ht (by grind) ?_
  refine alike_check (by rw [hxy'.isNumeric]) ht' (by grind) ?_
  exact alike_typed (.binary hk h h') (hxy.join hxy') ho

end Joining

theorem alike_variableNamed (h : r.SameToken t u) (hk : t.kind = .ident) :
    r.Alike r.SameItem (variableNamed t) (variableNamed u) := by
  refine (alike_is .leftBracket).bind fun a b hab => ?_
  refine alike_refuse (by rw [hab]) h (by grind) ?_
  refine (alike_resolve (h.name hk)).bind ?_
  rintro id _ rfl
  cases id with
  | none => exact alike_fail h (by grind)
  | some id =>
    refine (alike_symbol? id).bind fun x y hxy => ?_
    rw [map_eq_of_rel hxy.rel fun _ _ h => h.kind]
    split
    · exact alike_fail h (by grind)
    · exact alike_fail h (by grind)
    · exact alike_fail h (by grind)
    · exact .pure (.leaf rfl (by grind))

/-- The first tokens of arguments correspond, and the arguments do. -/
structure SameArgument (r : Correspondence) (a b : Token × Node) : Prop where
  token : r.SameToken a.1 b.1
  node : r.SameItem a.2 b.2

theorem alike_checkArguments {as bs : List (Token × Node)}
    (h : List.Forall₂ r.SameArgument as bs) (params : List Symbol.Id) :
    r.Alike (fun _ _ => True) (checkArguments as params) (checkArguments bs params) := by
  induction h generalizing params with
  | nil => exact .pure trivial
  | cons hab _ ih =>
    cases params with
    | nil => exact .pure trivial
    | cons id params =>
      refine (alike_symbol? id).bind fun x y hxy => ?_
      refine (alike_typeOf hab.node).bind fun a b hty => ?_
      refine alike_check ?_ hab.token (fun hx => ?_) (ih params)
      · rw [hty.assignableTo (rel_getD (rel_bind hxy.rel fun _ _ h => h.dataType?) .void)]
      · rw [hty.eq hx, hxy.exact hx]

theorem alike_integerLiteral (h : r.SameToken t u) (literal : String) :
    r.Alike r.SameItem (integerLiteral t literal) (integerLiteral u literal) := by
  unfold integerLiteral
  cases Text.readWord? literal with
  | none => exact alike_fail h (by grind)
  | some v =>
    refine (alike_intern literal h .intConstant .int (.other rfl rfl)).bind ?_
    rintro id _ rfl
    exact .pure (.leaf rfl (by grind))

theorem alike_realLiteral (h : r.SameToken t u) (literal : String) :
    r.Alike r.SameItem (realLiteral t literal) (realLiteral u literal) := by
  unfold realLiteral
  cases Binary64.read? literal with
  | none => exact alike_fail h (by grind)
  | some v =>
    refine (alike_intern literal h .realConstant .real (.other rfl rfl)).bind ?_
    rintro id _ rfl
    exact .pure (.leaf rfl (by grind))

theorem alike_negated {neg neg' : Option Token} (hneg : Option.Rel r.SameToken neg neg')
    (ht : r.SameToken t u) (hn : r.SameItem n n') :
    r.Alike r.SameItem (negated neg t n) (negated neg' u n') := by
  cases hneg with
  | none => exact .pure hn
  | some ho =>
    refine (alike_checkBoolean hn ht).bind fun _ _ _ => ?_
    exact alike_typed (n := .unary .not n) (.plain rfl hn.tree .none .none (by grind)) .bool ho

section

variable (h : r.Alike r.SameItem p q)
include h

theorem alike_arguments : r.Alike (List.Forall₂ r.SameArgument) (arguments p) (arguments q) := by
  refine (alike_is .rightParen).bind fun a b hab => ?_
  refine .ite (by rw [hab]) (fun _ => .pure .nil) fun _ => ?_
  refine alike_commaList ?_
  refine alike_peek.bind fun t u ht => ?_
  exact h.bind fun n n' hn => .pure ⟨ht, hn⟩

theorem alike_callNamed (ht : r.SameToken t u) (hk : t.kind = .ident) (hs : k.isPlain = true) :
    r.Alike r.SameItem (callNamed p t k) (callNamed q u k) := by
  refine (alike_resolve (ht.name hk)).bind ?_
  rintro id _ rfl
  cases id with
  | none => exact alike_fail ht (by grind)
  | some id =>
    refine (alike_symbol? id).bind fun x y hxy => ?_
    refine alike_check ?_ ht (by grind) ?_
    · rw [map_eq_of_rel hxy.rel fun _ _ h => by rw [h.kind]]
    refine alike_skip (by simp) ?_
    refine (alike_arguments h).bind fun as bs hab => ?_
    refine alike_skip (by simp) ?_
    refine (alike_symbol? id).bind fun x' y' hxy' => ?_
    rw [map_eq_of_rel hxy'.rel fun _ _ h => h.parameters, hab.length_eq]
    refine alike_check Iff.rfl ht (by grind) ?_
    refine (alike_checkArguments hab _).bind fun _ _ _ => ?_
    refine .pure (.plain hs ?_ .none .none (by grind))
    exact .list rfl (List.rel_map (fun _ _ h => h.node) hab)

theorem alike_named (ht : r.SameToken t u) (hk : t.kind = .ident) :
    r.Alike r.SameItem (named p t) (named q u) := by
  refine (alike_is .leftParen).bind fun a b hab => ?_
  refine .ite (by rw [hab]) (fun _ => ?_) fun _ => alike_variableNamed ht hk
  refine (alike_callNamed h ht hk rfl).bind fun n n' hn => ?_
  refine (alike_typeOf hn).bind fun x y hxy => ?_
  exact alike_refuse (by rw [hxy.isVoid]) ht (by grind) (.pure hn)

theorem alikeAt_operand (ht : r.SameToken t u) :
    r.AlikeAt t.kind r.SameItem (operand p t) (operand q u) := by
  unfold operand
  rw [ht.kind]
  split
  · next hk =>
    refine alikeAt_advance_bind (by simp [hk]) fun _ _ _ _ => ?_
    exact alike_typed (n := .leaf .trueLiteral) (.leaf rfl (by grind)) .bool ht
  · next hk =>
    refine alikeAt_advance_bind (by simp [hk]) fun _ _ _ _ => ?_
    exact alike_typed (n := .leaf .falseLiteral) (.leaf rfl (by grind)) .bool ht
  · next hk =>
    intro s s' hs hkind
    show Abreast _ _ _ ((if s.depth ≥ maxDepth then _ else _ : Parser Node) s)
      ((if s'.depth ≥ maxDepth then _ else _ : Parser Node) s')
    rw [hs.depth]
    split
    · exact Lockstep.throw_bind ⟨ht, fun hx => by rw [ht.eq hx]⟩ s s' hs
    · refine alikeAt_advance_bind (by simp [hk]) (fun _ _ _ _ => ?_) s s' hs hkind
      refine (alike_grouped h).bind fun n n' hn => ?_
      exact (alike_expect .rightParen (by simp)).bind fun _ _ _ => .pure hn
  · next hk =>
    rw [hk]
    exact alikeAt_advance_bind (by simp) fun t u ht hk => alike_named h ht hk
  · exact .of (alike_unexpected _)

theorem alike_primary : r.Alike r.SameItem (primary p) (primary q) := by
  refine (alike_accept .minus (by simp)).bind ?_
  rintro negative _ rfl
  refine alike_peek_bind fun t u ht => ?_
  dsimp only
  rw [ht.kind]
  split
  · next hk =>
    rw [ht.text (by simp [hk])]
    exact alikeAt_advance_bind (by simp [hk]) fun _ _ _ _ => alike_integerLiteral ht _
  · next hk =>
    rw [ht.text (by simp [hk])]
    exact alikeAt_advance_bind (by simp [hk]) fun _ _ _ _ => alike_realLiteral ht _
  · cases negative with
    | true => exact alikeAt_warn_bind ht (by grind) (alikeAt_operand h ht)
    | false => exact alikeAt_operand h ht

theorem alike_power : r.Alike r.SameItem (power p) (power q) := by
  refine alike_fix fun p' q' ih => ?_
  refine alike_peek.bind fun t u ht => ?_
  refine (alike_primary h).bind fun n n' hn => ?_
  refine alike_is_bind (alikeAt_advance_bind (by simp) fun o o' ho _ => ?_) (.pure hn)
  refine alike_peek.bind fun t' u' ht' => ?_
  exact ih.bind fun m m' hm => alike_arithmetic rfl hn hm ht ht' ho

theorem alike_product : r.Alike r.SameItem (product p) (product q) :=
  alike_leftChain productOperator?_eq (by decide) (alike_power h) alike_arithmetic

theorem alike_sum : r.Alike r.SameItem (sum p) (sum q) :=
  alike_leftChain sumOperator?_eq (by decide) (alike_product h) alike_arithmetic

theorem alike_relationBehind {neg neg' : Option Token} (hneg : Option.Rel r.SameToken neg neg') :
    r.Alike r.SameItem (relationBehind p neg) (relationBehind q neg') := by
  refine alike_peek.bind fun t u ht => ?_
  refine (alike_sum h).bind fun n n' hn => ?_
  refine alike_operator_bind relationOperator?_eq (by decide) (fun k hk hne => ?_)
    (alike_negated hneg ht hn)
  refine alikeAt_advance_bind hne fun o o' ho _ => ?_
  refine (alike_sum h).bind fun m m' hm => ?_
  exact (alike_compare hk hn hm ho).bind fun _ _ hc => alike_negated hneg ht hc

theorem alike_relation : r.Alike r.SameItem (relation p) (relation q) := by
  rw [relation_eq, relation_eq]
  refine alike_is_bind ?_ (alike_relationBehind h .none)
  exact alikeAt_advance_bind (by simp) fun _ _ ht _ => alike_relationBehind h (.some ht)

theorem alike_logicalChain : r.Alike r.SameItem (logicalChain p) (logicalChain q) :=
  alike_leftChain logicalOperator?_eq (by decide) (alike_relation h) alike_logical

end

theorem alike_expression : r.Alike r.SameItem expression expression :=
  alike_fix fun _ _ h => alike_logicalChain h

theorem alike_sumExpression : r.Alike r.SameItem sumExpression sumExpression :=
  alike_sum alike_expression

end StackCompiler.Correspondence
