import StackCompiler.Proofs.Correspondence.Expressions

/-!
# Statements that correspond

Loops and conditionals open scopes that are named after the place of their first token; the places
may differ, but the scopes correspond.
-/

namespace StackCompiler.Correspondence

open StackCompiler.Parser

variable {r : Correspondence} {t u : Token} {n n' : Node} {p q : Parser (Option Node)}

theorem alike_atBlockEnd : r.Alike Eq atBlockEnd atBlockEnd :=
  alike_peek.bind fun _ _ h => .pure (by simp only [h.kind])

theorem alike_condition : r.Alike r.SameItem condition condition := by
  refine alike_peek.bind fun t u ht => ?_
  refine alike_expression.bind fun n n' hn => ?_
  refine (alike_typeOf hn).bind fun x y hxy => ?_
  exact alike_check (by rw [hxy.isBoolean]) ht (by grind) (.pure hn)

theorem alike_isImmutable (id : Symbol.Id) :
    r.Alike Eq (isImmutable id) (isImmutable id) := by
  refine (alike_symbol? id).bind fun x y hxy => .pure ?_
  rw [map_eq_of_rel hxy.rel fun _ _ h => h.isImmutable]

theorem alike_assignmentTo (h : r.SameToken t u) (hk : t.kind = .ident) :
    r.Alike r.SameItem (assignmentTo t) (assignmentTo u) := by
  refine (alike_variableNamed h hk).bind fun n n' hn => ?_
  refine alike_peek_bind fun o o' ho => ?_
  rw [ho.kind, hn.tree.symbol]
  cases hop : assignOperator? o.kind with
  | none => exact .of (alike_unexpected _)
  | some k =>
    obtain ⟨hw, hm⟩ := assignOperator?_eq hop
    obtain ⟨hplain, hne⟩ := (by decide : ∀ k ∈ .assign :: Node.Kind.compoundAssignments,
      k.isPlain = true ∧ k.operator ≠ .eof) k hm
    cases n'.symbol with
    | none => exact .of (alike_fail h (by grind))
    | some id =>
      refine alikeAt_advance_bind (hw ▸ hne) fun _ _ _ _ => ?_
      refine (alike_isImmutable id).bind fun a b hab => ?_
      refine alike_refuse (by rw [hab]) h (by grind) ?_
      refine alike_peek.bind fun t' u' ht' => ?_
      refine alike_expression.bind fun m m' hm => ?_
      refine (alike_typeOf hn).bind fun x y hxy => ?_
      refine (alike_typeOf hm).bind fun x' y' hxy' => ?_
      refine alike_check (by rw [hxy.isNumeric, hxy'.isNumeric]) ho (by grind) ?_
      refine alike_check (by rw [hxy'.assignableTo hxy]) ht' (by grind) ?_
      exact .pure (.plain hplain hn.tree .none hm.tree (by grind))

theorem alike_assignments : r.Alike r.SameTree assignments assignments := by
  have hitem : r.Alike r.SameItem (do assignmentTo (← expect .ident))
      (do assignmentTo (← expect .ident)) :=
    (alike_expect .ident (by simp)).bind fun _ _ h => alike_assignmentTo h.1 h.2
  exact (alike_commaList hitem).bind fun _ _ h => .pure (.list rfl h)

theorem alike_inputTarget : r.Alike r.SameItem inputTarget inputTarget := by
  refine (alike_expect .ident (by simp)).bind fun t u ht => ?_
  refine (alike_variableNamed ht.1 ht.2).bind fun n n' hn => ?_
  have hnumeric : r.Alike r.SameItem
      (do
        unless (← typeOf n).isNumeric do
          fail t (.inputNotNumeric t.text)
        return n)
      (do
        unless (← typeOf n').isNumeric do
          fail u (.inputNotNumeric u.text)
        return n') := by
    refine (alike_typeOf hn).bind fun x y hxy => ?_
    exact alike_check (by rw [hxy.isNumeric]) ht.1 (by grind) (.pure hn)
  rw [hn.tree.symbol]
  cases n'.symbol with
  | none => exact hnumeric
  | some id =>
    refine (alike_isImmutable id).bind fun a b hab => ?_
    exact alike_refuse (by rw [hab]) ht.1 (by grind) hnumeric

theorem alike_inputStatement : r.Alike r.SameItem inputStatement inputStatement := by
  refine alike_skip (by simp) ?_
  refine (alike_commaList alike_inputTarget).bind fun _ _ h => ?_
  exact .pure (.plain rfl (.list rfl h) .none .none (by grind))

theorem alike_printEntry : r.Alike r.SameItem printEntry printEntry := by
  refine alike_is_bind ?_ alike_expression
  refine alikeAt_advance_bind (by simp) fun t u ht hk => ?_
  rw [ht.text (by simp [hk])]
  refine (alike_intern _ ht .stringConstant .string (.other rfl rfl)).bind ?_
  rintro id _ rfl
  exact .pure (.leaf rfl (by grind))

theorem alikeAt_printStatement {k : Node.Kind} (hk : k.isPlain = true) {w : Token.Kind}
    (hw : w ≠ .eof) : r.AlikeAt w r.SameItem (printStatement k) (printStatement k) := by
  refine alikeAt_advance_bind hw fun _ _ _ _ => ?_
  refine (alike_commaList alike_printEntry).bind fun _ _ h => ?_
  exact .pure (.plain hk (.list rfl h) .none .none (by grind))

theorem alike_checkReturn (ht : r.SameToken t u) {v w : Option (Token × Node)}
    (h : Option.Rel r.SameArgument v w) :
    r.Alike (fun _ _ => True) (checkReturn t v) (checkReturn u w) := by
  refine Lockstep.get.bind fun s s' hs => ?_
  rw [hs.function]
  cases s'.function with
  | none =>
    cases h with
    | none => exact .pure trivial
    | some h => exact alike_fail h.token (by grind)
  | some id =>
    refine (alike_symbol? id).bind fun x y hxy => ?_
    have hd := rel_getD (rel_bind hxy.rel fun _ _ h => h.returnType?) .void
    cases h with
    | none =>
      exact .ite (by rw [hd.isVoid]) (fun _ => .pure trivial) fun _ => alike_fail ht (by grind)
    | some h =>
      refine alike_refuse (by rw [hd.isVoid]) h.token (by grind) ?_
      refine (alike_typeOf h.node).bind fun a b hab => ?_
      refine .ite (by rw [hab.assignableTo hd]) (fun _ => .pure trivial) fun _ => ?_
      exact alike_fail h.token (by grind)

theorem alike_returnStatement : r.Alike r.SameItem returnStatement returnStatement := by
  refine (alike_expect _ (by simp)).bind fun t u ht => ?_
  have hend (v w : Option (Token × Node)) : Option.Rel r.SameArgument v w → r.Alike r.SameItem
      (do
        checkReturn t v
        return .branch .returns (v.map Prod.snd) none none)
      (do
        checkReturn u w
        return .branch .returns (w.map Prod.snd) none none) := by
    intro h
    refine (alike_checkReturn ht.1 h).bind fun _ _ _ => ?_
    cases h with
    | none => exact .pure (.leaf rfl (by grind))
    | some h => exact .pure (.plain rfl h.node.tree .none .none (by grind))
  refine (alike_is .semicolon).bind fun a b hab => ?_
  refine alike_atBlockEnd.bind fun c d hcd => ?_
  refine .ite (by rw [hab, hcd]) (fun _ => hend none none .none) fun _ => ?_
  refine alike_peek.bind fun t' u' ht' => ?_
  refine alike_expression.bind fun n n' hn => ?_
  exact hend (some (t', n)) (some (u', n')) (.some ⟨ht', hn⟩)

theorem alikeAt_namedStatement :
    r.AlikeAt .ident r.SameItem namedStatement namedStatement := by
  refine alikeAt_advance_bind (by simp) fun t u ht hk => ?_
  refine (alike_is .leftParen).bind fun a b hab => ?_
  refine .ite (by rw [hab]) (fun _ => ?_) fun _ => alike_assignmentTo ht hk
  exact alike_callNamed alike_expression ht hk rfl

section Blocks

variable (h : r.Alike r.SameTree p q)
include h

theorem alike_forStatement :
    r.Alike r.SameItem (forStatement p) (forStatement q) := by
  refine (alike_expect _ (by simp)).bind fun t u ht => ?_
  refine (alike_statementScope (by decide) ht.1).bind fun a b hscope => ?_
  refine (alike_createScope hscope).bind fun _ _ _ => ?_
  refine alike_skip (by simp) ?_
  refine (alike_is .semicolon).bind fun c d hcd => ?_
  refine .ite_bind (by rw [hcd]) (fun _ => .pure .none) (fun _ => alike_assignments)
    fun l l' hl => ?_
  refine alike_skip (by simp) ?_
  refine alike_condition.bind fun m m' hm => ?_
  refine alike_skip (by simp) ?_
  refine h.bind fun o o' ho => ?_
  refine alike_skip (by simp) ?_
  exact alike_leaveScope.bind fun _ _ _ => .pure (.block hscope hl hm.tree ho (by decide))

theorem alike_ifStatement :
    r.Alike r.SameItem (ifStatement p) (ifStatement q) := by
  refine (alike_expect _ (by simp)).bind fun t u ht => ?_
  refine (alike_statementScope (by decide) ht.1).bind fun a b hscope => ?_
  refine (alike_createScope hscope).bind fun _ _ _ => ?_
  refine alike_skip (by simp) ?_
  refine alike_condition.bind fun m m' hm => ?_
  refine alike_skip (by simp) ?_
  refine h.bind fun o o' ho => ?_
  -- Both branches go on alike: the node gets its text behind the last keyword.
  have hend (n n' : Node) (hn : r.SameItem (n.withValue a) (n'.withValue b)) : r.Alike r.SameItem
      (do
        let _ ← expect (.keyword .endWord)
        leaveScope
        return n.withValue a)
      (do
        let _ ← expect (.keyword .endWord)
        leaveScope
        return n'.withValue b) := by
    refine alike_skip (by simp) ?_
    exact alike_leaveScope.bind fun _ _ _ => .pure hn
  refine (alike_accept _ (by simp)).bind fun c d hcd => ?_
  refine .ite (by rw [hcd]) (fun _ => h.bind fun e e' he => ?_) fun _ => ?_
  · exact hend (.branch .ifElse m o e) (.branch .ifElse m' o' e')
      (.block hscope hm.tree ho he (by decide))
  · exact hend (.branch .ifThen m o none) (.branch .ifThen m' o' none)
      (.block hscope hm.tree ho .none (by decide))

theorem alike_repeatStatement :
    r.Alike r.SameItem (repeatStatement p) (repeatStatement q) := by
  refine (alike_expect _ (by simp)).bind fun t u ht => ?_
  refine (alike_statementScope (by decide) ht.1).bind fun a b hscope => ?_
  refine (alike_createScope hscope).bind fun _ _ _ => ?_
  refine alike_skip (by simp) ?_
  refine (alike_is .rightParen).bind fun c d hcd => ?_
  refine .ite_bind (by rw [hcd]) (fun _ => .pure .none) (fun _ => alike_assignments)
    fun l l' hl => ?_
  refine alike_skip (by simp) ?_
  refine h.bind fun o o' ho => ?_
  refine alike_skip (by simp) ?_
  refine alike_condition.bind fun m m' hm => ?_
  exact alike_leaveScope.bind fun _ _ _ => .pure (.block hscope hl ho hm.tree (by decide))

theorem alike_inlineStatement :
    r.Alike r.SameItem (inlineStatement p) (inlineStatement q) := by
  refine alike_peek_bind fun t u ht => ?_
  rw [ht.kind]
  split
  · exact .of (alike_repeatStatement h)
  · exact .of alike_inputStatement
  · next hk => exact alikeAt_printStatement rfl (by simp [hk])
  · next hk => exact alikeAt_printStatement rfl (by simp [hk])
  · exact .of alike_returnStatement
  · next hk =>
    rw [hk]
    exact alikeAt_namedStatement
  · exact .of (alike_unexpected _)

theorem alike_statement :
    r.Alike r.SameItem (statement p) (statement q) := by
  refine alike_peek.bind fun t u ht => ?_
  rw [ht.kind]
  split
  · exact alike_forStatement h
  · exact alike_ifStatement h
  · refine (alike_inlineStatement h).bind fun n n' hn => ?_
    exact (alike_separator _ (by simp)).bind fun _ _ _ => .pure hn

theorem alike_statementList :
    r.Alike (List.Forall₂ r.SameItem) (statementList p) (statementList q) := by
  refine alike_loop (T := List.Forall₂ r.SameItem) (fun as bs hs => ?_) .nil
  refine (alike_statement h).bind fun n n' hn => ?_
  refine alike_atBlockEnd.bind fun a b hab => ?_
  refine (alike_is .eof).bind fun c d hcd => ?_
  refine .ite (by rw [hab, hcd]) (fun _ => ?_) fun _ => .pure (.inl (.cons hn hs))
  exact .pure (.inr (List.rel_reverse (.cons hn hs)))

end Blocks

theorem alike_block : r.Alike r.SameTree block block := by
  refine alike_fix fun p q ih => ?_
  refine alike_atBlockEnd.bind fun a b hab => ?_
  refine .ite (by rw [hab]) (fun _ => ?_) fun _ => ?_
  · refine alike_peek.bind fun t u ht => ?_
    exact (alike_warn ht (by grind)).bind fun _ _ _ => .pure .none
  · exact (alike_statementList ih).bind fun _ _ h => .pure (.list rfl h)

end StackCompiler.Correspondence
