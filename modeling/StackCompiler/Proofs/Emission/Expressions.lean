import StackCompiler.Proofs.Emission.Basic

/-!
# The code of expressions

The emitter of a well-formed expression appends the assembly of the expression.
-/

namespace StackCompiler

namespace Emitter

variable {S₀ S : Scopes} {names : Names} {literals : Code.Literals} {fits : Prop} {n : Node}

section Shapes

variable {k : Node.Kind} {v : Option String} {s : Option Symbol.Id} {l r : Node} {c : Option Node}
  {o : Operation} {types : Symbol.Id → DataType}

theorem exists_binaryOperation (hk : k ∈ Node.Kind.logical ++ Node.Kind.arithmetic) :
    ∃ o, binaryOperation? k = some o :=
  Option.isSome_iff_exists.1 ((by decide : ∀ k ∈ Node.Kind.logical ++ Node.Kind.arithmetic,
    (binaryOperation? k).isSome) k hk)

theorem exists_relationOperation (hk : k ∈ Node.Kind.relations) :
    ∃ o, relationOperation? k = some o :=
  Option.isSome_iff_exists.1
    ((by decide : ∀ k ∈ Node.Kind.relations, (relationOperation? k).isSome) k hk)

theorem value_of_not_list (h : n.kind.isList = false) : value n = values n :=
  if_neg (Node.kind_ne_of_not_list h rfl)

theorem values_binary (hk : binaryOperation? k = some o) :
    values (.mk k v s (some l) c (some r)) =
      value l >>= fun _ => value r >>= fun _ => emitOp o := by
  cases k <;> cases hk <;> rfl

theorem values_relation (hk : relationOperation? k = some o) :
    values (.mk k v s (some l) c (some r)) =
      relationCode k (some (value l)) (some (value r)) l.symbol o := by
  cases k <;> cases hk <;> rfl

theorem values_call (l : Option Node) (r : Option Node) :
    values (.mk .call v s l c r) =
      callCode .call s (argumentItems l).length ((l.map values).getD (pure ())) := by
  cases l <;> cases r <;> rfl

end Shapes

section Parts

variable {k : Node.Kind} {id : Symbol.Id} {x y : Emitter Unit} {c d : List Line}

theorem emits_binary {v : Option String} {s : Option Symbol.Id} {l r : Node} {c : Option Node}
    {types : Symbol.Id → DataType} (hk : k ∈ Node.Kind.logical ++ Node.Kind.arithmetic)
    (hl : Emits S literals l.CallsFit (value l) fun _ => Assembly.values types l)
    (hr : Emits S literals r.CallsFit (value r) fun _ => Assembly.values types r) :
    Emits S literals (Node.mk k v s (some l) c (some r)).CallsFit
      (values (.mk k v s (some l) c (some r)))
      fun _ => Assembly.values types (.mk k v s (some l) c (some r)) := by
  obtain ⟨o, ho⟩ := exists_binaryOperation hk
  rw [values_binary ho, Assembly.values_binary ho]
  exact (hl.weaken fun hf => hf.left _ rfl).append
    ((hr.weaken fun hf => hf.right _ rfl).append (emits_op o))

theorem emits_relation {t : DataType} {o : Operation} (hx : Emits S literals fits x fun _ => c)
    (hy : Emits S literals fits y fun _ => d) (ht : S.valueType id = t)
    (hk : t.isBoolean → k = .equal ∨ k = .notEqual) :
    Emits S literals fits (relationCode k (some x) (some y) (some id) o)
      fun _ => Assembly.relation k t (c ++ d) o := by
  intro is s ha
  simp only [relationCode, childOf, pure_bind, wp_bind, wp_get, Option.map_some, Option.getD_some,
    ha.valueType, ht, Assembly.relation]
  have hb (o : Operation) : Emits S literals fits (binaryCode k (some x) (some y) o)
      fun _ => c ++ (d ++ [Line.op o]) := hx.append (hy.append (emits_op o))
  by_cases hbool : t.isBoolean
  · rw [if_pos hbool, if_pos hbool]
    rcases hk hbool with rfl | rfl
    · have := (hb .xor).append (emits_op .not)
      simp only [List.append_assoc, List.cons_append, List.nil_append] at this
      simpa using this is s ha
    · have := (hb .xor).append emits_pure
      simp only [List.append_assoc, List.cons_append, List.nil_append] at this
      simpa using this is s ha
  · rw [if_neg hbool, if_neg hbool]
    have := (hb .sub).append (emits_op o)
    simp only [List.append_assoc, List.cons_append, List.nil_append] at this
    simpa using this is s ha

theorem emits_call {sym : Symbol} {arity : Nat} (hs : S.symbol? id = some sym)
    (hk : sym.kind = .function) (hx : Emits S literals fits x fun _ => c)
    (hf : fits → arity ≤ maxHalf) :
    Emits S literals fits (callCode k (some id) arity x)
      fun _ => Assembly.call S.valueType id arity c := by
  intro is s ha
  have he := hx.append (((emits_count arity).weaken hf).append
    ((emits_address id).append (emits_op .js2)))
  simp only [callCode, symbolOf, pure_bind, wp_bind, wp_get, ha.symbol?, hs, Option.map_some, hk,
    Symbol.Kind.isFunction, decide_true, Option.getD_some, if_true, wp_pure, valueType,
    ha.valueType, Assembly.call, List.append_assoc]
  split
  · exact he is s ha
  · exact (emits_op .zero).append he is s ha

theorem emits_list {args : List Node} {types : Symbol.Id → DataType}
    (h : ∀ a ∈ args, a.kind.isList = false ∧
      Emits S literals fits (value a) fun _ => Assembly.values types a) :
    Emits S literals fits (((Node.list .expressionList args).map values).getD (pure ()))
      fun _ => Assembly.valuesOf types (Node.list .expressionList args) := by
  induction args with
  | nil => exact emits_pure
  | cons a args ih =>
    obtain ⟨hl, ha⟩ := h a (by simp)
    have ih := ih fun b hb => h b (by simp [hb])
    rw [Node.list_cons]
    cases hr : Node.list .expressionList args with
    | none =>
      rw [value_of_not_list hl] at ha
      exact ha
    | some rest =>
      rw [hr] at ih
      exact ih.append ha

theorem emits_takes {args : List Node} (hS : S₀.Alike S) (hc : S₀.Takes id args)
    (ha : ∀ a ∈ args, a.kind.isList = false ∧
      Emits S literals fits (value a) fun _ => Assembly.values S₀.valueType a)
    (hf : fits → (argumentItems (Node.list .expressionList args)).length ≤ maxHalf) :
    Emits S literals fits
      (callCode k (some id) (argumentItems (Node.list .expressionList args)).length
        (((Node.list .expressionList args).map values).getD (pure ())))
      fun _ => Assembly.call S₀.valueType id (argumentItems (Node.list .expressionList args)).length
        (Assembly.valuesOf S₀.valueType (Node.list .expressionList args)) := by
  obtain ⟨sym, hs, hk, -⟩ := hc
  obtain ⟨sym', hs', hu⟩ := hS.symbol? hs
  have ht : S.valueType = S₀.valueType := funext hS.valueType
  exact ht ▸ emits_call hs' ((congrArg Symbol.kind hu).trans hk) (ht ▸ emits_list ha) hf

end Parts

theorem emits_expression (hS : S₀.Alike S) (h : S₀.IsExpression names n) :
    Emits S literals n.CallsFit (value n) fun _ => Assembly.values S₀.valueType n := by
  rw [value_of_not_list h.not_list]
  induction h with
  | integer | real | reference => exact emits_value _
  | truth hk => rcases hk with rfl | rfl <;> exact emits_op _
  | call hn hc ht hv ha ih =>
    rw [values_call, Assembly.values_call]
    refine emits_takes hS hc (fun a h => ⟨(ha a h).not_list, ?_⟩) fun hf => hf.self
    rw [value_of_not_list (ha a h).not_list]
    exact (ih a h).weaken fun hf => Node.all_of_list hf.left a h
  | not hn hb ht ih =>
    rw [← value_of_not_list hn.not_list] at ih
    exact (ih.weaken fun hf => hf.left _ rfl).append (emits_op .not)
  | logical hk hl hr tl tr ht ihl ihr =>
    rw [← value_of_not_list hl.not_list] at ihl
    rw [← value_of_not_list hr.not_list] at ihr
    exact emits_binary (List.mem_append_left _ hk) ihl ihr
  | arithmetic hk hl hr tl tr nt nu ht ihl ihr =>
    rw [← value_of_not_list hl.not_list] at ihl
    rw [← value_of_not_list hr.not_list] at ihr
    exact emits_binary (List.mem_append_right _ hk) ihl ihr
  | relation hk hl hr tl tr hc ht ihl ihr =>
    obtain ⟨o, ho⟩ := exists_relationOperation hk
    obtain ⟨id, hid, hty⟩ := tl
    rw [← value_of_not_list hl.not_list] at ihl
    rw [← value_of_not_list hr.not_list] at ihr
    rw [values_relation ho, Assembly.values_relation ho, hid, Option.map_some, Option.getD_some,
      hty.valueType]
    refine emits_relation (ihl.weaken fun hf => hf.left _ rfl) (ihr.weaken fun hf => hf.right _ rfl)
      ((hS.valueType id).trans hty.valueType) fun hb => ?_
    rcases hc with ⟨hn, -⟩ | ⟨hk, -⟩
    · simp only [DataType.isBoolean, decide_eq_true_eq] at hb
      simp [hb, DataType.isNumeric] at hn
    · exact hk

end Emitter

end StackCompiler
