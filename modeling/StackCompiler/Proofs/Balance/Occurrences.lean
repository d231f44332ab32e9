import StackCompiler.Proofs.Segments
import StackCompiler.Proofs.Subtrees

/-!
# Where the code of a part is

The lines of a program contain the lines of all its statements and of all expressions that these
and the named constants evaluate.
-/

namespace StackCompiler

/-- The lines stand in a listing, where `p` is their position. -/
def Occurs (all : List Line) (p : Nat) (lines : List Line) : Prop :=
  ∃ as bs, all = as ++ (lines ++ bs) ∧ p = span as

namespace Occurs

variable {all xs ys zs lines : List Line} {p q : Nat}

theorem refl (lines : List Line) : Occurs lines 0 lines := ⟨[], [], by simp, rfl⟩

theorem mem (h : Occurs all p lines) : ∀ l ∈ lines, l ∈ all := by
  obtain ⟨as, bs, rfl, -⟩ := h
  intro l hl
  simp [hl]

theorem part (h : Occurs all p lines) (xs zs : List Line) (hl : lines = xs ++ (ys ++ zs))
    (hq : q = p + span xs) : Occurs all q ys := by
  obtain ⟨as, bs, rfl, rfl⟩ := h
  exact ⟨as ++ xs, zs ++ bs, by simp [hl], by rw [hq, span_append]⟩

theorem flatMap {γ : Type} {items : List γ} {code : γ → List Line} {n : γ}
    (h : Occurs all p (items.flatMap code)) (hn : n ∈ items) : ∃ q, Occurs all q (code n) := by
  obtain ⟨as, bs, rfl⟩ := List.append_of_mem hn
  exact ⟨_, h.part (as.flatMap code) (bs.flatMap code) (by simp) rfl⟩

theorem blockOf {types : Symbol.Id → DataType} {routine : Emitter.Routine} {body : List Node}
    {m : Node} (h : Occurs all p (Assembly.blockOf types routine (Node.list .statements body) p))
    (hm : m ∈ body) : ∃ q, Occurs all q (Assembly.block types routine m q) := by
  induction body generalizing p with
  | nil => cases hm
  | cons a body ih =>
    rw [Assembly.blockOf_list_cons] at h
    rcases List.mem_cons.1 hm with rfl | hm
    · exact ⟨p, h.part [] _ rfl (by simp)⟩
    · exact ih (h.part (Assembly.block types routine a p) [] (by simp) rfl) hm

end Occurs

section Statements

variable {all start test : List Line} {body otherwise : Nat → List Line} {p : Nat}

theorem occurs_ifThen (h : Occurs all p (Assembly.ifThen p test body)) :
    (∃ q, Occurs all q test) ∧ ∃ q, Occurs all q (body q) := by
  obtain ⟨q, hq⟩ : ∃ q, q = p + 5 + span test + 1 := ⟨_, rfl⟩
  rw [Assembly.ifThen, ← hq] at h
  refine ⟨⟨_, h.part [.jump (q + span (body q))] (.op .bf :: body q) rfl rfl⟩, q, ?_⟩
  refine h.part (.jump (q + span (body q)) :: (test ++ [.op .bf])) [] (by simp) ?_
  simp
  omega

theorem occurs_ifElse (h : Occurs all p (Assembly.ifElse p test body otherwise)) :
    (∃ q, Occurs all q test) ∧ (∃ q, Occurs all q (body q)) ∧ ∃ q, Occurs all q (otherwise q) := by
  obtain ⟨q, hq⟩ : ∃ q, q = p + 5 + span test + 1 := ⟨_, rfl⟩
  obtain ⟨q', hq'⟩ : ∃ q', q' = q + span (body q) + 5 + 1 := ⟨_, rfl⟩
  rw [Assembly.ifElse, ← hq, ← hq'] at h
  generalize q' + span (otherwise q') = e at h
  refine ⟨⟨_, h.part [.jump q'] _ rfl rfl⟩, ⟨q, ?_⟩, q', ?_⟩
  · refine h.part (.jump q' :: (test ++ [.op .bf])) (.jump e :: .op .br :: otherwise q') (by simp) ?_
    simp
    omega
  · refine h.part (.jump q' :: (test ++ .op .bf :: (body q ++ [.jump e, .op .br]))) [] (by simp) ?_
    simp
    omega

theorem occurs_forLoop (h : Occurs all p (Assembly.forLoop p start test body)) :
    Occurs all p start ∧ (∃ q, Occurs all q test) ∧ ∃ q, Occurs all q (body q) := by
  obtain ⟨top, htop⟩ : ∃ top, top = p + span start := ⟨_, rfl⟩
  obtain ⟨q, hq⟩ : ∃ q, q = top + 5 + span test + 1 := ⟨_, rfl⟩
  rw [Assembly.forLoop, ← htop, ← hq] at h
  generalize q + span (body q) + 5 + 1 = e at h
  refine ⟨h.part [] _ rfl (by simp), ⟨p + span (start ++ [.jump e]), ?_⟩, q, ?_⟩
  · exact h.part (start ++ [.jump e]) (.op .bf :: (body q ++ [.jump top, .op .br])) (by simp) rfl
  · refine h.part (start ++ .jump e :: (test ++ [.op .bf])) [.jump top, .op .br] (by simp) ?_
    simp
    omega

theorem occurs_repeatLoop (h : Occurs all p (Assembly.repeatLoop p start test body)) :
    Occurs all p start ∧ (∃ q, Occurs all q test) ∧ ∃ q, Occurs all q (body q) := by
  obtain ⟨top, htop⟩ : ∃ top, top = p + span start := ⟨_, rfl⟩
  rw [Assembly.repeatLoop, ← htop] at h
  refine ⟨h.part [] _ rfl (by simp), ⟨p + span (start ++ (body top ++ [.jump top])), ?_⟩, top, ?_⟩
  · exact h.part (start ++ (body top ++ [.jump top])) [.op .bf] (by simp) rfl
  · exact h.part start _ rfl htop

end Statements

/-! ## Expressions -/

/-- The expressions that a node evaluates, and those that these evaluate. -/
inductive Node.Evaluates (n : Node) : Node → Prop
  | operand {m : Node} (h : m ∈ n.operands) : n.Evaluates m
  | within {m k : Node} (h : n.Evaluates m) (hk : k ∈ m.operands) : n.Evaluates k

namespace Scopes

variable {s : Scopes} {all : List Line} {names : Names} {ret : Option DataType} {n m : Node}
  {routine : Emitter.Routine} {p : Nat} {k : Node.Kind} {v : Option String} {sym : Option Symbol.Id}
  {l r : Node} {c : Option Node}

def Stands (s : Scopes) (all : List Line) (n : Node) : Prop :=
  ∃ names p, s.IsExpression names n ∧ Occurs all p (Assembly.values s.valueType n)

theorem stands_arguments {args : List Node} {id : Symbol.Id} {arity : Nat}
    (h : ∀ a ∈ args, s.IsExpression names a)
    (ho : Occurs all p (Assembly.call s.valueType id arity
      (Assembly.valuesOf s.valueType (Node.list .expressionList args))))
    (hm : m ∈ Node.listed .expressionList (Node.list .expressionList args)) : s.Stands all m := by
  rw [listed_arguments h] at hm
  have hargs := ho.part (q := _) _ [.count arity, .address id, .op .js2]
    (List.append_assoc _ _ _) rfl
  rw [Assembly.valuesOf_list] at hargs
  obtain ⟨q, hq⟩ := hargs.flatMap (List.mem_reverse.2 hm)
  exact ⟨names, q, h m hm, hq⟩

theorem operands_binary
    (hk : k ∈ Node.Kind.logical ++ (Node.Kind.arithmetic ++ Node.Kind.relations)) :
    (Node.mk k v sym (some l) c (some r)).operands = [l, r] := by
  fin_cases hk <;> rfl

theorem stands_binary {lines : List Line}
    (hk : k ∈ Node.Kind.logical ++ (Node.Kind.arithmetic ++ Node.Kind.relations))
    (hl : s.IsExpression names l) (hr : s.IsExpression names r)
    (ho : Occurs all p (Assembly.values s.valueType l ++ (Assembly.values s.valueType r ++ lines)))
    (hm : m ∈ (Node.mk k v sym (some l) c (some r)).operands) : s.Stands all m := by
  rw [operands_binary hk] at hm
  fin_cases hm
  · exact ⟨names, p, hl, ho.part [] _ rfl (by simp)⟩
  · exact ⟨names, _, hr, ho.part _ lines rfl rfl⟩

theorem IsExpression.stands (h : s.IsExpression names n)
    (ho : Occurs all p (Assembly.values s.valueType n)) (hm : m ∈ n.operands) :
    s.Stands all m := by
  cases h with
  | integer | real | reference => cases hm
  | truth hk => rcases hk with rfl | rfl <;> cases hm
  | call hn hc ht hv ha =>
    rw [Assembly.values_call] at ho
    exact stands_arguments ha ho hm
  | not hn hb ht =>
    obtain rfl : m = _ := by simpa [Node.operands, Node.kind, Node.left] using hm
    exact ⟨names, p, hn, ho.part [] [.op .not] rfl (by simp)⟩
  | logical hk hl hr tl tr ht =>
    obtain ⟨o, hop⟩ := Emitter.exists_binaryOperation (List.mem_append_left _ hk)
    rw [Assembly.values_binary hop] at ho
    exact stands_binary (by simp [hk]) hl hr ho hm
  | arithmetic hk hl hr tl tr nt nu ht =>
    obtain ⟨o, hop⟩ := Emitter.exists_binaryOperation (List.mem_append_right _ hk)
    rw [Assembly.values_binary hop] at ho
    exact stands_binary (by simp [hk]) hl hr ho hm
  | relation hk hl hr tl tr hc ht =>
    obtain ⟨o, hop⟩ := Emitter.exists_relationOperation hk
    rw [Assembly.values_relation hop] at ho
    unfold Assembly.relation at ho
    split at ho
    · rw [List.append_assoc] at ho
      exact stands_binary (by simp [hk]) hl hr ho hm
    · rw [List.append_assoc] at ho
      exact stands_binary (by simp [hk]) hl hr ho hm

theorem Stands.operand (h : s.Stands all n) (hm : m ∈ n.operands) : s.Stands all m := by
  obtain ⟨names, p, he, ho⟩ := h
  exact he.stands ho hm

theorem Stands.binary (h : s.Stands all (.mk k v sym (some l) c (some r)))
    (hk : k ∈ Node.Kind.logical ++ (Node.Kind.arithmetic ++ Node.Kind.relations)) :
    s.Stands all l ∧ s.Stands all r := by
  have hops : (Node.mk k v sym (some l) c (some r)).operands = [l, r] := operands_binary hk
  exact ⟨h.operand (by simp [hops]), h.operand (by simp [hops])⟩

theorem IsAssignment.operands (h : s.IsAssignment names n) : n.operands = n.right.toList := by
  obtain ⟨hk, -⟩ := h
  rcases hk with rfl | hk
  · rfl
  · fin_cases hk <;> rfl

theorem IsAssignment.stands (h : s.IsAssignment names n)
    (ho : Occurs all p (Assembly.assignment s.valueType n)) (hm : m ∈ n.operands) :
    s.Stands all m := by
  rw [h.operands] at hm
  cases h with
  | @intro k text id source type hk hn hv hmut he tv hc =>
    obtain rfl : m = source := List.mem_singleton.1 hm
    rcases hk with rfl | hk
    · exact ⟨names, _, he, ho.part [.address id] [.op .st] rfl rfl⟩
    · obtain ⟨o, hop⟩ := Emitter.exists_compoundOperation hk
      have hlines : Assembly.assignment s.valueType
          (.mk k none (some id) (some (variableNode text id)) none (some m)) =
          [.address id, .value id] ++ (Assembly.values s.valueType m ++ [.op o, .op .st]) := by
        simp only [Assembly.assignment, Node.kind, hop]
        rfl
      exact ⟨names, _, he, ho.part _ _ hlines rfl⟩

theorem IsAssignment.block_eq (h : s.IsAssignment names n) :
    Assembly.block s.valueType routine n p = Assembly.assignment s.valueType n := by
  obtain ⟨hk, -, -, -, -, -, -⟩ := h
  exact Assembly.block_assignment hk

theorem IsStatement.stands (h : s.IsStatement names ret n) (hr : routine = .main → ret = none)
    (ho : Occurs all p (Assembly.block s.valueType routine n p)) (hm : m ∈ n.operands)
    (hs : m.kind ≠ .string) : s.Stands all m := by
  cases h with
  | assignment h =>
    rw [h.block_eq] at ho
    exact h.stands ho hm
  | forLoop hs ha he ht hb =>
    rw [Assembly.block_forLoop] at ho
    obtain ⟨-, ⟨q, hq⟩, -⟩ := occurs_forLoop ho
    obtain rfl : m = _ := by simpa [Node.operands, Node.kind, Node.centre] using hm
    exact ⟨names, q, he, hq⟩
  | ifThen hs he ht hb =>
    rw [Assembly.block_ifThen] at ho
    obtain ⟨⟨q, hq⟩, -⟩ := occurs_ifThen ho
    obtain rfl : m = _ := by simpa [Node.operands, Node.kind, Node.left] using hm
    exact ⟨names, q, he, hq⟩
  | ifElse hs he ht hb ho' =>
    rw [Assembly.block_ifElse] at ho
    obtain ⟨⟨q, hq⟩, -⟩ := occurs_ifElse ho
    obtain rfl : m = _ := by simpa [Node.operands, Node.kind, Node.left] using hm
    exact ⟨names, q, he, hq⟩
  | repeatLoop hs ha he ht hb =>
    rw [Assembly.block_repeatLoop] at ho
    obtain ⟨-, ⟨q, hq⟩, -⟩ := occurs_repeatLoop ho
    obtain rfl : m = _ := by simpa [Node.operands, Node.kind, Node.right] using hm
    exact ⟨names, q, he, hq⟩
  | input hne ht => cases hm
  | @print k entries hk hne he =>
    rw [Assembly.block_print hk] at ho
    have hlist : Node.listed .printList (Node.list .printList entries) = entries :=
      Node.listed_list fun m hm => Node.kind_ne_of_not_list (he m hm).not_list rfl
    have hmem : m ∈ entries := by
      rw [← hlist]
      rcases hk with rfl | rfl <;> exact hm
    rw [Assembly.print, Node.left, hlist] at ho
    have hprints := ho.part [] _ rfl (q := p) (by simp)
    obtain ⟨q, hq⟩ := hprints.flatMap hmem
    cases he m hmem with
    | string hp hc => exact absurd rfl hs
    | value he =>
      rw [Assembly.printEntry, if_neg he.not_string] at hq
      exact ⟨names, q, he, hq.part [] _ rfl (by simp)⟩
  | @returns value h =>
    rw [Assembly.block_returns] at ho
    cases h with
    | main | void => cases hm
    | @value t n hv he ht =>
      obtain rfl : m = n := by simpa [Node.operands, Node.kind, Node.left] using hm
      cases routine with
      | main => cases hr rfl
      | function => exact ⟨names, p, he, ho.part [] [.op .rval, .op .retn] rfl (by simp)⟩
  | call hn hc ha =>
    rw [Assembly.block_callStatement] at ho
    exact stands_arguments ha ho hm

end Scopes

/-! ## Statements, constants and calls of a tree -/

def Node.Kind.statementKinds : List Node.Kind :=
  [.assign, .addAssign, .subAssign, .mulAssign, .divAssign, .forLoop, .ifThen, .ifElse,
   .repeatLoop, .input, .print, .println, .returns, .callStatement]

/-- If the node is a statement, a named constant or a call, its lines stand in the listing. -/
structure Located (s : Scopes) (all : List Line) (n : Node) : Prop where
  statement : n.kind ∈ Node.Kind.statementKinds → ∃ names ret routine p,
    s.IsStatement names ret n ∧ (routine = .main → ret = none) ∧
      Occurs all p (Assembly.block s.valueType routine n p)
  constant : n.kind = .init → ∃ names value p, n.left = some value ∧ s.IsExpression names value ∧
    Occurs all p (Assembly.values s.valueType value)
  call : n.kind = .call → s.Stands all n

section Located

variable {s : Scopes} {all : List Line} {names : Names} {ret : Option DataType} {n : Node}
  {routine : Emitter.Routine} {p : Nat} {k : Node.Kind} {v : Option String} {sym : Option Symbol.Id}

theorem located_other {l c r : Option Node} (hk : k ∉ .call :: .init :: Node.Kind.statementKinds) :
    Located s all (.mk k v sym l c r) :=
  ⟨fun h => absurd (List.mem_cons_of_mem _ (List.mem_cons_of_mem _ h)) hk,
    fun h => absurd (List.mem_cons_of_mem _ (List.mem_cons.2 (.inl h))) hk,
    fun h => absurd (List.mem_cons.2 (.inl h)) hk⟩

theorem located_leaf (hk : k ∉ .call :: .init :: Node.Kind.statementKinds) :
    (Node.mk k v sym none none none).All (Located s all) :=
  Node.all_leaf (located_other hk)

theorem located_list {items : List Node} (hk : k ∉ .call :: .init :: Node.Kind.statementKinds)
    (h : ∀ n ∈ items, n.All (Located s all)) : Node.AllIn (Located s all) (Node.list k items) :=
  Node.allIn_list h fun _ _ => located_other hk

theorem Scopes.IsExpression.not_statement (h : s.IsExpression names n) :
    n.kind ∉ .init :: Node.Kind.statementKinds := by
  have hkinds : ∀ k ∈ Node.Kind.logical ++ (Node.Kind.arithmetic ++ Node.Kind.relations),
      k ∉ .init :: Node.Kind.statementKinds := by decide
  cases h with
  | truth hk => rcases hk with rfl | rfl <;> simp [Node.kind, Node.Kind.statementKinds]
  | logical hk | arithmetic hk | relation hk => exact hkinds _ (by simp [Node.kind, hk])
  | _ => simp [Node.kind, variableNode, Node.Kind.statementKinds]

theorem Scopes.IsExpression.located_of_calls (h : s.IsExpression names n)
    (hc : n.All fun m => m.kind = .call → s.Stands all m) : n.All (Located s all) := by
  have hlists : ∀ k ∈ .init :: Node.Kind.statementKinds, k.isList ≠ true := by decide
  have hkinds : n.All fun m => m.kind ∉ .init :: Node.Kind.statementKinds :=
    h.all (fun m hm => hm.not_statement) fun k a m hk hmem => hlists k hmem hk
  exact fun m hm => ⟨fun hk => absurd (List.mem_cons_of_mem _ hk) (hkinds m hm),
    fun hk => absurd (List.mem_cons.2 (.inl hk)) (hkinds m hm), hc m hm⟩

theorem Scopes.IsExpression.calls_stand (h : s.IsExpression names n) (hn : s.Stands all n) :
    n.All fun m => m.kind = .call → s.Stands all m := by
  induction h with
  | integer | real | truth | reference =>
    exact Node.all_leaf (fun _ => hn)
  | @call _ _ args _ hname hk ht hv ha ih =>
    refine Node.all_left (fun _ => hn)
      (Node.allIn_list (fun a hm => ih a hm (hn.operand ?_)) fun _ _ => nofun)
    show a ∈ Node.listed .expressionList (Node.list .expressionList args)
    rwa [listed_arguments ha]
  | not he hb ht ih =>
    have hl := hn.operand (List.mem_singleton.2 rfl)
    exact Node.all_left (fun _ => hn) (Node.allIn_some (ih hl))
  | logical hk hl hr tl tr ht ihl ihr =>
    have hlr := hn.binary (List.mem_append_left _ hk)
    exact Node.all_two (fun _ => hn) (ihl hlr.1) (ihr hlr.2)
  | arithmetic hk hl hr tl tr nt nu ht ihl ihr =>
    have hlr := hn.binary (List.mem_append_right _ (List.mem_append_left _ hk))
    exact Node.all_two (fun _ => hn) (ihl hlr.1) (ihr hlr.2)
  | relation hk hl hr tl tr hc ht ihl ihr =>
    have hlr := hn.binary (List.mem_append_right _ (List.mem_append_right _ hk))
    exact Node.all_two (fun _ => hn) (ihl hlr.1) (ihr hlr.2)

theorem Scopes.Stands.located (h : s.Stands all n) : n.All (Located s all) := by
  obtain ⟨names, p, he, ho⟩ := id h
  exact he.located_of_calls (he.calls_stand h)

theorem Scopes.IsStatement.kind_mem (h : s.IsStatement names ret n) :
    n.kind ∈ Node.Kind.statementKinds := by
  cases h with
  | assignment h =>
    obtain ⟨hk, -⟩ := h
    have hall : ∀ k ∈ .assign :: Node.Kind.compoundAssignments, k ∈ Node.Kind.statementKinds := by
      decide
    exact hall _ (List.mem_cons.2 hk)
  | print hk => rcases hk with rfl | rfl <;> simp [Node.kind, Node.Kind.statementKinds]
  | _ => simp [Node.kind, Node.Kind.statementKinds]

theorem Scopes.IsStatement.located_self (h : s.IsStatement names ret n)
    (hr : routine = .main → ret = none)
    (ho : Occurs all p (Assembly.block s.valueType routine n p)) : Located s all n := by
  have hkind := h.kind_mem
  refine ⟨fun _ => ⟨names, ret, routine, p, h, hr, ho⟩, fun hk => ?_, fun hk => ?_⟩
  · exact absurd (hk ▸ hkind) (by decide)
  · exact absurd (hk ▸ hkind) (by decide)

theorem Scopes.IsAssignment.located (h : s.IsAssignment names n)
    (ho : Occurs all p (Assembly.assignment s.valueType n)) : n.All (Located s all) := by
  have hst : s.IsStatement names none n := .assignment h
  have hblock : Occurs all p (Assembly.block s.valueType .main n p) := by rwa [h.block_eq]
  have hself : Located s all n := hst.located_self (fun _ => rfl) hblock
  have hsource : ∀ m ∈ n.right.toList, s.Stands all m := fun m hm => h.stands ho (h.operands ▸ hm)
  obtain ⟨hk, hn, hv, hm, he, tv, hc⟩ := h
  exact Node.all_two hself (located_leaf (by decide)) (hsource _ (by simp [Node.right])).located

theorem located_assignments {start : List Node} (h : ∀ n ∈ start, s.IsAssignment names n)
    (ho : Occurs all p (Assembly.assignments s.valueType (Node.list .assignList start))) :
    Node.AllIn (Located s all) (Node.list .assignList start) := by
  refine located_list (by decide) fun n hn => ?_
  rw [Assembly.assignments, Node.listed_list fun n hn =>
    Node.kind_ne_of_not_list (h n hn).not_list rfl] at ho
  obtain ⟨q, hq⟩ := ho.flatMap hn
  exact (h n hn).located hq

theorem located_body {body : List Node}
    (ih : ∀ m ∈ body, ∀ p, Occurs all p (Assembly.block s.valueType routine m p) →
      m.All (Located s all))
    (ho : ∃ q, Occurs all q (Assembly.blockOf s.valueType routine (Node.list .statements body) q)) :
    Node.AllIn (Located s all) (Node.list .statements body) := by
  refine located_list (by decide) fun m hm => ?_
  obtain ⟨q, hq⟩ := ho
  obtain ⟨q', hq'⟩ := hq.blockOf hm
  exact ih m hm q' hq'

theorem Scopes.IsStatement.located (h : s.IsStatement names ret n)
    (hr : routine = .main → ret = none) (p : Nat)
    (ho : Occurs all p (Assembly.block s.valueType routine n p)) : n.All (Located s all) := by
  have hself := h.located_self hr ho
  -- the lines of a nested statement depend on where they stand
  induction h generalizing p with
  | @assignment n h =>
    rw [h.block_eq] at ho
    exact h.located ho
  | forLoop hs ha he ht hb ih =>
    rw [Assembly.block_forLoop] at ho
    obtain ⟨hstart, ⟨q, htest⟩, hbody⟩ := occurs_forLoop ho
    exact Node.all_mk hself (located_assignments ha hstart)
      (Node.allIn_some (Stands.located ⟨names, q, he, htest⟩))
      (located_body (fun m hm p ho => ih m hm p ho ((hb m hm).located_self hr ho)) hbody)
  | ifThen hs he ht hb ih =>
    rw [Assembly.block_ifThen] at ho
    obtain ⟨⟨q, htest⟩, hbody⟩ := occurs_ifThen ho
    exact Node.all_mk hself (Node.allIn_some (Stands.located ⟨names, q, he, htest⟩))
      (located_body (fun m hm p ho => ih m hm p ho ((hb m hm).located_self hr ho)) hbody)
      Node.allIn_none
  | ifElse hs he ht hb ho' ihb iho =>
    rw [Assembly.block_ifElse] at ho
    obtain ⟨⟨q, htest⟩, hbody, hother⟩ := occurs_ifElse ho
    exact Node.all_mk hself (Node.allIn_some (Stands.located ⟨names, q, he, htest⟩))
      (located_body (fun m hm p ho => ihb m hm p ho ((hb m hm).located_self hr ho)) hbody)
      (located_body (fun m hm p ho => iho m hm p ho ((ho' m hm).located_self hr ho)) hother)
  | repeatLoop hs ha he ht hb ih =>
    rw [Assembly.block_repeatLoop] at ho
    obtain ⟨hstart, ⟨q, htest⟩, hbody⟩ := occurs_repeatLoop ho
    exact Node.all_mk hself (located_assignments ha hstart)
      (located_body (fun m hm p ho => ih m hm p ho ((hb m hm).located_self hr ho)) hbody)
      (Node.allIn_some (Stands.located ⟨names, q, he, htest⟩))
  | input hne ht =>
    refine Node.all_left hself (located_list (by decide) fun m hm => ?_)
    obtain ⟨hn, hv, hm, hnum⟩ := ht m hm
    exact located_leaf (by decide)
  | @print k entries hk hne he =>
    have hst : s.IsStatement names ret (.mk k none none (Node.list .printList entries) none none) :=
      .print hk hne he
    have hlist : Node.listed .printList (Node.list .printList entries) = entries :=
      Node.listed_list fun m hm => Node.kind_ne_of_not_list (he m hm).not_list rfl
    refine Node.all_left hself (located_list (by decide) fun m hm => ?_)
    cases he m hm with
    | string hp hs => exact located_leaf (by decide)
    | value hx =>
      rw [← hlist] at hm
      refine (hst.stands hr ho ?_ hx.not_string).located
      rcases hk with rfl | rfl <;> exact hm
  | @returns value h =>
    have hst : s.IsStatement names ret (.mk .returns none none value none none) := .returns h
    refine Node.all_left hself ?_
    cases h with
    | main | void => exact Node.allIn_none
    | value hv he ht =>
      exact Node.allIn_some (hst.stands hr ho (List.mem_singleton.2 rfl) he.not_string).located
  | call hn hc ha =>
    rw [Assembly.block_callStatement] at ho
    exact Node.all_left hself (located_list (by decide) fun a hm =>
      (stands_arguments ha ho ((listed_arguments ha).symm ▸ hm)).located)

theorem Scopes.IsBlock.located {b : Option Node} (h : s.IsBlock names ret b)
    (hr : routine = .main → ret = none)
    (ho : Occurs all p (Assembly.blockOf s.valueType routine b p)) :
    Node.AllIn (Located s all) b := by
  obtain ⟨body, rfl, hb⟩ := h
  exact located_body (fun m hm q hq => (hb m hm).located hr q hq) ⟨p, ho⟩

end Located

end StackCompiler
