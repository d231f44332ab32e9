import StackCompiler.Proofs.Declaring
import StackCompiler.Proofs.Precedence.Operands

/-!
# Expressions are read as they were written

Every expression, written with the parentheses it needs, is read back as the same tree.
-/

namespace StackCompiler

open Word Grammar

namespace Parser

section Raising

variable {s₀ : Scopes} {K L : Level} {n : Node} {t : DataType} {ws : List Word} {d d' : Nat}

theorem ReadsAs.step (hK : L.below = some K) (h : ReadsAs s₀ K n t ws d) :
    ReadsAs s₀ L n t ws d := by
  cases L <;> cases hK
  · exact h.fact
  · exact .chain rfl h
  · exact .chain rfl h
  · exact h.comparison
  · exact h.rel
  · exact .chain rfl h

theorem ReadsAs.raise (h : ReadsAs s₀ K n t ws d) (hr : K.rank ≤ L.rank) :
    ReadsAs s₀ L n t ws d := by
  obtain ⟨k, hk⟩ := Nat.exists_eq_add_of_le hr
  induction k generalizing L with
  | zero => exact Level.rank_injective hk ▸ h
  | succ k ih =>
    obtain ⟨M, hM⟩ := Level.exists_below (L := L) (by omega)
    have hrank := Level.rank_below hM
    exact (ih (L := M) (by omega) (by omega)).step hM

theorem ReadsAs.weaken (h : ReadsAs s₀ L n t ws d) (hd : d ≤ d') : ReadsAs s₀ L n t ws d' :=
  ⟨h.expresses, h.begins, fun he hs hstop => h.reads he (hs.weaken hd) hstop⟩

/-- What is read at the level `K` is read at any level, in parentheses where that binds more
strongly. -/
theorem ReadsAs.anywhere (h : ReadsAs s₀ K n t ws d) (L : Level) :
    ReadsAs s₀ L n t (parenthesised (L.rank < K.rank) ws)
      (d + if L.rank < K.rank then 1 else 0) := by
  by_cases hL : L.rank < K.rank
  · simp only [parenthesised, hL, decide_true, if_true]
    have hK : K.rank ≤ Level.bool.rank := by cases K <;> decide
    exact (h.raise hK).group.raise (Nat.zero_le _)
  · simp only [parenthesised, hL, decide_false, if_false]
    exact h.raise (Nat.le_of_not_lt hL)

end Raising

/-- At every level, what is written for the tree is read as the tree. -/
def ReadsBack (s₀ : Scopes) (n : Node) (t : DataType) : Prop :=
  ∀ L, ReadsAs s₀ L n t (n.written L) (n.nesting L)

namespace ReadsBack

variable {s₀ : Scopes} {k : Node.Kind} {sym : Option Symbol.Id} {n l r : Node} {t u v : DataType}

theorem expresses (h : ReadsBack s₀ n t) : s₀.Expresses n t := (h .bool).expresses

theorem binary (hk : k ∈ Node.Kind.binary)
    (h : ReadsAs s₀ k.level (.mk k none sym (some l) none (some r)) v
      (l.written k.leftLevel ++ sign k.operator :: r.written k.rightLevel)
      (max (l.nesting k.leftLevel) (r.nesting k.rightLevel))) :
    ReadsBack s₀ (.mk k none sym (some l) none (some r)) v := by
  intro L
  rw [Node.written_binary hk]
  exact h.anywhere L

theorem not (h : ReadsBack s₀ n .bool) :
    ReadsBack s₀ (.mk .not none sym (some n) none none) .bool := by
  intro L
  have hnot : ReadsAs s₀ .rel (.mk .not none sym (some n) none none) .bool
    (key .not :: n.written .comparison) (max (n.nesting .comparison) 0) :=
    (h .comparison).not.weaken (Nat.le_max_left _ _)
  exact hnot.anywhere L

theorem logical (hk : k ∈ Node.Kind.logical) (hl : ReadsBack s₀ l .bool)
    (hr : ReadsBack s₀ r .bool) : ReadsBack s₀ (.mk k none sym (some l) none (some r)) .bool := by
  have hd : s₀.Expresses (.mk k none sym (some l) none (some r)) .bool :=
    .logical hk hl.expresses hr.expresses
  fin_cases hk <;>
    exact binary (by decide) (.link (L := .bool) rfl (by decide) rfl
      (.of_not_open (by decide) (by decide) (by decide)) (combines_logical _) hd (hl .bool)
      (hr .rel))

theorem arithmetic (hk : k ∈ Node.Kind.arithmetic) (ht : t.isNumeric) (hu : u.isNumeric)
    (hl : ReadsBack s₀ l t) (hr : ReadsBack s₀ r u) :
    ReadsBack s₀ (.mk k none sym (some l) none (some r)) (t.join u) := by
  have hd : s₀.Expresses (.mk k none sym (some l) none (some r)) (t.join u) :=
    .arithmetic hk hl.expresses hr.expresses ht hu
  have hj := combines_arithmetic k ht hu
  have hsum : k = .add ∨ k = .subtract → ReadsBack s₀ (.mk k none sym (some l) none (some r))
      (t.join u) := by
    rintro (rfl | rfl) <;>
      exact binary (by decide) (.link (L := .expr) rfl (by decide) rfl
        (.of_not_open (by decide) (by decide) (by decide)) hj hd (hl .expr) (hr .term))
  have hproduct : k = .multiply ∨ k = .divide ∨ k = .modulo →
      ReadsBack s₀ (.mk k none sym (some l) none (some r)) (t.join u) := by
    rintro (rfl | rfl | rfl) <;>
      exact binary (by decide) (.link (L := .term) rfl (by decide) rfl
        (.of_not_open (by decide) (by decide) (by decide)) hj hd (hl .term) (hr .fact))
  fin_cases hk
  · exact hsum (.inl rfl)
  · exact hsum (.inr rfl)
  · exact hproduct (.inl rfl)
  · exact hproduct (.inr (.inl rfl))
  · exact hproduct (.inr (.inr rfl))
  · exact binary (by decide) (.power hj hd (hl .exponent) (hr .fact))

theorem relation (hk : k ∈ Node.Kind.relations)
    (hc : t.isNumeric ∧ u.isNumeric ∨ (k = .equal ∨ k = .notEqual) ∧ t = .bool ∧ u = .bool)
    (hl : ReadsBack s₀ l t) (hr : ReadsBack s₀ r u) :
    ReadsBack s₀ (.mk k none sym (some l) none (some r)) .bool := by
  have hd : s₀.Expresses (.mk k none sym (some l) none (some r)) .bool :=
    .relation hk hl.expresses hr.expresses hc
  obtain ⟨hb, hlevel, hleft, hright⟩ := (by decide : ∀ k ∈ Node.Kind.relations,
    k ∈ Node.Kind.binary ∧ k.level.rank = Level.comparison.rank ∧
      k.leftLevel.rank = Level.expr.rank ∧ k.rightLevel.rank = Level.expr.rank) k hk
  refine binary hb ?_
  rw [Level.rank_injective hlevel, Level.rank_injective hleft, Level.rank_injective hright]
  exact .relation hk (comparable_iff.2 hc) hd (hl .expr) (hr .expr)

theorem call {text : String} {id : Symbol.Id} {sym : Symbol} {args : List (Node × DataType)}
    (hn : s₀.resolve text = some id) (hs : s₀.symbol? id = some sym) (hk : sym.kind = .function)
    (hv : sym.valueType ≠ .void)
    (hp : (sym.parameters.map fun p => (s₀.symbol? p).bind Symbol.dataType?) =
      args.map fun a => some a.2) (ha : ∀ a ∈ args, ReadsBack s₀ a.1 a.2) :
    ReadsBack s₀ (.mk .call (some text) (some id)
      (Node.list .expressionList (args.map Prod.fst)) none none) sym.valueType := by
  intro L
  have hargs := readsAs_call (f := (·.written .bool)) hn hs hk hv hp fun a ha' =>
    (ha a ha' .bool).weaken (Node.nesting_le_list (List.mem_map_of_mem ha'))
  rw [Node.written_call, Node.nesting_call, List.map_map]
  exact hargs.anywhere L

end ReadsBack

theorem readsBack {s₀ : Scopes} {n : Node} {t : DataType} (h : s₀.Expresses n t) :
    ReadsBack s₀ n t := by
  induction h with
  | integer hn => exact (readsAs_integer hn).anywhere
  | real hx hp hq => exact (readsAs_real hx hp hq).anywhere
  | truth hk => rcases hk with rfl | rfl <;> exact (readsAs_truth (by simp)).anywhere
  | reference hn hv => exact (readsAs_reference hn hv).anywhere
  | call hn hs hk hv hp _ ih => exact .call hn hs hk hv hp ih
  | not _ ih => exact ih.not
  | logical hk _ _ ihl ihr => exact .logical hk ihl ihr
  | arithmetic hk _ _ ht hu ihl ihr => exact .arithmetic hk ht hu ihl ihr
  | relation hk _ _ hc ihl ihr => exact .relation hk hc ihl ihr

/-- Every expression, written with the parentheses it needs, is read back: exactly its tokens are
consumed, nothing is reported, and the tree that is built has the same shape, kinds and texts, the
same names and the same types. No other phrase for the tree is shorter. What follows the expression
must not be an operator, nor, behind a name, a parenthesis or a bracket that opens. -/
theorem expression_written {s : State} {n : Node} {t : DataType} {ts rest : List Token}
    (hpool : s.scopes.PoolsLiterals) (hn : s.scopes.Expresses n t)
    (hwords : ts.map Token.word = n.written .bool) (hahead : s.ahead = ts ++ rest)
    (hdepth : s.depth + n.nesting .bool ≤ maxDepth)
    (hnext : Level.bool.Stops (n.written .bool) (headKind rest)) :
    (∃ m s', expression s = .ok m s' ∧ s.Consumes ts s' ∧
      s.scopes.Mirrors s'.scopes (some n) (some m) ∧ s'.scopes.Typed m t) ∧
    ∀ ws, Expr .bool n ws → ts.length ≤ ws.length := by
  have hready : Ready s.scopes s.ahead.length (n.nesting .bool) (n.written .bool) ts rest s :=
    ⟨.refl hpool, hwords, hahead, Nat.le_refl _, hdepth⟩
  obtain ⟨m, s', hrun, hm⟩ := (readsBack hn .bool).expression hready hnext
  refine ⟨⟨m, s', hrun, hm.consumes, hm.mirrors, hm.typed⟩, fun ws hws => ?_⟩
  have hlength := hws.length_written_le
  rwa [← hwords, List.length_map] at hlength

/-- Scopes with the variables `x` and `b` and a function `f` of one parameter. -/
def fewNames : Scopes :=
  let (n, s) := (Scopes.empty.create "global").add (.new .intVariable "n" .start [.dataType .int])
  let s := (s.declare (.new .intVariable "x" .start [.dataType .int]) none).2
  let s := (s.declare (.new .boolVariable "b" .start [.dataType .bool]) none).2
  (s.declare (.new .function "f" .start [.returnType .int, .parameter n]) none).2

def State.reading (text : String) : State :=
  { stream := .ofTokens (tokensOf text), scopes := fewNames, diagnostics := #[], log := #[],
    function := none, depth := 0 }

open Scopes in
theorem valid_fewNames : fewNames.Valid := by
  have hstep {s : Scopes} {l : List (String × Symbol.Id)} (sym : Symbol)
      (h : s.Valid ∧ s.Top 0 [] "global" l) (hf : l.lookup sym.name = none) (hn : sym.Nameable)
      (hs : sym.storage = none) : (s.declare sym none).2.Valid ∧
        (s.declare sym none).2.Top 0 [] "global" (l ++ [(sym.name, s.symbols.size)]) :=
    ⟨h.1.declare h.2 hn hs, h.2.declare hf⟩
  have hglobal : (Scopes.empty.create "global").Top 0 [] "global" [] :=
    top_create rfl (by simp [IsMarked])
  have hn := Grows.add (Scopes.empty.create "global")
    (.new .intVariable "n" .start [.dataType .int]) rfl (by decide)
  have hx := hstep (.new .intVariable "x" .start [.dataType .int])
    ⟨(valid_empty.create (.inr rfl)).add _, hglobal.grows hn⟩ rfl
    (.inr (.inr (.inr ⟨.int, by decide, by decide, by decide, rfl, .inl rfl⟩))) rfl
  have hb := hstep (.new .boolVariable "b" .start [.dataType .bool]) hx rfl
    (.inr (.inr (.inr ⟨.bool, by decide, by decide, by decide, rfl, .inr (.inr rfl)⟩))) rfl
  exact (hstep (.new .function "f" .start [.returnType .int, .parameter 0]) hb rfl
    (.inl ⟨rfl, .inl (.inl rfl)⟩) rfl).1

theorem poolsLiterals_fewNames : fewNames.PoolsLiterals := valid_fewNames.poolsLiterals

theorem expresses_x : fewNames.Expresses (Scopes.variableNode "x" 1) .int :=
  .reference (by decide +kernel) ⟨_, rfl, by decide, by decide, by decide, rfl, .inl rfl⟩

/-- No expression is read. -/
def State.rejects (s : State) : Bool :=
  match expression s with
  | .ok .. => false
  | .error .. => true

theorem ne_ok_of_rejects {s : State} (h : s.rejects = true) (m : Node) (s' : State) :
    expression s ≠ .ok m s' := by
  intro hok
  simp [State.rejects, hok] at h

/-- Behind a name, a parenthesis or a bracket that opens is no operator, and yet the expression is
not read: the name is taken for that of a function or an array. -/
theorem expression_written_thenOpens :
    fewNames.PoolsLiterals ∧ fewNames.Expresses (Scopes.variableNode "x" 1) .int ∧
    (Scopes.variableNode "x" 1).nesting .bool = 0 ∧
    ∀ text, text = "x (" ∨ text = "x [" →
      ((State.reading text).ahead.take 1).map Token.word =
        (Scopes.variableNode "x" 1).written .bool ∧
      headKind ((State.reading text).ahead.drop 1) ∉ Level.bool.operators ∧
      ∀ m s', expression (.reading text) ≠ .ok m s' := by
  refine ⟨poolsLiterals_fewNames, expresses_x, rfl, ?_⟩
  rintro text (rfl | rfl)
  · exact ⟨by decide +kernel, by decide +kernel, ne_ok_of_rejects (by decide +kernel)⟩
  · exact ⟨by decide +kernel, by decide +kernel, ne_ok_of_rejects (by decide +kernel)⟩

/-- A tree that needs parentheses in all sorts of places. -/
def mixed : Node :=
  let x := Scopes.variableNode "x" 1
  let b := Scopes.variableNode "b" 2
  let int (text : String) := Node.mk .intLiteral (some text) none none none none
  let call (arg : Node) := Node.mk .call (some "f") (some 3) (some arg) none none
  .binary .and
    (.unary .not (.binary .less (.binary .subtract x (.binary .subtract x (int "-1")))
      (.binary .power (call (.binary .multiply x (.binary .add x (int "2")))) (int "2"))))
    (.binary .or b (.leaf .trueLiteral))

theorem expresses_mixed : fewNames.Expresses mixed .bool := by
  have hx := expresses_x
  have hb : fewNames.Expresses (Scopes.variableNode "b" 2) .bool :=
    .reference (by decide +kernel) ⟨_, rfl, by decide, by decide, by decide, rfl, .inr (.inr rfl)⟩
  have hone : fewNames.Expresses (.mk .intLiteral (some "-1") none none none none) .int :=
    .integer (n := -1) (by decide +kernel)
  have htwo : fewNames.Expresses (.mk .intLiteral (some "2") none none none none) .int :=
    .integer (n := 2) (by decide +kernel)
  have hcall : ∀ arg, fewNames.Expresses arg .int →
      fewNames.Expresses (.mk .call (some "f") (some 3) (some arg) none none) .int := by
    intro arg harg
    exact @Scopes.Expresses.call fewNames "f" 3 _ [(arg, .int)] (by decide +kernel) rfl rfl
      (by decide) rfl (by simpa using harg)
  have harith : ∀ k l r, k ∈ Node.Kind.arithmetic → fewNames.Expresses l .int →
      fewNames.Expresses r .int → fewNames.Expresses (.binary k l r) .int :=
    fun k l r hk hl hr => .arithmetic hk hl hr rfl rfl
  refine .logical (by decide) (.not (.relation (t := .int) (u := .int) (by decide) ?_ ?_
    (.inl ⟨rfl, rfl⟩))) (.logical (by decide) hb (.truth (.inl rfl)))
  · exact harith _ _ _ (by decide) hx (harith _ _ _ (by decide) hx hone)
  · refine harith _ _ _ (by decide) (hcall _ ?_) htwo
    exact harith _ _ _ (by decide) hx (harith _ _ _ (by decide) hx htwo)

/-- The tree is read from its words. A semicolon follows. -/
def mixedText : State := .reading "not x - (x - -1) < f(x * (x + 2)) ^ 2 and (b or true);"

theorem expression_written_mixed :
    (mixedText.ahead.take 28).map Token.word = mixed.written .bool ∧ mixed.nesting .bool = 1 ∧
    (∃ m s', expression mixedText = .ok m s' ∧ mixedText.Consumes (mixedText.ahead.take 28) s' ∧
      mixedText.scopes.Mirrors s'.scopes (some mixed) (some m) ∧ s'.scopes.Typed m .bool) ∧
    ∀ ws, Expr .bool mixed ws → (mixedText.ahead.take 28).length ≤ ws.length := by
  have hwords : (mixedText.ahead.take 28).map Token.word = mixed.written .bool := by
    decide +kernel
  refine ⟨hwords, by decide +kernel, ?_⟩
  exact expression_written poolsLiterals_fewNames expresses_mixed hwords
    (List.take_append_drop 28 _).symm (by decide +kernel)
    (.of_not_open (by decide +kernel) (by decide +kernel) (by decide +kernel))

end Parser

end StackCompiler
