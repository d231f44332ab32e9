import StackCompiler.Proofs.Precedence.Reading

/-!
# The levels of expressions

Each level of expressions reads a phrase of its level, and stops where the phrase ends.

A chain of operators is read operand by operand, so its left operand, a chain itself, is not read by
a call of its own. `ReadsAs` therefore says that reading a phrase leads to where the parser of the
level has the tree of the phrase and looks for another operator. Once there is none, the parser is
done.
-/

namespace StackCompiler.Parser

open Word Grammar

/-- What a chain of operators is made of. -/
structure Chain where
  operator? : Token.Kind → Option Node.Kind
  combine : Node.Kind → Node → Node → Token → Token → Token → Parser Node

def chain? : Level → Option Chain
  | .term => some ⟨productOperator?, arithmetic⟩
  | .expr => some ⟨sumOperator?, arithmetic⟩
  | .bool => some ⟨logicalOperator?, logical⟩
  | _ => none

/-- The level of the operands of a chain. Other levels stand for themselves. -/
def operandLevel : Level → Level
  | .term => .fact
  | .expr => .term
  | .bool => .rel
  | L => L

def comparison (e : Parser Node) : Parser Node := do
  let left ← sum e
  match relationOperator? (← peek).kind with
  | some k => do
    let op ← advance
    let right ← sum e
    compare k left right op
  | none => pure left

/-- The parser of a level. Expressions in parentheses are read by `e`. -/
def reader (e : Parser Node) : Level → Parser Node
  | .exponent => primary e
  | .fact => power e
  | .term => product e
  | .expr => sum e
  | .comparison => comparison e
  | .rel => relation e
  | .bool => logicalChain e

/-- What a level has still to read once it has the tree `m`. -/
def goOn (e : Parser Node) (L : Level) (first : Token) (m : Node) : Parser Node :=
  match chain? L with
  | none => pure m
  | some c =>
    loop (fun left => look c.operator? >>=
      chainLink (reader e (operandLevel L)) c.combine first left) m

section Levels

variable {L : Level} {c : Chain} {e : Parser Node}

theorem reader_eq_leftChain (hc : chain? L = some c) :
    reader e L = leftChain (reader e (operandLevel L)) c.operator? c.combine := by
  cases L <;> cases hc <;> rfl

theorem rank_operandLevel (L : Level) : (operandLevel L).rank ≤ L.rank := by
  cases L <;> decide

theorem mem_operators_of_chain {w : Token.Kind} {k : Node.Kind} (hc : chain? L = some c)
    (h : c.operator? w = some k) : w ∈ L.operators := by
  cases L <;> cases hc
  · simp only [productOperator?] at h
    split at h <;> cases h <;> decide
  · simp only [sumOperator?] at h
    split at h <;> cases h <;> decide
  · simp only [logicalOperator?] at h
    split at h <;> cases h <;> decide

theorem goOn_of_stops {s : State} {m : Node} {first : Token}
    (h : s.stream.kind ∉ L.operators) : goOn e L first m s = .ok m s := by
  unfold goOn
  cases hc : chain? L with
  | none => rfl
  | some c =>
    have hnone : c.operator? s.stream.kind = none := by
      rw [Option.eq_none_iff_forall_ne_some]
      intro k hk
      exact h (mem_operators_of_chain hc hk)
    simp only [loop_eq]
    have hlook : (look c.operator? >>= chainLink (reader e (operandLevel L)) c.combine first m) s =
        .ok (.inr m) s := by
      show chainLink _ _ first m (c.operator? s.stream.kind) s = _
      rw [hnone]
      rfl
    rw [bind_of_ok hlook]
    rfl

end Levels

/-- With fewer than `N` tokens left, `e` reads expressions. -/
def Guards (N : Nat) (e : Parser Node) : Prop :=
  ∀ s : State, s.ahead.length < N → e s = expression s

theorem guarded_of_lt {α : Type} {p : Parser α} {s : State} {k : Nat} (h : s.ahead.length < k) :
    guarded k p s = p s := by
  rw [← State.remaining_eq] at h
  rw [guarded, if_pos h]

theorem guards_guarded (N : Nat) : Guards N (guarded N expression) := fun _ => guarded_of_lt

/-- At the level `L`, the words are read as the tree `n` of type `t`, if `d` parentheses may be
opened. -/
structure ReadsAs (s₀ : Scopes) (L : Level) (n : Node) (t : DataType) (ws : List Word) (d : Nat) :
    Prop where
  expresses : s₀.Expresses n t
  begins : L.Begins ws
  reads : ∀ {N : Nat} {e : Parser Node} {s : State} {ts rest : List Token}, Guards N e →
    Ready s₀ N d ws ts rest s → (operandLevel L).Stops ws (headKind rest) →
    ∃ m s', reader e L s = goOn e L s.stream.current m s' ∧ Rebuilds s₀ s ts n t m s'

section Phrases

variable {s₀ : Scopes} {L : Level} {n l r : Node} {t u v : DataType} {ws us : List Word}
  {d d' N : Nat} {e : Parser Node} {s : State} {ts rest : List Token} {sym : Option Symbol.Id}
  {k : Node.Kind} {c : Chain}

theorem ReadsAs.run (h : ReadsAs s₀ L n t ws d) (he : Guards N e) (hs : Ready s₀ N d ws ts rest s)
    (hstop : L.Stops ws (headKind rest)) :
    ∃ m s', reader e L s = .ok m s' ∧ Rebuilds s₀ s ts n t m s' := by
  obtain ⟨m, s', hrun, hm⟩ := h.reads he hs (hstop.mono (rank_operandLevel L))
  refine ⟨m, s', ?_, hm⟩
  rw [hrun, goOn_of_stops]
  rw [State.kind_eq, hm.consumes.ahead hs.ahead]
  exact hstop.operator

theorem expression_eq (s : State) :
    expression s = reader (guarded s.ahead.length expression) .bool s := fix_eq logicalChain s

theorem ReadsAs.expression (h : ReadsAs s₀ .bool n t ws d) (hs : Ready s₀ N d ws ts rest s)
    (hstop : Level.bool.Stops ws (headKind rest)) :
    ∃ m s', expression s = .ok m s' ∧ Rebuilds s₀ s ts n t m s' := by
  rw [expression_eq]
  exact h.run (guards_guarded _) ⟨hs.scopes, hs.words, hs.ahead, Nat.le_refl _, hs.depth⟩ hstop

/-! ## Operators -/

def operation (operand : Parser Node)
    (combine : Node → Node → Token → Token → Token → Parser Node) (first : Token) (left : Node) :
    Parser Node := do
  let op ← advance
  let next ← peek
  let right ← operand
  combine left right first next op

theorem reads_operation (operand : Parser Node)
    {combine : Node → Node → Token → Token → Token → Parser Node} {ml : Node} {ts₁ ts₂ : List Token}
    {s₁ : State} (first : Token) (hk : k ∈ Node.Kind.binary) (hj : Combines combine k t u v)
    (hd : s₀.Expresses (.mk k none sym (some l) none (some r)) v) (hl : Rebuilds s₀ s ts₁ l t ml s₁)
    (hs : Ready s₀ N d (sign k.operator :: us) ts₂ rest s₁)
    (hr : ∀ ts₃ s₂, Ready s₀ N d us ts₃ rest s₂ →
      s₂.ahead.length < s₁.ahead.length →
      ∃ m s', operand s₂ = .ok m s' ∧ Rebuilds s₀ s₂ ts₃ r u m s') :
    ∃ m s', operation operand combine first ml s₁ = .ok m s' ∧
      Rebuilds s₀ s (ts₁ ++ ts₂) (.mk k none sym (some l) none (some r)) v m s' := by
  obtain ⟨x, ts₃, rfl, -, hahead, hx, hs₂⟩ := hs.cons
  obtain ⟨mr, s₃, hrun, hR⟩ := hr ts₃ _ hs₂ (by
    rw [State.ahead_advance hahead, hahead, List.length_cons]
    exact Nat.lt_succ_self _)
  have e₃ := hR.consumes.gains.toExtends
  obtain ⟨id, S, hcombine, hg, hid⟩ := hj s₃ ml mr first
    s₁.advance.stream.current s₁.stream.current
    hR.consumes.gains.pool (hl.typed.mono e₃) hR.typed
  refine ⟨(Node.binary k ml mr).withSymbol id, { s₃ with scopes := S }, ?_, ?_, ?_, id, rfl, hid⟩
  · show (operand >>= fun right => combine ml right first _ _)
      s₁.advance = _
    rw [bind_of_ok hrun, hcombine]
  · have hc := (hl.consumes.trans (hx.trans hR.consumes)).trans (.nil hg)
    rwa [List.append_nil] at hc
  · have hne := Node.Kind.ne_of_binary hk
    refine .node (fun h => ?_) (fun _ => ⟨v, hd, id, rfl, hid⟩)
      (hl.mirrors.mono (e₃.trans hg.toExtends)) .none (hR.mirrors.mono hg.toExtends)
    exact absurd h (by simp [hne])

theorem chainLink_some (operand : Parser Node)
    (combine : Node.Kind → Node → Node → Token → Token → Token → Parser Node) (first : Token)
    (left : Node) (k : Node.Kind) : chainLink operand combine first left (some k) =
      operation operand (combine k) first left >>= fun m => pure (.inl m) := by
  simp only [chainLink, operation, bind_assoc]

theorem ReadsAs.link (hc : chain? L = some c) (hk : k ∈ Node.Kind.binary)
    (ho : c.operator? k.operator = some k) (hw : (operandLevel L).Stops ws k.operator)
    (hj : Combines (c.combine k) k t u v)
    (hd : s₀.Expresses (.mk k none sym (some l) none (some r)) v) (hl : ReadsAs s₀ L l t ws d)
    (hr : ReadsAs s₀ (operandLevel L) r u us d') :
    ReadsAs s₀ L (.mk k none sym (some l) none (some r)) v (ws ++ sign k.operator :: us)
      (max d d') := by
  refine ⟨hd, hl.begins.append _, fun {N e s ts rest} he hs hstop => ?_⟩
  obtain ⟨ts₁, ts₂, rfl, hw₂, hs₁, hs₂⟩ := hs.split
  obtain ⟨ml, s₁, hrun, hL⟩ := hl.reads he (hs₁.weaken (Nat.le_max_left d d'))
    (headKind_of_words hw₂ ▸ hw)
  have hs₃ := (hs₂ s₁ hL.consumes).weaken (Nat.le_max_right d d')
  obtain ⟨m, s', hop, hR⟩ := reads_operation (reader e (operandLevel L)) s.stream.current
    hk hj hd hL hs₃ fun ts₃ s₂ h₂ _ => hr.run he h₂ hstop.last.tail
  refine ⟨m, s', ?_, hR⟩
  have hlink : (look c.operator? >>= chainLink (reader e (operandLevel L)) c.combine
      s.stream.current ml) s₁ = .ok (.inl m) s' := by
    show chainLink _ _ _ ml (c.operator? s₁.stream.kind) s₁ = _
    rw [State.kind_eq, hs₃.ahead, headKind_of_words hw₂]
    show chainLink _ _ _ ml (c.operator? k.operator) s₁ = _
    rw [ho, chainLink_some, bind_of_ok hop]
    rfl
  rw [hrun]
  simp only [goOn, hc]
  rw [loop_eq, bind_of_ok hlink]
  refine guarded_of_lt ?_
  rw [hR.consumes.ahead hs.ahead, hs₃.ahead, List.length_append]
  have := congrArg List.length hw₂
  rw [List.length_map, List.length_cons] at this
  omega

theorem ReadsAs.chain (hc : chain? L = some c) (h : ReadsAs s₀ (operandLevel L) n t ws d) :
    ReadsAs s₀ L n t ws d := by
  refine ⟨h.expresses, h.begins.mono (rank_operandLevel L), fun {N e s ts rest} he hs hstop => ?_⟩
  obtain ⟨m, s', hrun, hm⟩ := h.run he hs hstop
  refine ⟨m, s', ?_, hm⟩
  simp only [reader_eq_leftChain hc, goOn, hc]
  exact bind_of_ok hrun

theorem power_eq (e : Parser Node) (s : State) : reader e .fact s =
    (reader e .exponent >>= fun base => do
      if ← is .caret then
        operation (guarded s.ahead.length (reader e .fact)) (arithmetic .power) s.stream.current
          base
      else pure base) s :=
  fix_eq _ s

theorem ReadsAs.fact (h : ReadsAs s₀ .exponent n t ws d) : ReadsAs s₀ .fact n t ws d := by
  refine ⟨h.expresses, h.begins.mono (by decide), fun {N e s ts rest} he hs hstop => ?_⟩
  obtain ⟨m, s', hrun, hm⟩ := h.run he hs (hstop.mono (by decide))
  refine ⟨m, s', ?_, hm⟩
  have hcaret : s'.stream.kind ≠ .caret := by
    rw [State.kind_eq, hm.consumes.ahead hs.ahead]
    intro hk
    exact hstop.operator (hk ▸ by decide)
  rw [power_eq, bind_of_ok hrun, bind_of_ok (is_of_ne hcaret)]
  rfl

theorem ReadsAs.power (hj : Combines (arithmetic .power) .power t u v)
    (hd : s₀.Expresses (.mk .power none sym (some l) none (some r)) v)
    (hl : ReadsAs s₀ .exponent l t ws d) (hr : ReadsAs s₀ .fact r u us d') :
    ReadsAs s₀ .fact (.mk .power none sym (some l) none (some r)) v
      (ws ++ sign Node.Kind.power.operator :: us) (max d d') := by
  refine ⟨hd, (hl.begins.append _).mono (by decide), fun {N e s ts rest} he hs hstop => ?_⟩
  obtain ⟨ts₁, ts₂, rfl, hw₂, hs₁, hs₂⟩ := hs.split
  obtain ⟨ml, s₁, hrun, hL⟩ := hl.run he (hs₁.weaken (Nat.le_max_left d d'))
    (headKind_of_words hw₂ ▸ .of_not_open (by decide) (by decide) (by decide))
  have hs₃ := (hs₂ s₁ hL.consumes).weaken (Nat.le_max_right d d')
  have hlen : s₁.ahead.length ≤ s.ahead.length := by
    rw [hs₁.ahead, hs₃.ahead]
    simp
  obtain ⟨m, s', hop, hR⟩ := reads_operation (guarded s.ahead.length (reader e .fact))
    s.stream.current (by decide) hj hd hL hs₃ fun ts₃ s₂ h₂ hlt => by
      rw [guarded_of_lt (Nat.lt_of_lt_of_le hlt hlen)]
      exact hr.run he h₂ hstop.last.tail
  refine ⟨m, s', ?_, hR⟩
  have hcaret : s₁.stream.kind = .caret := by
    rw [State.kind_eq, hs₃.ahead, headKind_of_words hw₂]
    rfl
  rw [power_eq, bind_of_ok hrun, bind_of_ok (is_of_eq hcaret)]
  exact hop

/-- What follows the left side of a relation. -/
def relate (e : Parser Node) (left : Node) : Option Node.Kind → Parser Node
  | some k => do
    let first ← peek
    operation (reader e .expr) (fun l r _ _ op => compare k l r op) first left
  | none => pure left

theorem comparison_eq (e : Parser Node) (s : State) : reader e .comparison s =
    (reader e .expr >>= fun left => look relationOperator? >>= relate e left) s := by
  refine congrArg (fun f : Node → Parser Node => (sum e >>= f) s) ?_
  funext left s
  show (match relationOperator? s.stream.kind with | some k => _ | none => _ : Parser Node) s =
    relate e left (relationOperator? s.stream.kind) s
  cases relationOperator? s.stream.kind <;> rfl

theorem mem_operators_of_relation {w : Token.Kind} (h : relationOperator? w = some k) :
    w ∈ Level.comparison.operators := by
  unfold relationOperator? at h
  split at h <;> cases h <;> decide

theorem ReadsAs.comparison (h : ReadsAs s₀ .expr n t ws d) : ReadsAs s₀ .comparison n t ws d := by
  refine ⟨h.expresses, h.begins.mono (by decide), fun {N e s ts rest} he hs hstop => ?_⟩
  obtain ⟨m, s', hrun, hm⟩ := h.run he hs (hstop.mono (by decide))
  refine ⟨m, s', ?_, hm⟩
  have hnone : relationOperator? s'.stream.kind = none := by
    rw [State.kind_eq, hm.consumes.ahead hs.ahead, Option.eq_none_iff_forall_ne_some]
    intro k hk
    exact hstop.operator (mem_operators_of_relation hk)
  rw [comparison_eq, bind_of_ok hrun]
  show relate e m (relationOperator? s'.stream.kind) s' = _
  rw [hnone]
  rfl

theorem ReadsAs.relation (hk : k ∈ Node.Kind.relations) (hc : comparable k t u = true)
    (hd : s₀.Expresses (.mk k none sym (some l) none (some r)) .bool)
    (hl : ReadsAs s₀ .expr l t ws d) (hr : ReadsAs s₀ .expr r u us d') :
    ReadsAs s₀ .comparison (.mk k none sym (some l) none (some r)) .bool
      (ws ++ sign k.operator :: us) (max d d') := by
  refine ⟨hd, (hl.begins.append _).mono (by decide), fun {N e s ts rest} he hs hstop => ?_⟩
  obtain ⟨hkind, hne, hb, hp, hop⟩ := (by decide : ∀ k ∈ Node.Kind.relations,
    relationOperator? k.operator = some k ∧ k.operator ∉ Level.expr.operators ∧
      k ∈ Node.Kind.binary ∧ k.operator ≠ .leftParen ∧ k.operator ≠ .leftBracket) k hk
  obtain ⟨ts₁, ts₂, rfl, hw₂, hs₁, hs₂⟩ := hs.split
  obtain ⟨ml, s₁, hrun, hL⟩ := hl.run he (hs₁.weaken (Nat.le_max_left d d'))
    (headKind_of_words hw₂ ▸ .of_not_open hne hp hop)
  have hs₃ := (hs₂ s₁ hL.consumes).weaken (Nat.le_max_right d d')
  obtain ⟨m, s', hop, hR⟩ := reads_operation (reader e .expr) s₁.stream.current hb
    (combines_compare hc) hd hL hs₃ fun ts₃ s₂ h₂ _ =>
      hr.run he h₂ (hstop.last.tail.mono (by decide))
  refine ⟨m, s', ?_, hR⟩
  rw [comparison_eq, bind_of_ok hrun]
  show relate e ml (relationOperator? s₁.stream.kind) s₁ = _
  rw [State.kind_eq, hs₃.ahead, headKind_of_words hw₂]
  show relate e ml (relationOperator? k.operator) s₁ = _
  rw [hkind]
  exact hop

theorem relation_of_ne {e : Parser Node} {s : State} (h : s.stream.kind ≠ .keyword .not) :
    reader e .rel s = reader e .comparison s := by
  show relation e s = _
  rw [Parser.relation, bind_of_ok (is_of_ne h)]
  simp only [Bool.false_eq_true, if_false, pure_bind, bind_pure]
  rfl

theorem relation_of_not {e : Parser Node} {s : State} (h : s.stream.kind = .keyword .not) :
    reader e .rel s = (reader e .comparison >>= fun node => do
      checkBoolean node s.stream.advance.current
      typed (.unary .not node) .bool s.stream.current) s.advance := by
  show relation e s = _
  rw [Parser.relation, bind_of_ok (is_of_eq h)]
  simp only [reader, Parser.comparison, bind_assoc]
  refine congrFun (bind_congr fun left => bind_congr fun x => ?_ : sum e >>= _ = sum e >>= _) _
  cases relationOperator? x.kind with
  | some k => simp only [bind_assoc]
  | none => rfl

theorem ReadsAs.rel (h : ReadsAs s₀ .comparison n t ws d) : ReadsAs s₀ .rel n t ws d := by
  refine ⟨h.expresses, h.begins.mono (by decide), fun {N e s ts rest} he hs hstop => ?_⟩
  obtain ⟨m, s', hrun, hm⟩ := h.run he hs (hstop.mono (by decide))
  refine ⟨m, s', ?_, hm⟩
  have hkind : s.stream.kind ≠ .keyword .not := by
    obtain ⟨w, us, rfl, -, hw⟩ := h.begins
    rw [State.kind_eq, hs.ahead, headKind_of_words hs.words]
    exact hw (by decide)
  rw [relation_of_ne hkind, hrun]
  rfl

theorem ReadsAs.not (h : ReadsAs s₀ .comparison n .bool ws d) :
    ReadsAs s₀ .rel (.mk .not none sym (some n) none none) .bool (key .not :: ws) d := by
  have hd : s₀.Expresses (.mk .not none sym (some n) none none) .bool := .not h.expresses
  have hbegins : Level.rel.Begins (key .not :: ws) :=
    ⟨_, _, rfl, by simp [key], fun hL => absurd hL (by decide)⟩
  refine ⟨hd, hbegins, fun {N e s ts rest} he hs hstop => ?_⟩
  obtain ⟨x, ts', rfl, hx, hahead, hc, hs'⟩ := hs.cons
  obtain ⟨m, s', hrun, hm⟩ := h.run he hs' (hstop.tail.mono (by decide))
  obtain ⟨id, S, htyped, hg, hid⟩ := exists_typed hm.consumes.gains.pool (.unary .not m) .bool x
  refine ⟨(Node.unary .not m).withSymbol id, { s' with scopes := S }, ?_, ?_, ?_, id, rfl, hid⟩
  · have hkind : s.stream.kind = .keyword .not := by
      rw [State.kind_of_ahead hahead]
      exact congrArg Word.kind hx
    rw [relation_of_not hkind, bind_of_ok hrun, State.current_of_ahead hahead,
      bind_of_ok (checkBoolean_of_typed hm.typed _), htyped]
    rfl
  · have := (hc.trans hm.consumes).trans (.nil hg)
    rwa [List.append_nil] at this
  · exact .node (by simp) (fun _ => ⟨.bool, hd, id, rfl, hid⟩) (hm.mirrors.mono hg.toExtends)
      .none .none

end Phrases

end StackCompiler.Parser
