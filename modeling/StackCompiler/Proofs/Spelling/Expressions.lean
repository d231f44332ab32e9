import StackCompiler.Proofs.Operators
import StackCompiler.Proofs.Spelling.Basic

/-!
# The words of expressions

The parsers of expressions consume the words of the tree they build, by the grammar of their level.
-/

namespace StackCompiler.Parser

open Word Grammar

variable {s s' : State} {p : Parser Node} {ts : List Word}

abbrev WritesExpr (level : Level) (p : Parser Node) : Prop :=
  Writes p fun _ n ts => Expr level n ts

theorem checks_typeOf (n : Node) : Checks (typeOf n) := fun _ => rfl

theorem checks_checkBoolean (n : Node) (t : Token) : Checks (checkBoolean n t) :=
  (checks_typeOf n).bind fun _ => checks_unless (checks_fail _ _)

/-- Joining operands consumes nothing, and makes a node over them. -/
def Joins (combine : Node.Kind → (left right : Node) → (first next op : Token) → Parser Node) :
    Prop :=
  ∀ k l r first next op s ts s', State.Spells s ts s' →
    Reads (combine k l r first next op)
      (fun n s'' => s.Spells ts s'' ∧ ∃ sym, n = .mk k none sym (some l) none (some r)) s'

theorem joins_logical : Joins logical := by
  intro k l r first next op s ts s' h
  simp only [logical, wp_bind]
  refine wp_mono (h.check (checks_checkBoolean l first)) fun _ s₁ h => ?_
  refine wp_mono (h.check (checks_checkBoolean r next)) fun _ s₂ h => ?_
  refine wp_mono (h.typed _ .bool op) ?_
  rintro n s₃ ⟨h, id, hn⟩
  refine ⟨h, some id, hn⟩

theorem joins_arithmetic : Joins arithmetic := by
  intro k l r first next op s ts s' h
  simp only [arithmetic, wp_bind]
  refine wp_mono (h.check (checks_typeOf l)) fun t s₁ h => ?_
  refine wp_mono (h.check (checks_typeOf r)) fun u s₂ h => ?_
  simp only [wp_ite, wp_bind, reads_fail, implies_true, and_true]
  intro _ _
  refine wp_mono (h.typed _ (t.join u) op) ?_
  rintro n s₃ ⟨h, id, hn⟩
  exact ⟨h, some id, hn⟩

theorem spells_compare (h : s.Spells ts s') (k : Node.Kind) (l r : Node) (op : Token) :
    Reads (compare k l r op)
      (fun n s'' => s.Spells ts s'' ∧ ∃ sym, n = .mk k none sym (some l) none (some r)) s' := by
  simp only [compare, wp_bind]
  refine wp_mono (h.check (checks_typeOf l)) fun t s₁ h => ?_
  refine wp_mono (h.check (checks_typeOf r)) fun u s₂ h => ?_
  simp only [wp_ite, wp_bind, reads_fail, implies_true, and_true]
  intro _
  refine wp_mono (h.typed _ .bool op) ?_
  rintro n s₃ ⟨h, id, hn⟩
  exact ⟨h, some id, hn⟩

theorem writes_leftChain {operator? : Token.Kind → Option Node.Kind}
    {combine : Node.Kind → (left right : Node) → (first next op : Token) → Parser Node}
    {ops : List Node.Kind} {lower upper : Level} (hp : WritesExpr lower p)
    (hk : ∀ k op, operator? k = some op → k = op.operator ∧ op ∈ ops)
    (hb : ∀ op ∈ ops, op.operator.isMark = true) (hj : Joins combine)
    (lift : ∀ n ts, Expr lower n ts → Expr upper n ts)
    (join : ∀ k sym l r ts us, k ∈ ops → Expr upper l ts → Expr lower r us →
      Expr upper (.mk k none sym (some l) none (some r)) (ts ++ sign k.operator :: us)) :
    WritesExpr upper (leftChain p operator? combine) := by
  intro s hs
  simp only [leftChain, wp_bind, reads_peek]
  refine wp_mono (hp s hs) ?_
  rintro l s₁ ⟨ts, h, hl⟩
  refine reads_loop (I := fun l s' => ∃ ts, s.Spells ts s' ∧ Expr upper l ts)
    (fun l s₁ ⟨ts, h, hl⟩ => ?_) l s₁ ⟨ts, h, lift _ _ hl⟩
  simp only [wp_bind, reads_peek]
  cases ho : operator? s₁.stream.current.kind with
  | none => exact ⟨ts, h, hl⟩
  | some k =>
    obtain ⟨he, hm⟩ := hk _ k ho
    simp only [wp_bind, wp_pure, Sum.elim_inl, reads_peek]
    refine wp_mono (h.advance hs (hb k hm) he) ?_
    rintro t s₂ ⟨_, h⟩
    refine wp_mono (h.part hs hp) ?_
    rintro r s₃ ⟨us, h, _, hr⟩
    refine wp_mono (hj k l r _ _ t s _ s₃ h) ?_
    rintro n s₄ ⟨h, sym, hn⟩
    refine ⟨_, h, ?_⟩
    rw [hn, List.append_assoc]
    exact join k sym l r _ _ hm hl hr

/-! ## Operands -/

theorem checks_checkArguments (args : List (Token × Node)) (params : List Symbol.Id) :
    Checks (checkArguments args params) := by
  induction args generalizing params with
  | nil => exact fun _ => rfl
  | cons a args ih =>
    cases params with
    | nil => exact fun _ => rfl
    | cons id params =>
      intro s
      simp only [checkArguments, wp_bind, wp_ite, reads_symbol?, reads_fail, implies_true,
        and_true]
      exact wp_mono (checks_typeOf a.2 s) fun _ s' e _ => e ▸ ih params s

theorem writes_variableNamed (t : Token) : Writes (variableNamed t) fun _ n ts =>
    ts = [] ∧ ∃ sym, n = .mk .reference (some t.text) sym none none none := by
  intro s _
  simp only [variableNamed, wp_bind, wp_ite, reads_fail, reads_resolve, implies_true,
    true_and]
  intro _
  cases s.scopes.resolve t.text with
  | none => trivial
  | some id =>
    simp only [wp_bind, reads_symbol?]
    split
    · trivial
    · trivial
    · trivial
    · exact ⟨[], .refl s, rfl, some id, rfl⟩

theorem writes_arguments (hp : WritesExpr .bool p) : Writes (arguments p) fun _ args ts =>
    ∃ phrases : List Phrase, args.map Prod.snd = phrases.map Prod.fst ∧
      ts = commas (phrases.map Prod.snd) ∧ ∀ a ∈ phrases, Expr .bool a.1 a.2 := by
  intro s hs
  simp only [arguments, wp_bind, wp_ite, wp_pure]
  refine ⟨fun _ => ⟨[], .refl s, [], rfl, rfl, by simp⟩, fun _ => ?_⟩
  have hitem : Writes (do let t ← peek; return (t, ← p)) fun _ (a : Token × Node) ts =>
      Expr .bool a.2 ts := by
    intro s hs
    simp only [wp_bind, wp_pure]
    exact hp s hs
  refine wp_mono (writes_commaList hitem (fun _ _ _ _ _ _ h => h) s hs) ?_
  rintro args s' ⟨ts, h, items, _, ha, ht, hi⟩
  refine ⟨ts, h, items.map fun i => (i.1.2, i.2), ?_, ?_, ?_⟩
  · rw [ha, List.map_map, List.map_map]
    rfl
  · rw [ht, List.map_map]
    rfl
  · intro a hm
    obtain ⟨i, hi', rfl⟩ := List.mem_map.1 hm
    exact hi i hi'

theorem writes_callNamed (hp : WritesExpr .bool p) (t : Token) (kind : Node.Kind) :
    Writes (callNamed p t kind) fun _ n ts => ∃ sym, ∃ args : List Phrase,
      n = .mk kind (some t.text) sym (Node.list .expressionList (args.map Prod.fst)) none none ∧
      ts = sign .leftParen :: (commas (args.map Prod.snd) ++ [sign .rightParen]) ∧
      ∀ a ∈ args, Expr .bool a.1 a.2 := by
  intro s hs
  simp only [callNamed, wp_bind, reads_resolve]
  cases s.scopes.resolve t.text with
  | none => trivial
  | some id =>
    simp only [wp_bind, wp_ite, reads_symbol?, reads_fail, implies_true, and_true]
    intro _
    have h := State.Spells.refl s
    refine wp_mono (h.expect hs rfl) fun _ s₂ h => ?_
    refine wp_mono (h.part hs (writes_arguments hp)) ?_
    rintro args s₃ ⟨us, h, _, phrases, ha, ht, hm⟩
    refine wp_mono (h.expect hs rfl) fun _ s₄ h => ?_
    intro _
    refine wp_mono (h.check (checks_checkArguments _ _)) fun _ s₅ h => ?_
    refine ⟨_, h, some id, phrases, ?_, ?_, hm⟩
    · rw [← ha]
      rfl
    · simp [ht]

theorem writes_named (hp : WritesExpr .bool p) (t : Token) : Writes (named p t) fun _ n ts =>
    Expr .exponent n (name t.text :: ts) := by
  intro s hs
  simp only [named, wp_bind, wp_ite]
  refine ⟨fun _ => ?_, fun _ => ?_⟩
  · refine wp_mono (writes_callNamed hp t .call s hs) ?_
    rintro n s₁ ⟨ts, h, sym, args, hn, ht, ha⟩
    refine wp_mono (h.check (checks_typeOf n)) fun type s₂ h => ⟨fun _ => trivial, fun _ => ?_⟩
    refine ⟨ts, h, ?_⟩
    rw [hn, ht]
    exact .call ha
  · refine wp_mono (writes_variableNamed t s hs) ?_
    rintro n s₁ ⟨ts, h, ht, sym, hn⟩
    refine ⟨ts, h, ?_⟩
    rw [hn, ht]
    exact .reference

theorem State.Spells.integerLiteral (h : s.Spells ts s') (t : Token) (literal : String) :
    Reads (integerLiteral t literal) (fun n s'' => s.Spells ts s'' ∧
      ∃ sym, n = .mk .intLiteral (some literal) sym none none none) s' := by
  unfold Parser.integerLiteral
  split
  · trivial
  · simp only [wp_bind]
    exact wp_mono (h.intern _ _ _ _ _) fun id s₁ h => ⟨h, some id, rfl⟩

theorem State.Spells.realLiteral (h : s.Spells ts s') (t : Token) (literal : String) :
    Reads (realLiteral t literal) (fun n s'' => s.Spells ts s'' ∧
      ∃ sym, n = .mk .realLiteral (some literal) sym none none none) s' := by
  unfold Parser.realLiteral
  split
  · trivial
  · simp only [wp_bind]
    exact wp_mono (h.intern _ _ _ _ _) fun id s₁ h => ⟨h, some id, rfl⟩

theorem WritesExpr.grouped {level : Level} (hp : WritesExpr level p) :
    WritesExpr level (grouped p) := by
  intro s hs
  have hw := hp { s with depth := s.depth + 1 } ⟨hs.spelled, hs.inside, hs.ends⟩
  unfold Reads wp Parser.grouped at *
  cases hr : p { s with depth := s.depth + 1 } with
  | error e s₁ => trivial
  | ok n s₁ =>
    rw [hr] at hw
    obtain ⟨ts, h, hn⟩ := hw
    have hc (hs : s.Cut) : s₁.Cut := h.cut ⟨hs.spelled, hs.inside, hs.ends⟩
    exact ⟨ts, ⟨fun hs => ⟨(hc hs).spelled, (hc hs).inside, (hc hs).ends⟩, h.symbols, h.clean,
      fun hs => h.words ⟨hs.spelled, hs.inside, hs.ends⟩⟩, hn⟩

section Operands

variable (hp : WritesExpr .bool p)
include hp

theorem spells_operand (hs : s.Cut) (h : s.Spells ts s') :
    Reads (operand p s'.stream.current)
      (fun n s'' => ∃ us, s.Spells (ts ++ us) s'' ∧ Expr .exponent n us) s' := by
  unfold operand
  split
  · next hk =>
    simp only [wp_bind]
    refine wp_mono (h.advance hs rfl hk) ?_
    rintro _ s₁ ⟨_, h⟩
    refine wp_mono (h.typed _ _ _) ?_
    rintro n s₂ ⟨h, id, hn⟩
    exact ⟨_, h, hn ▸ .trueLiteral⟩
  · next hk =>
    simp only [wp_bind]
    refine wp_mono (h.advance hs rfl hk) ?_
    rintro _ s₁ ⟨_, h⟩
    refine wp_mono (h.typed _ _ _) ?_
    rintro n s₂ ⟨h, id, hn⟩
    exact ⟨_, h, hn ▸ .falseLiteral⟩
  · next hk =>
    simp only [wp_bind, wp_get, wp_ite, reads_fail, implies_true, true_and]
    intro _
    refine wp_mono (h.advance hs rfl hk) ?_
    rintro _ s₁ ⟨_, h⟩
    refine wp_mono (h.part hs hp.grouped) ?_
    rintro n s₂ ⟨us, h, _, hn⟩
    refine wp_mono (h.expect hs rfl) fun _ s₃ h => ?_
    exact ⟨_, by simpa using h, .group hn⟩
  · next hk =>
    simp only [wp_bind]
    refine wp_mono (h.advanceText hs rfl hk) ?_
    rintro t s₁ ⟨ht, h⟩
    refine wp_mono (h.part hs (writes_named hp t)) ?_
    rintro n s₂ ⟨us, h, _, hn⟩
    rw [ht] at hn
    exact ⟨_, by simpa [name] using h, hn⟩
  · trivial

theorem writes_primary : WritesExpr .exponent (primary p) := by
  intro s hs
  simp only [primary, wp_bind, reads_peek]
  refine wp_mono ((State.Spells.refl s).accept hs (k := .minus) rfl) fun negative s₁ h => ?_
  have hc := (h.cut hs).current_spelled
  split
  · next hk =>
    simp only [wp_bind]
    refine wp_mono (h.advanceText hs rfl hk) ?_
    rintro _ s₂ ⟨_, h⟩
    refine wp_mono (h.integerLiteral _ _) ?_
    rintro n s₃ ⟨h, sym, hn⟩
    refine ⟨_, h, ?_⟩
    have hu := hc.unsigned (.inl hk)
    cases negative with
    | true => exact hn ▸ .negativeInteger hu
    | false => exact hn ▸ .integer hu
  · next hk =>
    simp only [wp_bind]
    refine wp_mono (h.advanceText hs rfl hk) ?_
    rintro _ s₂ ⟨_, h⟩
    refine wp_mono (h.realLiteral _ _) ?_
    rintro n s₃ ⟨h, sym, hn⟩
    refine ⟨_, h, ?_⟩
    have hu := hc.unsigned (.inr hk)
    cases negative with
    | true => exact hn ▸ .negativeReal hu
    | false => exact hn ▸ .real hu
  · cases negative with
    | false =>
      refine wp_mono (spells_operand hp hs h) ?_
      rintro n s₂ ⟨us, h, hn⟩
      exact ⟨us, by simpa using h, hn⟩
    | true =>
      simp only [if_true, wp_bind]
      -- The sign is left out of the tree, but not without a report.
      refine wp_mono (h.warn s₁.stream.current (.cannotNegate s₁.stream.current) []) ?_
      rintro _ s₂ ⟨h, _, hst⟩
      rw [← hst]
      refine wp_mono (spells_operand hp hs h) ?_
      rintro n s₃ ⟨us, h, hn⟩
      exact ⟨us, h, hn⟩

theorem writes_power : WritesExpr .fact (power p) := by
  refine Writes.fix fun q hq s hs => ?_
  simp only [wp_bind, wp_ite, wp_pure, reads_peek]
  refine wp_mono (writes_primary hp s hs) ?_
  rintro l s₁ ⟨ts, h, hl⟩
  refine ⟨fun hk => ?_, fun _ => ?_⟩
  · have hk : s₁.stream.kind = .caret := by simpa using hk
    refine wp_mono (h.advance hs rfl hk) ?_
    rintro t s₂ ⟨_, h⟩
    refine wp_mono (h.part hs hq) ?_
    rintro r s₃ ⟨us, h, _, hr⟩
    refine wp_mono (joins_arithmetic .power l r _ _ t s _ s₃ h) ?_
    rintro n s₄ ⟨h, sym, hn⟩
    refine ⟨_, h, ?_⟩
    rw [hn, List.append_assoc]
    exact .power hl hr
  · exact ⟨ts, h, .fact hl⟩

theorem writes_product : WritesExpr .term (product p) :=
  writes_leftChain (writes_power hp) (fun _ _ => productOperator?_eq) (by decide)
    joins_arithmetic (fun _ _ => .term) (fun _ _ _ _ _ _ => .product)

theorem writes_sum : WritesExpr .expr (sum p) :=
  writes_leftChain (writes_product hp) (fun _ _ => sumOperator?_eq) (by decide)
    joins_arithmetic (fun _ _ => .expr) (fun _ _ _ _ _ _ => .sum)

/-- A sum, or two sums with a relation between them, and what is done with it. -/
theorem spells_comparison {f : Node → Parser Node} {Q : Node → State → Prop}
    (hs : s.Cut) (h : s.Spells ts s')
    (hf : ∀ n us s'', s.Spells (ts ++ us) s'' → Expr .comparison n us → Reads (f n) Q s'') :
    Reads (sum p) (fun left s'' => Reads (match relationOperator? s''.stream.current.kind with
      | some k => do
        let op ← advance
        let right ← sum p
        let node ← compare k left right op
        f node
      | none => do
        let node ← pure left
        f node) Q s'') s' := by
  refine wp_mono (h.part hs (writes_sum hp)) ?_
  rintro l s₁ ⟨us, h, _, hl⟩
  cases ho : relationOperator? s₁.stream.current.kind with
  | none => exact hf l us s₁ h (.comparison hl)
  | some k =>
    obtain ⟨he, hm⟩ := relationOperator?_eq ho
    have hb : k.operator.isMark = true :=
      (by decide : ∀ k ∈ Node.Kind.relations, k.operator.isMark = true) k hm
    simp only [wp_bind]
    refine wp_mono (h.advance hs hb he) ?_
    rintro t s₂ ⟨_, h⟩
    refine wp_mono (h.part hs (writes_sum hp)) ?_
    rintro r s₃ ⟨vs, h, _, hr⟩
    refine wp_mono (spells_compare h k l r t) ?_
    rintro n s₄ ⟨h, sym, hn⟩
    refine hf n (us ++ sign k.operator :: vs) s₄ (by simpa using h) ?_
    rw [hn]
    exact .relation hm hl hr

theorem writes_relation : WritesExpr .rel (relation p) := by
  intro s hs
  simp only [relation, wp_bind, reads_is, wp_ite, wp_map, reads_peek]
  refine ⟨fun hk => ?_, fun _ => ?_⟩
  · have hk : s.stream.kind = .keyword .not := by simpa using hk
    refine wp_mono ((State.Spells.refl s).advance hs rfl hk) ?_
    rintro t s₁ ⟨_, h⟩
    refine spells_comparison (f := fun n => checkBoolean n s₁.stream.current >>= fun _ =>
      typed (.unary .not n) .bool t) hp hs h fun n us s₂ h hn => ?_
    rw [Reads, wp_bind]
    refine wp_mono (h.check (checks_checkBoolean n _)) fun _ s₃ h => ?_
    refine wp_mono (h.typed _ .bool t) ?_
    rintro m s₄ ⟨h, id, hm⟩
    refine ⟨_, h, ?_⟩
    rw [hm]
    exact .not hn
  · exact spells_comparison (f := pure) hp hs (.refl s) fun n us s₂ h hn => ⟨us, h, .rel hn⟩

theorem writes_logicalChain : WritesExpr .bool (logicalChain p) :=
  writes_leftChain (writes_relation hp) (fun _ _ => logicalOperator?_eq) (by decide)
    joins_logical (fun _ _ => .bool) (fun _ _ _ _ _ _ => .logical)

end Operands

theorem writes_expression : WritesExpr .bool expression :=
  Writes.fix fun _ => writes_logicalChain

theorem writes_sumExpression : WritesExpr .expr sumExpression := writes_sum writes_expression

end StackCompiler.Parser
