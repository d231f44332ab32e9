import StackCompiler.Proofs.Operators
import StackCompiler.Proofs.Reading.Basic

/-!
# Reading expressions

Whatever the parsers of expressions accept is a well-formed expression.
-/

namespace StackCompiler.Parser

variable {names : Names} {ret : Option DataType} {s : State} {p : Parser Node}

/-- In a body, the parser reads expressions. -/
abbrev ReadsExpression (names : Names) (ret : Option DataType) (p : Parser Node) : Prop :=
  ReadsPart names ret p fun scopes n => scopes.IsExpression names n

section Joining

variable {k : Node.Kind} {l r : Node}

theorem reads_logical (hk : k ∈ Node.Kind.logical) (hl : s.scopes.IsExpression names l)
    (hr : s.scopes.IsExpression names r) (first next op : Token) :
    Reads (logical k l r first next op)
      (fun n s' => s.Grows s' ∧ s'.scopes.IsExpression names n) s := by
  obtain ⟨t, tl, -⟩ := hl.typed
  obtain ⟨u, tr, -⟩ := hr.typed
  simp only [logical, checkBoolean, wp_bind, reads_typeOf tl, reads_typeOf tr, wp_ite,
    wp_pure, reads_fail, implies_true, and_true]
  intro ht hu
  obtain rfl : t = .bool := by simpa [DataType.isBoolean] using ht
  obtain rfl : u = .bool := by simpa [DataType.isBoolean] using hu
  refine wp_mono (reads_typed _ .bool op s) fun n s₁ ⟨g, id, hn, hid⟩ => ⟨g, ?_⟩
  have e := g.scopes.toExtends
  rw [hn]
  exact .logical hk (hl.mono e) (hr.mono e) (tl.mono e) (tr.mono e) hid

theorem reads_arithmetic (hk : k ∈ Node.Kind.arithmetic) (hl : s.scopes.IsExpression names l)
    (hr : s.scopes.IsExpression names r) (first next op : Token) :
    Reads (arithmetic k l r first next op)
      (fun n s' => s.Grows s' ∧ s'.scopes.IsExpression names n) s := by
  obtain ⟨t, tl, -⟩ := hl.typed
  obtain ⟨u, tr, -⟩ := hr.typed
  simp only [arithmetic, wp_bind, reads_typeOf tl, reads_typeOf tr, wp_ite, reads_fail,
    implies_true, and_true]
  intro ht hu
  refine wp_mono (reads_typed _ (t.join u) op s) fun n s₁ ⟨g, id, hn, hid⟩ => ⟨g, ?_⟩
  have e := g.scopes.toExtends
  rw [hn]
  exact .arithmetic hk (hl.mono e) (hr.mono e) (tl.mono e) (tr.mono e) ht hu hid

theorem comparable_iff {t u : DataType} : comparable k t u = true ↔
    t.isNumeric ∧ u.isNumeric ∨ (k = .equal ∨ k = .notEqual) ∧ t = .bool ∧ u = .bool := by
  simp [comparable, DataType.isBoolean, and_assoc]

theorem reads_compare (hk : k ∈ Node.Kind.relations) (hl : s.scopes.IsExpression names l)
    (hr : s.scopes.IsExpression names r) (op : Token) :
    Reads (compare k l r op) (fun n s' => s.Grows s' ∧ s'.scopes.IsExpression names n) s := by
  obtain ⟨t, tl, -⟩ := hl.typed
  obtain ⟨u, tr, -⟩ := hr.typed
  simp only [compare, wp_bind, reads_typeOf tl, reads_typeOf tr, wp_ite, reads_fail,
    implies_true, and_true, comparable_iff]
  intro hc
  refine wp_mono (reads_typed _ .bool op s) fun n s₁ ⟨g, id, hn, hid⟩ => ⟨g, ?_⟩
  have e := g.scopes.toExtends
  rw [hn]
  exact .relation hk (hl.mono e) (hr.mono e) (tl.mono e) (tr.mono e) hc hid

theorem ReadsPart.leftChain {operator? : Token.Kind → Option Node.Kind}
    {combine : Node.Kind → (left right : Node) → (first next op : Token) → Parser Node}
    (ho : ReadsExpression names ret p)
    (hc : ∀ {tk k l r s}, operator? tk = some k → s.scopes.IsExpression names l →
      s.scopes.IsExpression names r → ∀ first next op, Reads (combine k l r first next op)
        (fun n s' => s.Grows s' ∧ s'.scopes.IsExpression names n) s) :
    ReadsExpression names ret (leftChain p operator? combine) := by
  intro s hs
  simp only [Parser.leftChain, wp_bind, reads_peek]
  refine wp_mono (ho s hs) fun left s₁ h₁ => ?_
  refine reads_loop (I := fun n s' => s.Grows s' ∧ s'.scopes.IsExpression names n)
    (fun left s₁ ⟨g, hl⟩ => ?_) left s₁ h₁
  simp only [wp_bind, reads_peek]
  cases hk : operator? s₁.stream.current.kind with
  | none => exact ⟨g, hl⟩
  | some k =>
    simp only [wp_bind, reads_peek, wp_pure, Sum.elim_inl]
    refine wp_mono (reads_advance s₁) fun op s₂ ⟨_, m⟩ => ?_
    have g₂ := g.trans m.grows
    refine wp_mono (ho s₂ (hs.mono g₂)) fun right s₃ ⟨g₃, hr⟩ => ?_
    have hl₃ := hl.mono (m.grows.trans g₃).scopes.toExtends
    refine wp_mono (hc hk hl₃ hr _ _ _) fun n s₄ ⟨g₄, hn⟩ => ?_
    exact ⟨(g₂.trans g₃).trans g₄, hn⟩

end Joining

/-! ## Operands -/

section Operands

theorem reads_variableNamed (hs : s.Body names ret) (name : Token) :
    Reads (variableNamed name) (fun n s' => s' = s ∧ ∃ id t, names name.text = some id ∧
      s.scopes.IsVariable id t ∧ n = Scopes.variableNode name.text id) s := by
  simp only [variableNamed, wp_bind, reads_is, wp_ite, reads_fail, reads_resolve,
    implies_true, true_and]
  intro _
  cases hr : s.scopes.resolve name.text with
  | none => exact trivial
  | some id =>
    obtain ⟨sym, hsym, hn⟩ := hs.valid.resolved hr
    simp only [wp_bind, reads_symbol?, hsym, Option.map_some]
    split
    case h_4 hf ht ha =>
      have hv : ∃ t, sym.IsVariable t := by
        rcases hn with h | h | h | h
        · exact absurd (congrArg some h.kind) hf
        · exact absurd (congrArg some h) ht
        · exact absurd (congrArg some h) ha
        · exact h
      obtain ⟨t, hv⟩ := hv
      exact ⟨rfl, id, t, by rw [← hs.resolve, hr], ⟨sym, hsym, hv⟩, rfl⟩
    all_goals trivial

theorem reads_checkArguments (args : List (Token × Node)) (params : List Symbol.Id)
    (ha : ∀ e ∈ args, s.scopes.IsExpression names e.2) :
    Reads (checkArguments args params) (fun _ s' => s' = s ∧
      ∀ e ∈ (args.map Prod.snd).zip params, ∃ t par, s.scopes.Typed e.1 t ∧
        s.scopes.symbol? e.2 = some par ∧ par.dataType? = some t) s := by
  induction args generalizing params with
  | nil => simp [checkArguments, Reads, wp_pure]
  | cons a args ih =>
    cases params with
    | nil => simp [checkArguments, Reads, wp_pure]
    | cons id params =>
      obtain ⟨t, ht, hscalar⟩ := (ha a (by simp)).typed
      have hv := hscalar.ne_void
      simp only [checkArguments, wp_bind, reads_symbol?, reads_typeOf ht, wp_ite, reads_fail,
        implies_true, and_true]
      intro hd
      refine wp_mono (ih params fun e he => ha e (by simp [he])) fun _ s' ⟨hs', hrest⟩ =>
        ⟨hs', fun e he => ?_⟩
      simp only [List.map_cons, List.zip_cons_cons, List.mem_cons] at he
      rcases he with rfl | he
      · simp only [DataType.assignableTo, decide_eq_true_eq] at hd
        cases hp : s.scopes.symbol? id with
        | none => simp [hp, hv] at hd
        | some par =>
          cases hq : par.dataType? with
          | none => simp [hp, hq, hv] at hd
          | some u => exact ⟨t, par, ht, rfl, by simp [hp, hq] at hd; simp [hd, hq]⟩
      · exact hrest e he

theorem reads_arguments (hp : ReadsExpression names ret p) (hs : s.Body names ret) :
    Reads (arguments p) (fun args s' => s.Grows s' ∧
      ∀ e ∈ args, s'.scopes.IsExpression names e.2) s := by
  simp only [arguments, wp_bind, reads_is, wp_ite, wp_pure]
  refine ⟨fun _ => ⟨.refl s, by simp⟩, fun _ => ?_⟩
  refine wp_mono (reads_commaList (I := fun args s' => s.Grows s' ∧
    ∀ e ∈ args, s'.scopes.IsExpression names e.2) ?_ ?_ ⟨.refl s, by simp⟩) fun args s' h => h.2
  · rintro args s₁ s₂ m ⟨g, ha⟩
    exact ⟨g.trans m.grows, by rwa [m.scopes]⟩
  · rintro args s₁ ⟨g, ha⟩
    simp only [wp_bind, reads_peek, wp_pure]
    refine wp_mono (hp s₁ (hs.mono g)) fun n s₂ ⟨g₂, hn⟩ => ⟨g.trans g₂, fun e he => ?_⟩
    rcases List.mem_append.1 he with he | he
    · exact (ha e he).mono g₂.scopes.toExtends
    · rw [List.mem_singleton.1 he]
      exact hn

theorem reads_callNamed (hp : ReadsExpression names ret p) (hs : s.Body names ret) (name : Token)
    (kind : Node.Kind) :
    Reads (callNamed p name kind) (fun n s' => s.Grows s' ∧ ∃ id args,
      names name.text = some id ∧ s'.scopes.Takes id args ∧
      (∀ a ∈ args, s'.scopes.IsExpression names a) ∧
      n = .mk kind (some name.text) (some id) (Node.list .expressionList args) none none) s := by
  simp only [callNamed, wp_bind, reads_resolve]
  cases hr : s.scopes.resolve name.text with
  | none => exact trivial
  | some id =>
    obtain ⟨sym, hsym, -⟩ := hs.valid.resolved hr
    simp only [wp_bind, reads_symbol?, hsym, Option.map_some, Option.getD_some, wp_ite, reads_fail,
      implies_true, and_true]
    intro hf
    refine wp_mono (reads_skip .leftParen) fun _ s₁ m₁ => ?_
    refine wp_mono (reads_arguments hp (hs.moves m₁)) fun args s₂ ⟨g₂, ha⟩ => ?_
    have g₂' := m₁.grows.trans g₂
    refine wp_mono (reads_skip .rightParen) fun _ s₃ m₃ => ?_
    have g₃ := g₂'.trans m₃.grows
    rw [← m₃.scopes] at ha
    have hsym' := g₃.scopes.symbols id sym hsym
    simp only [hsym', Option.map_some, Option.getD_some]
    intro hlen
    refine wp_mono (reads_checkArguments args sym.parameters ha) fun _ s₄ ⟨hs₄, ht⟩ => ?_
    subst hs₄
    refine ⟨g₃, id, args.map Prod.snd, by rw [← hs.resolve, hr], ?_, ?_, rfl⟩
    · exact ⟨sym, hsym', by simpa [Symbol.Kind.isFunction] using hf, by simpa using hlen, ht⟩
    · rintro a hm
      obtain ⟨e, he, rfl⟩ := List.mem_map.1 hm
      exact ha e he

theorem reads_named (hp : ReadsExpression names ret p) (name : Token) :
    ReadsExpression names ret (named p name) := by
  intro s hs
  simp only [named, wp_bind, reads_is, wp_ite, reads_fail, wp_pure, implies_true, true_and]
  refine ⟨fun _ => ?_, fun _ => ?_⟩
  · refine wp_mono (reads_callNamed hp hs name .call) ?_
    rintro n s₁ ⟨g, id, args, hn, hc, ha, rfl⟩
    obtain ⟨sym, hsym, hname⟩ := (hs.mono g).valid.resolved ((hs.mono g).resolve _ ▸ hn)
    have ht : s₁.scopes.HasType id sym.valueType := ⟨sym, hsym, rfl⟩
    refine (reads_typeOf ⟨id, rfl, ht⟩ _).2 fun hv => ⟨g, ?_⟩
    have hk : sym.kind = .function := by
      obtain ⟨sym', hsym', hk, -⟩ := hc
      rw [hsym, Option.some.injEq] at hsym'
      exact hsym' ▸ hk
    refine .call hn hc ht ((hname.isFunction hk).yields.resolve_right ?_) ha
    simpa [DataType.isVoid] using hv
  · refine wp_mono (reads_variableNamed hs name) ?_
    rintro n s₁ ⟨rfl, id, t, hn, hv, rfl⟩
    exact ⟨.refl _, .reference hn hv⟩

theorem reads_integerLiteral (t : Token) (literal : String) :
    ReadsExpression names ret (integerLiteral t literal) := by
  intro s hs
  unfold integerLiteral
  cases hn : Text.readWord? literal with
  | none => exact trivial
  | some n =>
    simp only [wp_bind, wp_pure]
    refine wp_mono (reads_intern hs.valid (.integer n hn rfl rfl)) fun id s₁ ⟨g, hr, hc⟩ => ?_
    exact ⟨g, .integer hn hr hc⟩

theorem reads_realLiteral (t : Token) {literal : String} (hd : '.' ∈ literal.toList)
    (hq : '"' ∉ literal.toList) : ReadsExpression names ret (realLiteral t literal) := by
  intro s hs
  unfold realLiteral
  cases hx : Binary64.read? literal with
  | none => exact trivial
  | some x =>
    simp only [wp_bind, wp_pure]
    refine wp_mono (reads_intern hs.valid (.real x hx hd hq rfl rfl)) fun id s₁ ⟨g, hr, hc⟩ => ?_
    exact ⟨g, .real hx hr hc⟩

theorem reads_grouped (hp : ReadsExpression names ret p) : ReadsExpression names ret (grouped p) := by
  intro s hs
  have m : s.Moves { s with depth := s.depth + 1 } := ⟨rfl, rfl, rfl⟩
  have h := hp _ (hs.moves m)
  unfold Reads wp grouped at *
  cases hr : p { s with depth := s.depth + 1 } with
  | error e s' => trivial
  | ok n s' =>
    rw [hr] at h
    obtain ⟨g, hn⟩ := h
    exact ⟨m.grows.trans (g.trans (State.Moves.grows ⟨rfl, rfl, rfl⟩)), hn⟩

theorem reads_truth {k : Node.Kind} (hk : k = .trueLiteral ∨ k = .falseLiteral) (t : Token) :
    ReadsExpression names ret (do let _ ← advance; typed (.leaf k) .bool t) := by
  intro s hs
  simp only [wp_bind]
  refine wp_mono (reads_advance s) fun _ s₁ ⟨_, m⟩ => ?_
  refine wp_mono (reads_typed _ .bool t s₁) fun n s₂ ⟨g, id, hn, hid⟩ => ⟨m.grows.trans g, ?_⟩
  rw [hn]
  exact .truth hk hid

theorem reads_operand (hp : ReadsExpression names ret p) (t : Token) :
    ReadsExpression names ret (operand p t) := by
  intro s hs
  unfold operand
  split
  case h_1 => exact reads_truth (.inl rfl) t s hs
  case h_2 => exact reads_truth (.inr rfl) t s hs
  case h_3 =>
    simp only [wp_bind, wp_get, wp_ite, reads_fail, implies_true, true_and, wp_pure]
    intro _
    refine wp_mono (reads_advance s) fun _ s₁ ⟨_, m⟩ => ?_
    refine wp_mono (reads_grouped hp s₁ (hs.moves m)) fun n s₂ ⟨g, hn⟩ => ?_
    have g₂ := m.grows.trans g
    refine wp_mono (reads_skip .rightParen) fun _ s₃ m₃ => ?_
    exact ⟨g₂.trans m₃.grows, hn.mono m₃.grows.scopes.toExtends⟩
  case h_4 =>
    simp only [wp_bind]
    refine wp_mono (reads_advance s) fun name s₁ ⟨_, m⟩ => ?_
    exact wp_mono (reads_named hp name s₁ (hs.moves m)) fun n s₂ ⟨g, hn⟩ => ⟨m.grows.trans g, hn⟩
  case h_5 => exact trivial

theorem reads_primary (hp : ReadsExpression names ret p) :
    ReadsExpression names ret (primary p) := by
  intro s hs
  simp only [primary, wp_bind, reads_peek]
  refine wp_mono (reads_accept .minus s) fun negative s₁ m => ?_
  have hcur := (hs.moves m).lexed.current
  split
  case h_1 =>
    simp only [wp_bind]
    refine wp_mono (reads_advance s₁) fun _ s₂ ⟨_, m₂⟩ => ?_
    exact (reads_integerLiteral _ _).after hs (m.trans m₂).grows
  case h_2 hk =>
    simp only [wp_bind]
    refine wp_mono (reads_advance s₁) fun _ s₂ ⟨_, m₂⟩ => ?_
    obtain ⟨hd, hq⟩ := hcur.real hk
    refine (reads_realLiteral _ ?_ ?_).after hs (m.trans m₂).grows
    · split <;> simp [hd]
    · split <;> simp [hq]
  case h_3 =>
    simp only [wp_ite, wp_bind]
    refine ⟨fun _ => wp_mono (reads_warn _ _ s₁) fun _ s₂ m₂ => ?_, fun _ => ?_⟩
    · exact (reads_operand hp _).after hs (m.trans m₂).grows
    · exact (reads_operand hp _).after hs m.grows

end Operands

section Levels

section

variable (hp : ReadsExpression names ret p)
include hp

theorem reads_power : ReadsExpression names ret (power p) := by
  refine .fix fun power hpow s hs => ?_
  simp only [wp_bind, reads_peek, reads_is, wp_ite, wp_pure]
  refine wp_mono (reads_primary hp s hs) fun base s₁ ⟨g, hb⟩ => ⟨fun _ => ?_, fun _ => ⟨g, hb⟩⟩
  refine wp_mono (reads_advance s₁) fun op s₂ ⟨_, m⟩ => ?_
  have g₂ := g.trans m.grows
  refine wp_mono (hpow s₂ (hs.mono g₂)) fun exponent s₃ ⟨g₃, he⟩ => ?_
  have hb₃ := hb.mono (m.grows.trans g₃).scopes.toExtends
  refine wp_mono (reads_arithmetic (by decide) hb₃ he _ _ _) fun n s₄ ⟨g₄, hn⟩ => ?_
  exact ⟨(g₂.trans g₃).trans g₄, hn⟩

theorem reads_product : ReadsExpression names ret (product p) :=
  (reads_power hp).leftChain fun hk => reads_arithmetic <|
    (by decide : [.multiply, .divide, .modulo] ⊆ Node.Kind.arithmetic) (productOperator?_eq hk).2

theorem reads_sum : ReadsExpression names ret (sum p) :=
  (reads_product hp).leftChain fun hk => reads_arithmetic <|
    (by decide : [.add, .subtract] ⊆ Node.Kind.arithmetic) (sumOperator?_eq hk).2

/-- A sum, or two sums with a relation between them, and what is done with it. -/
theorem reads_comparison {f : Node → Parser Node} {Q : Node → State → Prop} {s₁ : State}
    (hs : s.Body names ret) (g₁ : s.Grows s₁)
    (hf : ∀ n s', s.Grows s' → s'.scopes.IsExpression names n → Reads (f n) Q s') :
    Reads (sum p) (fun left s' => Reads (match relationOperator? s'.stream.current.kind with
      | some k => do
        let op ← advance
        let right ← sum p
        let node ← compare k left right op
        f node
      | none => do
        let node ← pure left
        f node) Q s') s₁ := by
  refine wp_mono ((reads_sum hp).after hs g₁) fun left s₂ ⟨g₂, hl⟩ => ?_
  cases hk : relationOperator? s₂.stream.current.kind with
  | none => exact hf left s₂ g₂ hl
  | some k =>
    simp only [wp_bind]
    refine wp_mono (reads_advance s₂) fun op s₃ ⟨_, m⟩ => ?_
    have g₃ := g₂.trans m.grows
    refine wp_mono (reads_sum hp s₃ (hs.mono g₃)) fun right s₄ ⟨g₄, hr⟩ => ?_
    have hl₄ := hl.mono (m.grows.trans g₄).scopes.toExtends
    refine wp_mono (reads_compare (relationOperator?_eq hk).2 hl₄ hr op) fun n s₅ ⟨g₅, hn⟩ => ?_
    exact hf n s₅ ((g₃.trans g₄).trans g₅) hn

theorem reads_relation : ReadsExpression names ret (relation p) := by
  intro s hs
  simp only [relation, wp_bind, reads_is, wp_ite, wp_map, reads_peek]
  refine ⟨fun _ => wp_mono (reads_advance s) fun t s₁ ⟨_, m⟩ => ?_, fun _ => ?_⟩
  · refine reads_comparison (f := fun n => checkBoolean n s₁.stream.current >>= fun _ =>
      typed (.unary .not n) .bool t) hp hs m.grows fun n s₂ g₂ hn => ?_
    obtain ⟨type, ht, -⟩ := hn.typed
    simp only [checkBoolean, wp_bind, reads_typeOf ht, wp_ite, wp_pure, reads_fail,
      implies_true, and_true]
    intro hb
    obtain rfl : type = .bool := by simpa [DataType.isBoolean] using hb
    refine wp_mono (reads_typed _ .bool t s₂) fun m s₃ ⟨g₃, id, hm, hid⟩ => ⟨g₂.trans g₃, ?_⟩
    have e := g₃.scopes.toExtends
    rw [hm]
    exact .not (hn.mono e) (ht.mono e) hid
  · exact reads_comparison (f := pure) hp hs (.refl s) fun n s₂ g₂ hn => ⟨g₂, hn⟩

theorem reads_logicalChain : ReadsExpression names ret (logicalChain p) :=
  (reads_relation hp).leftChain fun hk => reads_logical (logicalOperator?_eq hk).2

end

theorem reads_expression : ReadsExpression names ret expression := .fix fun _ => reads_logicalChain

theorem reads_sumExpression : ReadsExpression names ret sumExpression := reads_sum reads_expression

end Levels

end StackCompiler.Parser
