import StackCompiler.Proofs.Reading.Expressions
import StackCompiler.Statement.Parser

/-!
# Reading statements

Whatever the parsers of statements accept is a well-formed statement, with a block of well-formed
statements where it has one.
-/

namespace StackCompiler.Parser

variable {names : Names} {ret : Option DataType} {s : State}

theorem reads_atBlockEnd (Q : Bool → State → Prop) (s : State) (h : ∀ b, Q b s) :
    Reads atBlockEnd Q s := h _

abbrev ReadsStatement (names : Names) (ret : Option DataType) (p : Parser Node) (s : State) :
    Prop :=
  Reads p (fun n s' => s.Grows s' ∧ s'.scopes.IsStatement names ret n) s

theorem reads_condition (hs : s.Body names ret) :
    Reads condition (fun n s' => s.Grows s' ∧ s'.scopes.IsExpression names n ∧
      s'.scopes.Typed n .bool) s := by
  simp only [condition, wp_bind, reads_peek]
  refine wp_mono (reads_expression s hs) fun n s₁ ⟨g, hn⟩ => ?_
  obtain ⟨t, ht, -⟩ := hn.typed
  simp only [reads_typeOf ht, wp_ite, wp_bind, wp_pure, reads_fail, implies_true, and_true]
  intro hb
  obtain rfl : t = .bool := by simpa [DataType.isBoolean] using hb
  exact ⟨g, hn, ht⟩

theorem reads_isImmutable {id : Symbol.Id} {sym : Symbol} (h : s.scopes.symbol? id = some sym)
    (Q : Bool → State → Prop) : Reads (isImmutable id) Q s ↔ Q sym.isImmutable s := by
  simp only [isImmutable, wp_bind, reads_symbol?, h, Option.map_some, Option.getD_some,
    wp_pure]

theorem reads_assignmentTo (hs : s.Body names ret) (name : Token) :
    Reads (assignmentTo name) (fun n s' => s.Grows s' ∧ s'.scopes.IsAssignment names n) s := by
  simp only [assignmentTo, wp_bind, reads_peek]
  refine wp_mono (reads_variableNamed hs name) ?_
  rintro target s₁ ⟨rfl, id, t, hn, hv, rfl⟩
  have ⟨sym, hsym, _⟩ := hv
  cases hk : assignOperator? s₁.stream.current.kind with
  | none => exact trivial
  | some k =>
    simp only [Scopes.variableNode, Node.symbol, wp_bind]
    refine wp_mono (reads_advance s₁) fun _ s₂ ⟨_, m⟩ => ?_
    rw [← m.scopes] at hv hsym
    simp only [reads_isImmutable hsym, wp_ite, wp_bind, reads_fail, reads_peek, implies_true,
      true_and]
    intro him
    refine wp_mono (reads_expression s₂ (hs.moves m)) fun value s₃ ⟨g, he⟩ => ?_
    obtain ⟨u, tu, -⟩ := he.typed
    have e := g.scopes.toExtends
    have tt : s₃.scopes.Typed (Scopes.variableNode name.text id) t := ⟨id, rfl, (hv.mono e).hasType⟩
    simp only [Scopes.variableNode] at tt
    simp only [reads_typeOf tt, reads_typeOf tu, and_true, wp_pure]
    intro hnum hasg
    obtain rfl : u = t := by simpa [DataType.assignableTo] using hasg
    refine ⟨m.grows.trans g, .intro (List.mem_cons.1 (assignOperator?_eq hk).2) hn (hv.mono e) ?_ he
      tu fun hc => ?_⟩
    · refine Scopes.mutable_mono e hv fun sym' hsym' => ?_
      rw [hsym, Option.some.injEq] at hsym'
      simpa [← hsym'] using him
    · have hne : k ≠ .assign := by rintro rfl; exact absurd hc (by decide)
      simpa [hne] using hnum

theorem reads_assignments (hs : s.Body names ret) :
    Reads assignments (fun n s' => s.Grows s' ∧ ∃ items, n = Node.list .assignList items ∧
      ∀ a ∈ items, s'.scopes.IsAssignment names a) s := by
  simp only [assignments, wp_bind, wp_pure]
  refine wp_mono (reads_commaList (I := fun items s' => s.Grows s' ∧
    ∀ a ∈ items, s'.scopes.IsAssignment names a) ?_ ?_ ⟨.refl s, by simp⟩)
    fun items s' ⟨_, g, h⟩ => ⟨g, items, rfl, h⟩
  · rintro items s₁ s₂ m ⟨g, ha⟩
    exact ⟨g.trans m.grows, by rwa [m.scopes]⟩
  · rintro items s₁ ⟨g, ha⟩
    simp only [wp_bind]
    refine wp_mono (reads_skip .ident) fun name s₂ m => ?_
    have g₂ := g.trans m.grows
    refine wp_mono (reads_assignmentTo (hs.mono g₂) name) fun n s₃ ⟨g₃, hn⟩ =>
      ⟨g₂.trans g₃, fun a hm => ?_⟩
    rcases List.mem_append.1 hm with hm | hm
    · exact (ha a hm).mono (m.grows.trans g₃).scopes.toExtends
    · rw [List.mem_singleton.1 hm]
      exact hn

theorem reads_inputTarget (hs : s.Body names ret) :
    Reads inputTarget (fun n s' => s.Moves s' ∧ s'.scopes.IsInputTarget names n) s := by
  simp only [inputTarget, wp_bind]
  refine wp_mono (reads_skip .ident) fun name s₁ m => ?_
  refine wp_mono (reads_variableNamed (hs.moves m) name) ?_
  rintro target s₂ ⟨rfl, id, t, hn, hv, rfl⟩
  have ⟨sym, hsym, _⟩ := hv
  have tt : s₂.scopes.Typed (Scopes.variableNode name.text id) t := ⟨id, rfl, hv.hasType⟩
  simp only [Scopes.variableNode] at tt
  simp only [Scopes.variableNode, Node.symbol, wp_bind, reads_isImmutable hsym, wp_ite, reads_fail,
    reads_typeOf tt, wp_pure, implies_true, true_and, and_true]
  intro him hnum
  refine ⟨m, .intro hn hv (fun sym' hsym' => ?_) hnum⟩
  rw [hsym, Option.some.injEq] at hsym'
  simpa [← hsym'] using him

theorem reads_inputStatement (hs : s.Body names ret) :
    ReadsStatement names ret inputStatement s := by
  simp only [inputStatement, wp_bind, wp_pure]
  refine wp_mono (reads_skip _) fun _ s₁ m => ?_
  refine wp_mono (reads_commaList (I := fun items s' => s.Grows s' ∧
    ∀ n ∈ items, s'.scopes.IsInputTarget names n) ?_ ?_ ⟨m.grows, by simp⟩)
    fun items s' ⟨hne, g, h⟩ => ⟨g, .input hne h⟩
  · rintro items s₁ s₂ m ⟨g, ha⟩
    exact ⟨g.trans m.grows, by rwa [m.scopes]⟩
  · rintro items s₁ ⟨g, ha⟩
    refine wp_mono (reads_inputTarget (hs.mono g)) fun n s₂ ⟨m, hn⟩ =>
      ⟨g.trans m.grows, fun a hm => ?_⟩
    rcases List.mem_append.1 hm with hm | hm
    · exact (ha a hm).mono m.grows.scopes.toExtends
    · rw [List.mem_singleton.1 hm]
      exact hn

theorem reads_printEntry (hs : s.Body names ret) :
    Reads printEntry (fun n s' => s.Grows s' ∧ s'.scopes.IsPrintEntry names n) s := by
  simp only [printEntry, wp_bind, reads_is, wp_ite, wp_pure]
  refine ⟨fun _ => wp_mono (reads_advance s) fun t s₁ ⟨_, m⟩ => ?_, fun _ => ?_⟩
  · refine wp_mono (reads_intern (hs.moves m).valid (.string t.text rfl rfl rfl))
      fun id s₂ ⟨g, hr, hc⟩ => ⟨m.grows.trans g, .string hr hc⟩
  · exact wp_mono (reads_expression s hs) fun n s₁ ⟨g, hn⟩ => ⟨g, .value hn⟩

theorem reads_printStatement {k : Node.Kind} (hk : k = .print ∨ k = .println)
    (hs : s.Body names ret) :
    ReadsStatement names ret (printStatement k) s := by
  simp only [printStatement, wp_bind, wp_pure]
  refine wp_mono (reads_advance s) fun _ s₁ ⟨_, m⟩ => ?_
  refine wp_mono (reads_commaList (I := fun items s' => s.Grows s' ∧
    ∀ n ∈ items, s'.scopes.IsPrintEntry names n) ?_ ?_ ⟨m.grows, by simp⟩)
    fun items s' ⟨hne, g, h⟩ => ⟨g, .print hk hne h⟩
  · rintro items s₁ s₂ m ⟨g, ha⟩
    exact ⟨g.trans m.grows, by rwa [m.scopes]⟩
  · rintro items s₁ ⟨g, ha⟩
    refine wp_mono (reads_printEntry (hs.mono g)) fun n s₂ ⟨g₂, hn⟩ =>
      ⟨g.trans g₂, fun a hm => ?_⟩
    rcases List.mem_append.1 hm with hm | hm
    · exact (ha a hm).mono g₂.scopes.toExtends
    · rw [List.mem_singleton.1 hm]
      exact hn

theorem reads_checkReturn (hs : s.Body names ret) (t : Token) (value : Option (Token × Node))
    (hv : ∀ e, value = some e → s.scopes.IsExpression names e.2) :
    Reads (checkReturn t value) (fun _ s' => s' = s ∧
      s.scopes.IsReturn names ret (value.map Prod.snd)) s := by
  have hr := hs.returns
  simp only [checkReturn, wp_bind, wp_get]
  cases ret with
  | none =>
    rw [hr]
    cases value with
    | none => exact ⟨rfl, .main⟩
    | some e => exact trivial
  | some type =>
    obtain ⟨id, sym, hf, hsym, rfl⟩ := hr
    rw [hf]
    simp only [wp_bind, reads_symbol?, hsym, Option.bind_some]
    cases value with
    | none =>
      simp only [wp_ite, wp_pure, reads_fail, implies_true, and_true, true_and]
      intro hvoid
      have hr : sym.returnType?.getD .void = .void := by simpa [DataType.isVoid] using hvoid
      rw [hr]
      exact .void
    | some e =>
      obtain ⟨u, tu, -⟩ := (hv e rfl).typed
      simp only [wp_ite, wp_bind, reads_fail, reads_typeOf tu, wp_pure, implies_true, and_true,
        true_and]
      intro hvoid hasg
      have hu : u = sym.returnType?.getD .void := by simpa [DataType.assignableTo] using hasg
      exact .value (by simpa [DataType.isVoid] using hvoid) (hv e rfl) (hu ▸ tu)

theorem reads_returnStatement (hs : s.Body names ret) :
    ReadsStatement names ret returnStatement s := by
  simp only [returnStatement, wp_bind, reads_is]
  refine wp_mono (reads_skip _) fun t s₁ m => ?_
  refine reads_atBlockEnd _ s₁ fun stop => ?_
  simp only [wp_ite, wp_bind, wp_pure, reads_peek]
  refine ⟨fun _ => ?_, fun _ => ?_⟩
  · refine wp_mono (reads_checkReturn (hs.moves m) t none nofun) fun _ s₂ ⟨h, hr⟩ => ?_
    exact h ▸ ⟨m.grows, .returns hr⟩
  · refine wp_mono (reads_expression s₁ (hs.moves m)) fun n s₂ ⟨g, hn⟩ => ?_
    have g₂ := m.grows.trans g
    refine wp_mono (reads_checkReturn (hs.mono g₂) t (some _) ?_) fun _ s₃ ⟨h, hr⟩ => ?_
    · rintro e ⟨⟩
      exact hn
    · exact h ▸ ⟨g₂, .returns hr⟩

theorem reads_namedStatement (hs : s.Body names ret) :
    ReadsStatement names ret namedStatement s := by
  simp only [namedStatement, wp_bind, reads_is, wp_ite]
  refine wp_mono (reads_advance s) fun name s₁ ⟨_, m⟩ => ⟨fun _ => ?_, fun _ => ?_⟩
  · refine wp_mono (reads_callNamed reads_expression (hs.moves m) name .callStatement) ?_
    rintro n s₂ ⟨g, id, args, hn, hc, ha, rfl⟩
    exact ⟨m.grows.trans g, .call hn hc ha⟩
  · refine wp_mono (reads_assignmentTo (hs.moves m) name) fun n s₂ ⟨g, hn⟩ => ?_
    exact ⟨m.grows.trans g, .assignment hn⟩

/-! ## Statements with a block -/

theorem reads_statementScope (construct : String) (t : Token) (s : State) :
    Reads (statementScope construct t) (fun scope s' => s' = s ∧ Scopes.IsMarked scope) s := by
  refine ⟨rfl, ?_⟩
  simp [Scopes.IsMarked]

theorem reads_createScope {scope : String} (hm : Scopes.IsMarked scope) (hs : s.Body names ret) :
    Reads (createScope scope) (fun _ s₁ => s₁.Body names ret ∧ s₁.scopes.Made scope ∧
      ∀ s₂, s₁.Grows s₂ → Reads leaveScope (fun _ s₃ => s.Grows s₃ ∧
        s₂.scopes.Extends s₃.scopes) s₂) s := by
  refine ⟨⟨hs.lexed, hs.valid.create (.inl hm), fun name => ?_, ?_⟩, Scopes.made_create _ _,
    fun s₂ g => ?_⟩
  · exact (hs.valid.resolve_create (.inl hm) name).trans (hs.resolve name)
  · have hr := hs.returns
    cases ret with
    | none => exact hr
    | some t =>
      obtain ⟨id, sym, hf, hsym, ht⟩ := hr
      exact ⟨id, sym, hf, (Scopes.symbol?_create _ _ _).trans hsym, ht⟩
  · refine ⟨⟨g.tokens, g.function, g.scopes.scoped hs.valid hm, fun hv => ?_⟩,
      Scopes.extends_leave _⟩
    exact (g.valid (hv.create (.inl hm))).leave

section Blocks

variable {block : Parser (Option Node)}

/-- In a body, the parser reads blocks. -/
abbrev ReadsBlock (names : Names) (ret : Option DataType) (p : Parser (Option Node)) : Prop :=
  ReadsPart names ret p fun scopes n => scopes.IsBlock names ret n

theorem reads_start {c : Prop} {F : Option Node → State → Prop} (hs : s.Body names ret)
    (h : ∀ items s', s.Grows s' → (∀ a ∈ items, s'.scopes.IsAssignment names a) →
      F (Node.list .assignList items) s') :
    (¬ c → Reads assignments F s) ∧ (c → F none s) := by
  refine ⟨fun _ => wp_mono (reads_assignments hs) ?_, fun _ => h [] s (.refl s) (by simp)⟩
  rintro _ s₁ ⟨g, items, rfl, ha⟩
  exact h items s₁ g ha

variable (hb : ReadsBlock names ret block) (hs : s.Body names ret)
include hb hs

theorem reads_forStatement : ReadsStatement names ret (forStatement block) s := by
  simp only [forStatement, wp_bind, wp_pure, reads_is, wp_ite]
  refine wp_mono (reads_skip _) fun t s₁ m => ?_
  refine wp_mono (reads_statementScope "for" t s₁) ?_
  rintro scope s₁ ⟨rfl, hm⟩
  refine wp_mono (reads_createScope hm (hs.moves m)) fun _ s₂ ⟨hs₂, hmade, close⟩ => ?_
  refine wp_mono (reads_skip _) fun _ s₃ m₃ => ?_
  rw [and_comm]
  refine reads_start (hs₂.moves m₃) fun start s₄ g₄ ha => ?_
  replace g₄ := m₃.grows.trans g₄
  refine wp_mono (reads_skip _) fun _ s₅ m₅ => ?_
  have g₅ := g₄.trans m₅.grows
  refine wp_mono (reads_condition (hs₂.mono g₅)) fun test s₆ ⟨g₆, he, ht⟩ => ?_
  refine wp_mono (reads_skip _) fun _ s₇ m₇ => ?_
  have g₇ := g₆.trans m₇.grows
  refine wp_mono (hb s₇ ((hs₂.mono g₅).mono g₇)) fun body s₈ ⟨g₈, hbody⟩ => ?_
  refine wp_mono (reads_skip _) fun _ s₉ m₉ => ?_
  have g₉ := g₈.trans m₉.grows
  refine wp_mono (close s₉ ((g₅.trans g₇).trans g₉)) fun _ s' ⟨g, e⟩ => ⟨m.grows.trans g, ?_⟩
  obtain ⟨items, rfl, hitems⟩ := hbody.mono (m₉.grows.scopes.toExtends.trans e)
  have e₆ := (m₇.grows.trans g₉).scopes.toExtends.trans e
  have e₄ := (m₅.grows.trans g₆).scopes.toExtends.trans e₆
  refine .forLoop ?_ (fun a h => (ha a h).mono e₄) (he.mono e₆) (ht.mono e₆) hitems
  exact (g₄.scopes.toExtends.trans e₄).made _ hmade

theorem reads_ifStatement : ReadsStatement names ret (ifStatement block) s := by
  simp only [ifStatement, wp_bind, wp_pure, wp_ite]
  refine wp_mono (reads_skip _) fun t s₁ m => ?_
  refine wp_mono (reads_statementScope "if" t s₁) ?_
  rintro scope s₁ ⟨rfl, hm⟩
  refine wp_mono (reads_createScope hm (hs.moves m)) fun _ s₂ ⟨hs₂, hmade, close⟩ => ?_
  refine wp_mono (reads_skip _) fun _ s₃ m₃ => ?_
  refine wp_mono (reads_condition (hs₂.moves m₃)) fun test s₄ ⟨g₄, he, ht⟩ => ?_
  replace g₄ := m₃.grows.trans g₄
  refine wp_mono (reads_skip _) fun _ s₅ m₅ => ?_
  have g₅ := g₄.trans m₅.grows
  refine wp_mono (hb s₅ (hs₂.mono g₅)) fun body s₆ ⟨g₆, hbody⟩ => ?_
  refine wp_mono (reads_accept (.keyword .elseWord) s₆) fun _ s₇ m₇ => ⟨fun _ => ?_, fun _ => ?_⟩
  · have g₇ := g₆.trans m₇.grows
    refine wp_mono (hb s₇ ((hs₂.mono g₅).mono g₇)) fun otherwise s₈ ⟨g₈, hother⟩ => ?_
    refine wp_mono (reads_skip _) fun _ s₉ m₉ => ?_
    have g₉ := g₈.trans m₉.grows
    refine wp_mono (close s₉ ((g₅.trans g₇).trans g₉)) fun _ s' ⟨g, e⟩ => ⟨m.grows.trans g, ?_⟩
    have e₆ := (m₇.grows.trans g₉).scopes.toExtends.trans e
    have e₄ := (m₅.grows.trans g₆).scopes.toExtends.trans e₆
    obtain ⟨items, rfl, hitems⟩ := hbody.mono e₆
    obtain ⟨others, rfl, hothers⟩ := hother.mono (m₉.grows.scopes.toExtends.trans e)
    refine .ifElse ?_ (he.mono e₄) (ht.mono e₄) hitems hothers
    exact (g₄.scopes.toExtends.trans e₄).made _ hmade
  · refine wp_mono (reads_skip _) fun _ s₈ m₈ => ?_
    have m₈ := m₇.trans m₈
    refine wp_mono (close s₈ ((g₅.trans g₆).trans m₈.grows)) fun _ s' ⟨g, e⟩ =>
      ⟨m.grows.trans g, ?_⟩
    have e₆ := m₈.grows.scopes.toExtends.trans e
    have e₄ := (m₅.grows.trans g₆).scopes.toExtends.trans e₆
    obtain ⟨items, rfl, hitems⟩ := hbody.mono e₆
    refine .ifThen ?_ (he.mono e₄) (ht.mono e₄) hitems
    exact (g₄.scopes.toExtends.trans e₄).made _ hmade

theorem reads_repeatStatement : ReadsStatement names ret (repeatStatement block) s := by
  simp only [repeatStatement, wp_bind, wp_pure, reads_is, wp_ite]
  refine wp_mono (reads_skip _) fun t s₁ m => ?_
  refine wp_mono (reads_statementScope "repeat" t s₁) ?_
  rintro scope s₁ ⟨rfl, hm⟩
  refine wp_mono (reads_createScope hm (hs.moves m)) fun _ s₂ ⟨hs₂, hmade, close⟩ => ?_
  refine wp_mono (reads_skip _) fun _ s₃ m₃ => ?_
  rw [and_comm]
  refine reads_start (hs₂.moves m₃) fun start s₄ g₄ ha => ?_
  replace g₄ := m₃.grows.trans g₄
  refine wp_mono (reads_skip _) fun _ s₅ m₅ => ?_
  have g₅ := g₄.trans m₅.grows
  refine wp_mono (hb s₅ (hs₂.mono g₅)) fun body s₆ ⟨g₆, hbody⟩ => ?_
  refine wp_mono (reads_skip _) fun _ s₇ m₇ => ?_
  have g₇ := g₆.trans m₇.grows
  refine wp_mono (reads_condition ((hs₂.mono g₅).mono g₇)) fun test s₈ ⟨g₈, he, ht⟩ => ?_
  refine wp_mono (close s₈ ((g₅.trans g₇).trans g₈)) fun _ s' ⟨g, e⟩ => ⟨m.grows.trans g, ?_⟩
  have e₆ := (m₇.grows.trans g₈).scopes.toExtends.trans e
  have e₄ := (m₅.grows.trans g₆).scopes.toExtends.trans e₆
  obtain ⟨items, rfl, hitems⟩ := hbody.mono e₆
  refine .repeatLoop ?_ (fun a h => (ha a h).mono e₄) (he.mono e) (ht.mono e) hitems
  exact (g₄.scopes.toExtends.trans e₄).made _ hmade

theorem reads_inlineStatement : ReadsStatement names ret (inlineStatement block) s := by
  simp only [inlineStatement, wp_bind, reads_peek]
  split
  · exact reads_repeatStatement hb hs
  · exact reads_inputStatement hs
  · exact reads_printStatement (.inl rfl) hs
  · exact reads_printStatement (.inr rfl) hs
  · exact reads_returnStatement hs
  · exact reads_namedStatement hs
  · exact trivial

theorem reads_statement : ReadsStatement names ret (statement block) s := by
  simp only [statement, wp_bind, reads_peek]
  split
  · exact reads_forStatement hb hs
  · exact reads_ifStatement hb hs
  · simp only [wp_bind, wp_pure]
    refine wp_mono (reads_inlineStatement hb hs) fun n s₁ ⟨g, hn⟩ => ?_
    refine wp_mono (reads_separator .semicolon s₁) fun _ s₂ m => ⟨g.trans m.grows, ?_⟩
    exact hn.mono m.grows.scopes.toExtends

theorem reads_statementList :
    Reads (statementList block) (fun items s' => s.Grows s' ∧
      ∀ n ∈ items, s'.scopes.IsStatement names ret n) s := by
  refine reads_loop (I := fun before s' => s.Grows s' ∧
    ∀ n ∈ before, s'.scopes.IsStatement names ret n) (fun before s₁ ⟨g, h⟩ => ?_) [] s
    ⟨.refl s, by simp⟩
  simp only [wp_bind, wp_ite, wp_pure, Sum.elim_inl, Sum.elim_inr]
  refine wp_mono (reads_statement hb (hs.mono g)) fun n s₂ ⟨g₂, hn⟩ => ?_
  have hall : ∀ m ∈ n :: before, s₂.scopes.IsStatement names ret m := by
    intro m hm
    rcases List.mem_cons.1 hm with rfl | hm
    · exact hn
    · exact (h m hm).mono g₂.scopes.toExtends
  refine reads_atBlockEnd _ s₂ fun stop => ?_
  refine ⟨fun _ => ?_, fun _ => ?_⟩
  · exact ⟨g.trans g₂, fun m hm => hall m (List.mem_reverse.1 hm)⟩
  · exact ⟨g.trans g₂, hall⟩

end Blocks

theorem reads_block : ReadsBlock names ret block := by
  refine .fix fun p hp s hs => ?_
  simp only [wp_bind]
  refine reads_atBlockEnd _ s fun stop => ?_
  simp only [wp_ite, wp_bind, reads_peek, wp_pure]
  refine ⟨fun _ => wp_mono (reads_warn _ _ s) fun _ s₁ m => ?_, fun _ => ?_⟩
  · exact ⟨m.grows, [], rfl, by simp⟩
  · exact wp_mono (reads_statementList hp hs) fun items s₁ ⟨g, h⟩ => ⟨g, items, rfl, h⟩

end StackCompiler.Parser
