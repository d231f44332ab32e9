import StackCompiler.Proofs.Reading.Statements
import StackCompiler.Proofs.Spelling.Expressions

/-!
# The words of statements

The parsers of statements consume the words of the tree they build. An empty block is no block of
the grammar; since it is reported, nothing is said about trees unless the run is clean.
-/

namespace StackCompiler.Parser

open Word Grammar

variable {s s' : State} {ts : List Word}

theorem writes_condition : WritesExpr .bool condition := by
  intro s hs
  simp only [condition, wp_bind, reads_peek]
  refine wp_mono (writes_expression s hs) ?_
  rintro n s₁ ⟨ts, h, hn⟩
  refine wp_mono (h.check (checks_typeOf n)) fun t s₂ h => ?_
  simp only [wp_ite, wp_bind, wp_pure, reads_fail, implies_true, and_true]
  exact fun _ => ⟨ts, h, hn⟩

theorem checks_isImmutable (id : Symbol.Id) : Checks (isImmutable id) := fun _ => rfl

theorem writes_assignmentTo (t : Token) :
    Writes (assignmentTo t) fun _ n ts => Assignment n (name t.text :: ts) := by
  intro s hs
  simp only [assignmentTo, wp_bind, reads_peek]
  refine wp_mono (writes_variableNamed t s hs) ?_
  rintro target s₁ ⟨ts, h, hts, sym, hn⟩
  subst hts hn
  cases ho : assignOperator? s₁.stream.current.kind with
  | none => trivial
  | some k =>
    obtain ⟨hk, hm⟩ := assignOperator?_eq ho
    have hb : k.operator.isMark = true :=
      (by decide : ∀ k ∈ .assign :: Node.Kind.compoundAssignments, k.operator.isMark = true) k hm
    cases sym with
    | none => trivial
    | some id =>
      simp only [Node.symbol, wp_bind]
      refine wp_mono (h.advance hs hb hk) ?_
      rintro _ s₂ ⟨_, h⟩
      refine wp_mono (h.check (checks_isImmutable id)) fun _ s₃ h => ?_
      simp only [wp_ite, wp_bind, wp_pure, reads_fail, reads_peek, implies_true, true_and, and_true]
      intro _
      refine wp_mono (h.part hs writes_expression) ?_
      rintro value s₄ ⟨us, h, _, hv⟩
      refine wp_mono (h.check (checks_typeOf _)) fun _ s₅ h => ?_
      refine wp_mono (h.check (checks_typeOf value)) fun _ s₆ h _ _ => ⟨_, h, ?_⟩
      exact .intro (List.mem_cons.1 hm) hv

theorem writes_assignments : Writes assignments fun _ n ts => ∃ start : List Phrase,
    n = Node.list .assignList (start.map Prod.fst) ∧ ts = commas (start.map Prod.snd) ∧
    ∀ a ∈ start, Assignment a.1 a.2 := by
  intro s hs
  simp only [assignments, wp_bind, wp_pure]
  have hitem : Writes (do assignmentTo (← expect .ident)) fun _ n ts => Assignment n ts := by
    intro s hs
    simp only [wp_bind]
    refine wp_mono ((State.Spells.refl s).ident hs) fun t s₁ h => ?_
    refine wp_mono (h.part hs (writes_assignmentTo t)) ?_
    rintro n s₂ ⟨us, h, _, hn⟩
    exact ⟨_, h, hn⟩
  refine wp_mono (writes_commaList hitem (fun _ _ _ _ _ _ h => h) s hs) ?_
  rintro items s₁ ⟨ts, h, start, _, hi, ht, ha⟩
  refine ⟨ts, h, start, ?_, ht, ha⟩
  rw [hi]

theorem writes_inputTarget : Writes inputTarget fun _ n ts => Target n ts := by
  intro s hs
  simp only [inputTarget, wp_bind]
  refine wp_mono ((State.Spells.refl s).ident hs) fun t s₁ h => ?_
  refine wp_mono (h.part hs (writes_variableNamed t)) ?_
  rintro n s₂ ⟨us, h, _, hu, sym, hn⟩
  subst hu hn
  have hlast : Reads (do
      unless (← typeOf (.mk .reference (some t.text) sym none none none)).isNumeric do
        fail t (.inputNotNumeric t.text)
      return Node.mk .reference (some t.text) sym none none none)
      (fun n s' => ∃ ts, s.Spells ts s' ∧ Target n ts) s₂ := by
    simp only [wp_bind]
    refine wp_mono (h.check (checks_typeOf _)) fun _ s₃ h => ?_
    simp only [wp_ite, wp_bind, wp_pure, reads_fail, implies_true, and_true]
    exact fun _ => ⟨_, h, .intro⟩
  cases sym with
  | none => exact hlast
  | some id =>
    simp only [Node.symbol]
    rw [wp_bind]
    refine wp_mono (checks_isImmutable id s₂) fun _ s₃ e => ?_
    subst e
    rw [wp_ite]
    exact ⟨fun _ => trivial, fun _ => hlast⟩

theorem writes_inputStatement : Writes inputStatement fun _ n ts =>
    Statement n (ts ++ [sign .semicolon]) := by
  intro s hs
  simp only [inputStatement, wp_bind, wp_pure]
  refine wp_mono ((State.Spells.refl s).expect hs rfl) fun _ s₁ h => ?_
  refine wp_mono (h.part hs (writes_commaList writes_inputTarget fun _ _ _ _ _ _ h => h)) ?_
  rintro items s₂ ⟨us, h, _, targets, hne, hi, ht, ha⟩
  refine ⟨_, h, ?_⟩
  rw [hi, ht]
  exact .input hne ha

theorem writes_printEntry : Writes printEntry fun _ n ts => PrintEntry n ts := by
  intro s hs
  simp only [printEntry, wp_bind, reads_is, wp_ite, wp_pure]
  refine ⟨fun hk => ?_, fun _ => ?_⟩
  · have hk : s.stream.kind = .string := by simpa using hk
    refine wp_mono ((State.Spells.refl s).advanceText hs rfl hk) ?_
    rintro t s₁ ⟨ht, h⟩
    refine wp_mono (h.intern _ _ _ _ _) fun id s₂ h => ⟨_, h, ?_⟩
    rw [ht]
    exact .string
  · refine wp_mono (writes_expression s hs) ?_
    rintro n s₁ ⟨ts, h, hn⟩
    exact ⟨ts, h, .value hn⟩

theorem spells_printStatement {w : Keyword} (k : Node.Kind) (hs : s.Cut)
    (hk : s.stream.kind = .keyword w) (hw : (Token.Kind.keyword w).isMark = true) :
    Reads (printStatement k) (fun n s' => ∃ entries : List Phrase, entries ≠ [] ∧
      (∀ e ∈ entries, PrintEntry e.1 e.2) ∧
      s.Spells (key w :: commas (entries.map Prod.snd)) s' ∧
      n = .mk k none none (Node.list .printList (entries.map Prod.fst)) none none) s := by
  simp only [printStatement, wp_bind, wp_pure]
  refine wp_mono ((State.Spells.refl s).advance hs hw hk) ?_
  rintro _ s₁ ⟨_, h⟩
  refine wp_mono (h.part hs (writes_commaList writes_printEntry fun _ _ _ _ _ _ h => h)) ?_
  rintro items s₂ ⟨us, h, _, entries, hne, hi, ht, ha⟩
  refine ⟨entries, hne, ha, ?_, ?_⟩
  · rw [← ht]
    exact h
  · rw [hi]
    rfl

theorem checks_checkReturn (t : Token) (value : Option (Token × Node)) :
    Checks (checkReturn t value) := by
  intro s
  simp only [checkReturn, wp_bind, wp_get]
  cases s.function with
  | none =>
    cases value with
    | none => rfl
    | some e => trivial
  | some id =>
    simp only [wp_bind, reads_symbol?]
    cases value with
    | none =>
      simp only [wp_ite, wp_pure, reads_fail, implies_true, and_true]
    | some e =>
      simp only [wp_ite, wp_bind, reads_fail, wp_pure, implies_true, true_and]
      exact fun _ => wp_mono (checks_typeOf e.2 s) fun _ s' hs' => ⟨fun _ => hs', trivial⟩

theorem writes_returnStatement : Writes returnStatement fun _ n ts =>
    Statement n (ts ++ [sign .semicolon]) := by
  intro s hs
  simp only [returnStatement, wp_bind, reads_is]
  refine wp_mono ((State.Spells.refl s).expect hs rfl) fun t s₁ h => ?_
  refine reads_atBlockEnd _ s₁ fun stop => ?_
  simp only [wp_ite, wp_bind, wp_pure, reads_peek]
  refine ⟨fun _ => ?_, fun _ => ?_⟩
  · exact wp_mono (h.check (checks_checkReturn t none)) fun _ s₂ h => ⟨_, h, .leave⟩
  · refine wp_mono (h.part hs writes_expression) ?_
    rintro n s₂ ⟨us, h, _, hn⟩
    exact wp_mono (h.check (checks_checkReturn t (some _))) fun _ s₃ h => ⟨_, h, .giveBack hn⟩

theorem spells_namedStatement (hs : s.Cut) (hk : s.stream.kind = .ident) :
    Reads namedStatement (fun n s' => ∃ ts, s.Spells ts s' ∧
      Statement n (ts ++ [sign .semicolon])) s := by
  simp only [namedStatement, wp_bind, reads_is, wp_ite]
  refine wp_mono ((State.Spells.refl s).advanceText hs rfl hk) ?_
  rintro t s₁ ⟨ht, h⟩
  refine ⟨fun _ => ?_, fun _ => ?_⟩
  · refine wp_mono (h.part hs (writes_callNamed writes_expression t .callStatement)) ?_
    rintro n s₂ ⟨us, h, _, sym, args, hn, hu, ha⟩
    refine ⟨_, h, ?_⟩
    rw [hn, hu, ← ht]
    simpa [name] using @Statement.call t.text sym args ha
  · refine wp_mono (h.part hs (writes_assignmentTo t)) ?_
    rintro n s₂ ⟨us, h, _, hn⟩
    refine ⟨_, h, ?_⟩
    rw [← ht]
    exact .assignment hn

/-! ## Statements with a block -/

/-- The parser consumes the words of a block, if nothing is reported. -/
abbrev WritesBlock (p : Parser (Option Node)) : Prop :=
  Writes p fun s n ts => s.Clean → ∃ body : List Phrase, body ≠ [] ∧
    n = Node.list .statements (body.map Prod.fst) ∧ ts = body.flatMap Prod.snd ∧
    ∀ b ∈ body, Statement b.1 b.2

theorem checks_statementScope (construct : String) (t : Token) :
    Checks (statementScope construct t) := fun _ => rfl

theorem State.Spells.start {c : Prop} {Q : Option Node → State → Prop} (h : s.Spells ts s')
    (hs : s.Cut) (hQ : ∀ (start : List Phrase) s'',
      s.Spells (ts ++ commas (start.map Prod.snd)) s'' → (∀ a ∈ start, Assignment a.1 a.2) →
      Q (Node.list .assignList (start.map Prod.fst)) s'') :
    (¬ c → Reads assignments Q s') ∧ (c → Q none s') := by
  refine ⟨fun _ => ?_, fun _ => hQ [] s' (by simpa [commas] using h) (by simp)⟩
  refine wp_mono (h.part hs writes_assignments) ?_
  rintro n s₁ ⟨us, h, _, start, hn, hu, ha⟩
  subst hn hu
  exact hQ start s₁ h ha

section Blocks

variable {block : Parser (Option Node)} (hb : WritesBlock block)
include hb

theorem writes_forStatement :
    Writes (forStatement block) fun s n ts => s.Clean → Statement n ts := by
  intro s hs
  simp only [forStatement, wp_bind, wp_pure, reads_is, wp_ite]
  refine wp_mono ((State.Spells.refl s).expect hs rfl) fun t s₁ h => ?_
  refine wp_mono (h.check (checks_statementScope "for" t)) fun scope s₂ h => ?_
  refine wp_mono (h.createScope scope) fun _ s₃ h => ?_
  refine wp_mono (h.expect hs rfl) fun _ s₄ h => ?_
  rw [and_comm]
  refine h.start hs fun start s₅ h ha => ?_
  refine wp_mono (h.expect hs rfl) fun _ s₆ h => ?_
  refine wp_mono (h.part hs writes_condition) ?_
  rintro test s₇ ⟨us, h, _, ht⟩
  refine wp_mono (h.expect hs rfl) fun _ s₈ h => ?_
  refine wp_mono (h.part hs hb) ?_
  rintro body s₉ ⟨vs, h, _, hbody⟩
  have h₉ := State.Spells.refl s₉
  refine wp_mono ((h₉.expect (h.cut hs) (k := .keyword .endWord) rfl)) fun _ s₁₀ h₁₀ => ?_
  refine wp_mono (h₁₀.leaveScope) fun _ s₁₁ h₁₁ => ⟨_, h.trans h₁₁, fun hc => ?_⟩
  obtain ⟨items, hne, rfl, rfl, hi⟩ := hbody (h₁₁.clean hc)
  simpa [Node.withValue, Node.branch] using @Statement.forLoop scope _ _ _ _ ha ht hne hi

theorem writes_ifStatement :
    Writes (ifStatement block) fun s n ts => s.Clean → Statement n ts := by
  intro s hs
  simp only [ifStatement, wp_bind, wp_pure, wp_ite]
  refine wp_mono ((State.Spells.refl s).expect hs rfl) fun t s₁ h => ?_
  refine wp_mono (h.check (checks_statementScope "if" t)) fun scope s₂ h => ?_
  refine wp_mono (h.createScope scope) fun _ s₃ h => ?_
  refine wp_mono (h.expect hs rfl) fun _ s₄ h => ?_
  refine wp_mono (h.part hs writes_condition) ?_
  rintro test s₅ ⟨us, h, _, ht⟩
  refine wp_mono (h.expect hs rfl) fun _ s₆ h => ?_
  refine wp_mono (h.part hs hb) ?_
  rintro body s₇ ⟨vs, h, _, hbody⟩
  have h₇ := State.Spells.refl s₇
  refine wp_mono (h₇.accept (h.cut hs) (k := .keyword .elseWord) rfl) fun found s₈ h₈ =>
    ⟨fun hf => ?_, fun hf => ?_⟩
  · subst hf
    refine wp_mono (h₈.part (h.cut hs) hb) ?_
    rintro otherwise s₉ ⟨ws, h₉, _, hother⟩
    have hc₉ := (h.trans h₉).cut hs
    refine wp_mono ((State.Spells.refl s₉).expect hc₉ (k := .keyword .endWord) rfl)
      fun _ s₁₀ h₁₀ => ?_
    refine wp_mono (h₁₀.leaveScope) fun _ s₁₁ h₁₁ => ⟨_, (h.trans h₉).trans h₁₁, fun hc => ?_⟩
    have hc := h₁₁.clean hc
    obtain ⟨items, hne, rfl, rfl, hi⟩ := hbody (h₉.clean hc)
    obtain ⟨others, hne', rfl, rfl, ho⟩ := hother hc
    simpa [Node.withValue, Node.branch] using @Statement.ifElse scope _ _ _ _ ht hne hi hne' ho
  · obtain rfl : found = false := by simpa using hf
    refine wp_mono (h₈.expect (h.cut hs) (k := .keyword .endWord) rfl) fun _ s₉ h₉ => ?_
    refine wp_mono (h₉.leaveScope) fun _ s₁₀ h₁₀ => ⟨_, h.trans h₁₀, fun hc => ?_⟩
    obtain ⟨items, hne, rfl, rfl, hi⟩ := hbody (h₁₀.clean hc)
    simpa [Node.withValue, Node.branch] using @Statement.ifThen scope _ _ _ ht hne hi

theorem writes_repeatStatement : Writes (repeatStatement block)
    fun s n ts => s.Clean → Statement n (ts ++ [sign .semicolon]) := by
  intro s hs
  simp only [repeatStatement, wp_bind, wp_pure, reads_is, wp_ite]
  refine wp_mono ((State.Spells.refl s).expect hs rfl) fun t s₁ h => ?_
  refine wp_mono (h.check (checks_statementScope "repeat" t)) fun scope s₂ h => ?_
  refine wp_mono (h.createScope scope) fun _ s₃ h => ?_
  refine wp_mono (h.expect hs rfl) fun _ s₄ h => ?_
  rw [and_comm]
  refine h.start hs fun start s₅ h ha => ?_
  refine wp_mono (h.expect hs rfl) fun _ s₆ h => ?_
  refine wp_mono (h.part hs hb) ?_
  rintro body s₇ ⟨us, h, _, hbody⟩
  have h₇ := State.Spells.refl s₇
  refine wp_mono (h₇.expect (h.cut hs) (k := .keyword .untilWord) rfl) fun _ s₈ h₈ => ?_
  refine wp_mono (h₈.part (h.cut hs) writes_condition) ?_
  rintro test s₉ ⟨vs, h₉, _, ht⟩
  refine wp_mono (h₉.leaveScope) fun _ s₁₀ h₁₀ => ⟨_, h.trans h₁₀, fun hc => ?_⟩
  obtain ⟨items, hne, rfl, rfl, hi⟩ := hbody (h₁₀.clean hc)
  simpa [Node.withValue, Node.branch] using @Statement.repeatLoop scope _ _ _ _ ha hne hi ht

theorem writes_inlineStatement : Writes (inlineStatement block)
    fun s n ts => s.Clean → Statement n (ts ++ [sign .semicolon]) := by
  intro s hs
  simp only [inlineStatement, wp_bind, reads_peek]
  split
  · exact writes_repeatStatement hb s hs
  · refine wp_mono (writes_inputStatement s hs) ?_
    rintro n s₁ ⟨ts, h, hn⟩
    exact ⟨ts, h, fun _ => hn⟩
  · next hk =>
    refine wp_mono (spells_printStatement .print hs hk rfl) ?_
    rintro n s₁ ⟨es, hne, he, h, hn⟩
    exact ⟨_, h, fun _ => hn ▸ .print hne he⟩
  · next hk =>
    refine wp_mono (spells_printStatement .println hs hk rfl) ?_
    rintro n s₁ ⟨es, hne, he, h, hn⟩
    exact ⟨_, h, fun _ => hn ▸ .println hne he⟩
  · refine wp_mono (writes_returnStatement s hs) ?_
    rintro n s₁ ⟨ts, h, hn⟩
    exact ⟨ts, h, fun _ => hn⟩
  · next hk =>
    refine wp_mono (spells_namedStatement hs hk) ?_
    rintro n s₁ ⟨ts, h, hn⟩
    exact ⟨ts, h, fun _ => hn⟩
  · trivial

theorem writes_statement :
    Writes (statement block) fun s n ts => s.Clean → Statement n ts := by
  intro s hs
  simp only [statement, wp_bind, reads_peek]
  split
  · exact writes_forStatement hb s hs
  · exact writes_ifStatement hb s hs
  · simp only [wp_bind, wp_pure]
    refine wp_mono (writes_inlineStatement hb s hs) ?_
    rintro n s₁ ⟨ts, h, hn⟩
    have h₁ := State.Spells.refl s₁
    refine wp_mono (h₁.separator (h.cut hs) (k := .semicolon) rfl) fun _ s₂ h₂ => ?_
    exact ⟨_, h.trans h₂, fun hc => hn (h₂.clean hc)⟩

theorem writes_statementList : Writes (statementList block)
    fun s items ts => ∃ body : List Phrase, body ≠ [] ∧ items = body.map Prod.fst ∧
      ts = body.flatMap Prod.snd ∧ ∀ b ∈ body, s.Clean → Statement b.1 b.2 := by
  intro s hs
  refine reads_loop (I := fun before s' => ∃ body : List Phrase,
    before.reverse = body.map Prod.fst ∧ s.Spells (body.flatMap Prod.snd) s' ∧
    ∀ b ∈ body, s'.Clean → Statement b.1 b.2)
    ?_ [] s ⟨[], rfl, .refl s, by simp⟩
  rintro before s₁ ⟨body, hb', h, hi⟩
  simp only [wp_bind]
  refine wp_mono (h.part hs (writes_statement hb)) ?_
  rintro n s₂ ⟨us, h, h₁₂, hn⟩
  have hr : (n :: before).reverse = (body ++ [(n, us)]).map Prod.fst := by simp [hb']
  have hall : ∀ b ∈ body ++ [(n, us)], s₂.Clean → Statement b.1 b.2 := by
    intro b hm hc
    rcases List.mem_append.1 hm with hm | hm
    · exact hi b hm (h₁₂.clean hc)
    · rw [List.mem_singleton.1 hm]
      exact hn hc
  have hw : s.Spells ((body ++ [(n, us)]).flatMap Prod.snd) s₂ := by simpa using h
  refine reads_atBlockEnd _ s₂ fun stop => ?_
  simp only [atEnd, reads_is, wp_ite, wp_pure, Sum.elim_inl, Sum.elim_inr]
  exact ⟨fun _ => ⟨_, hw, body ++ [(n, us)], by simp, hr, rfl, hall⟩,
    fun _ => ⟨body ++ [(n, us)], hr, hw, hall⟩⟩

end Blocks

theorem writes_block : WritesBlock block := by
  refine Writes.fix fun p hp s hs => ?_
  rw [Reads, wp_bind]
  refine reads_atBlockEnd _ s fun stop => ?_
  simp only [wp_ite, wp_bind, wp_pure, reads_peek]
  refine ⟨fun _ => ?_, fun _ => ?_⟩
  · refine wp_mono ((State.Spells.refl s).warn s.stream.current .emptyBlock []) ?_
    rintro _ s₁ ⟨h, hr, _⟩
    refine ⟨[], h, fun hc => absurd hc hr⟩
  · refine wp_mono (writes_statementList hp s hs) ?_
    rintro items s₁ ⟨ts, h, body, hne, hi, ht, ha⟩
    exact ⟨ts, h, fun hc => ⟨body, hne, by rw [hi], ht, fun b hm => ha b hm hc⟩⟩

end StackCompiler.Parser
