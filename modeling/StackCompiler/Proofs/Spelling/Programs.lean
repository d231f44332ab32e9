import StackCompiler.Proofs.Reading.Programs
import StackCompiler.Proofs.Rendering
import StackCompiler.Proofs.Spelling.Statements

/-!
# The words of programs

An accepted program is, word for word, what its tree is written as once parentheses that only group
are left out. The types of variables and functions are not in the tree but in the symbols, which
keep what they were declared with.
-/

namespace StackCompiler.Parser

open Word Grammar

variable {s s' s'' : State} {ts us : List Word} {n : Node} {id : Symbol.Id}

theorem hasDataType_mono {t : DataType} (h : HasDataType s.scopes id t) (hw : s.Spells ts s') :
    HasDataType s'.scopes id t := by
  obtain ⟨sym, hs, ht⟩ := h
  exact ⟨sym, hw.symbols id sym hs, ht⟩

theorem hasDataType_addAttribute {scopes : Scopes} {other : Symbol.Id} {t : DataType}
    (a : Symbol.Attribute) (h : HasDataType scopes other t) :
    HasDataType (scopes.addAttribute id a) other t := by
  obtain ⟨sym, hs, ht⟩ := h
  by_cases hid : id = other
  · refine ⟨sym.addAttribute a, by rw [Scopes.symbol?_addAttribute, if_pos hid, hs]; rfl, ?_⟩
    rw [Symbol.dataType?] at ht
    simp [Symbol.dataType?, Symbol.addAttribute, List.findSome?_append, ht]
  · exact ⟨sym, by rw [Scopes.symbol?_addAttribute, if_neg hid, hs], ht⟩

theorem declaration_mono {us : List Word} (h : Declaration s.scopes n us) (hw : s.Spells ts s') :
    Declaration s'.scopes n us := by
  obtain ⟨ht, hs⟩ := h
  exact .intro ht (hasDataType_mono hs hw)

theorem declaration_addAttribute {scopes : Scopes} (id : Symbol.Id) (a : Symbol.Attribute)
    (h : Declaration scopes n us) : Declaration (scopes.addAttribute id a) n us := by
  obtain ⟨ht, hs⟩ := h
  exact .intro ht (hasDataType_addAttribute a hs)

theorem persists_declaration : Persists fun s n ts => Declaration s.scopes n ts :=
  fun _ _ _ _ _ hw h => declaration_mono h hw

theorem State.Spells.addAttribute (h : s.Spells ts s') (hid : s.scopes.symbol? id = none)
    (a : Symbol.Attribute) : s.Spells ts { s' with scopes := s'.scopes.addAttribute id a } := by
  refine ⟨fun hs => ⟨(h.cut hs).spelled, (h.cut hs).inside, (h.cut hs).ends⟩,
    fun other sym hs => ?_, h.clean, h.words⟩
  have hne : id ≠ other := by
    rintro rfl
    rw [hid] at hs
    cases hs
  show (s'.scopes.addAttribute id a).symbol? other = some sym
  rw [Scopes.symbol?_addAttribute, if_neg hne, h.symbols other sym hs]

/-- The symbol of a declaration is new, and has the attributes that it was given. -/
theorem State.Spells.declare (h : s.Spells ts s') (t : Token) (sym : Symbol)
    (region : Option Region) : Reads (declare t sym region) (fun id s'' => s.Spells ts s'' ∧
      s.scopes.symbol? id = none ∧
      ∃ sym', s''.scopes.symbol? id = some sym' ∧ sym'.attributes = sym.attributes) s' := by
  have hsym : ((s'.scopes.declare sym region).2).symbols =
      s'.scopes.symbols.push (s'.scopes.place sym region).1 ∧
      (s'.scopes.declare sym region).1 = s'.scopes.symbols.size := by
    unfold Scopes.declare Scopes.bind
    dsimp only
    cases region with
    | none => split <;> exact ⟨rfl, rfl⟩
    | some r =>
      have ha := (Scopes.allocate_symbols s'.scopes r sym.isParameter).1
      split <;> simp [Scopes.place, Scopes.add, ha]
  obtain ⟨hpush, hid⟩ := hsym
  simp only [Parser.declare, checkFresh, wp_bind, wp_get, wp_ite, wp_pure, reads_fail,
    implies_true, true_and, wp_modifyGet]
  refine fun _ => ⟨h.quiet (State.spells_scopes s' fun id old hs => ?_), ?_, ?_⟩
  · rw [Scopes.symbol?, hpush]
    exact symbol?_push hs
  · rw [hid]
    cases hs : s.scopes.symbol? s'.scopes.symbols.size with
    | none => rfl
    | some old => exact absurd (Scopes.symbol?_lt (h.symbols _ _ hs)) (Nat.lt_irrefl _)
  · refine ⟨(s'.scopes.place sym region).1, ?_, ?_⟩
    · rw [Scopes.symbol?, hpush, hid]
      simp
    · cases region <;> rfl

theorem writes_scalarType : Writes scalarType fun _ t ts => t.IsScalar ∧ ts = [t.word] := by
  intro s hs
  have h := State.Spells.refl s
  simp only [scalarType, wp_bind, reads_peek]
  split
  case h_4 | h_5 => trivial
  all_goals
    next hk =>
    simp only [wp_bind, wp_pure]
    refine wp_mono (h.advance hs rfl hk) ?_
    rintro _ s₁ ⟨_, h⟩
    exact ⟨_, h, by simp [DataType.IsScalar], rfl⟩

theorem writes_declaration (region : Option Region) (isParameter : Bool) :
    Writes (declaration region isParameter) fun s n ts => Declaration s.scopes n ts := by
  intro s hs
  simp only [declaration, wp_bind, wp_pure]
  refine wp_mono ((State.Spells.refl s).ident hs) fun t s₁ h => ?_
  refine wp_mono (h.separator hs rfl) fun _ s₂ h => ?_
  refine wp_mono (h.part hs writes_scalarType) ?_
  rintro type s₃ ⟨us, h, _, ht, hu⟩
  refine wp_mono (h.declare t _ region) ?_
  rintro id s₄ ⟨h, _, sym, hsym, ha⟩
  refine ⟨_, h, ?_⟩
  rw [hu]
  refine .intro ht ⟨sym, hsym, ?_⟩
  rw [Symbol.dataType?, ha]
  cases isParameter <;> rfl

theorem writes_commaDeclarations (region : Option Region) (isParameter : Bool) :
    Writes (commaList (declaration region isParameter)) fun s items ts =>
      ∃ phrases : List Phrase, phrases ≠ [] ∧ items = phrases.map Prod.fst ∧
        ts = commas (phrases.map Prod.snd) ∧ ∀ d ∈ phrases, Declaration s.scopes d.1 d.2 :=
  writes_commaList (writes_declaration region isParameter) persists_declaration

theorem writes_declarations (region : Region) : Writes (declarations region) fun s n ts =>
    ∃ phrases : List Phrase, n = Node.list .declList (phrases.map Prod.fst) ∧
      ts = commas (phrases.map Prod.snd) ∧ ∀ d ∈ phrases, Declaration s.scopes d.1 d.2 := by
  intro s hs
  simp only [declarations, wp_bind, reads_is, wp_ite, wp_pure]
  refine ⟨fun _ => ?_, fun _ => ⟨[], .refl s, [], rfl, rfl, by simp⟩⟩
  refine wp_mono (writes_commaDeclarations (some region) false s hs) ?_
  rintro items s₁ ⟨ts, h, phrases, _, hi, ht, hd⟩
  refine ⟨ts, h, phrases, by rw [hi], ht, hd⟩

/-! ## Globals -/

theorem checks_checkFresh (t : Token) : Checks (checkFresh t) := by
  intro s
  simp only [checkFresh, wp_bind, wp_get, wp_ite, wp_pure, reads_fail, implies_true, and_self]

theorem writes_constant : Writes constant fun _ n ts => Grammar.Constant n ts := by
  intro s hs
  simp only [constant, wp_bind, wp_pure]
  refine wp_mono ((State.Spells.refl s).ident hs) fun t s₁ h => ?_
  refine wp_mono (h.check (checks_checkFresh t)) fun _ s₂ h => ?_
  refine wp_mono (h.expect hs rfl) fun _ s₃ h => ?_
  refine wp_mono (h.part hs writes_sumExpression) ?_
  rintro value s₄ ⟨us, h, _, hv⟩
  refine wp_mono (h.check (checks_typeOf value)) fun type s₅ h => ?_
  refine wp_mono (h.declare t _ _) ?_
  rintro id s₆ ⟨h, _⟩
  exact ⟨_, h, .intro hv⟩

/-- The parser consumes the words of some phrases, written as `f` says. -/
abbrev WritesList (p : Parser (Option Node)) (k : Node.Kind)
    (P : State → Node → List Word → Prop) (f : List Phrase → List Word) : Prop :=
  Writes p fun s n ts => ∃ phrases : List Phrase, phrases ≠ [] ∧
    n = Node.list k (phrases.map Prod.fst) ∧ ts = f phrases ∧ ∀ q ∈ phrases, P s q.1 q.2

theorem writes_constants : WritesList constants .initList (fun _ n ts => Grammar.Constant n ts)
    fun phrases => commas (phrases.map Prod.snd) := by
  intro s hs
  simp only [constants, wp_bind, wp_pure]
  refine wp_mono (writes_commaList writes_constant (fun _ _ _ _ _ _ h => h) s hs) ?_
  rintro items s₁ ⟨ts, h, phrases, hne, hi, ht, hc⟩
  refine ⟨ts, h, phrases, hne, by rw [hi], ht, hc⟩

theorem checks_namesType (p : DataType → Bool) (id : Symbol.Id) : Checks (namesType p id) := by
  intro s
  simp only [namesType, wp_bind, reads_symbol?]
  split <;> rfl

theorem writes_arrayType (t : Token) : Writes (arrayType t) fun s n ts =>
    TypeDefinition s.scopes n (name t.text :: key .is :: key .array :: ts) := by
  intro s hs
  simp only [arrayType, wp_bind, reads_peek, wp_ite, reads_fail, implies_true, and_true,
    reads_resolve]
  refine wp_mono ((State.Spells.refl s).expect hs rfl) fun _ s₁ h => ?_
  refine wp_mono (h.part hs writes_sumExpression) ?_
  rintro length s₂ ⟨us, h, _, hl⟩
  refine wp_mono (h.check (checks_typeOf length)) fun type s₃ h _ => ?_
  refine wp_mono (h.expect hs rfl) fun _ s₄ h => ?_
  refine wp_mono (h.expect hs rfl) fun _ s₅ h => ?_
  refine wp_mono (h.ident hs) fun element s₆ h => ?_
  cases s₆.scopes.resolve element.text with
  | none => trivial
  | some elementId =>
    simp only [wp_bind, wp_ite, wp_pure, reads_fail, implies_true, and_true]
    refine wp_mono (h.check (checks_namesType _ elementId)) fun _ s₇ h _ => ?_
    refine wp_mono (h.declare t _ none) ?_
    rintro id s₈ ⟨h, _⟩
    refine ⟨_, h, ?_⟩
    simpa [Node.withValue, Node.withSymbol, Node.branch, Node.leaf] using
      @TypeDefinition.array s₈.scopes t.text element.text (some id) (some elementId) length us hl

theorem writes_recordType (t : Token) : Writes (recordType t) fun s n ts =>
    TypeDefinition s.scopes n (name t.text :: key .is :: ts) := by
  intro s hs
  simp only [recordType, wp_bind, wp_pure]
  refine wp_mono ((State.Spells.refl s).declare t _ none) ?_
  rintro id s₁ ⟨h, _⟩
  refine wp_mono (h.createScope _) fun _ s₂ h => ?_
  refine wp_mono (h.part hs (writes_commaDeclarations none false)) ?_
  rintro items s₃ ⟨us, h, _, fields, hne, hi, hu, hf⟩
  have h₃ := State.Spells.refl s₃
  refine wp_mono (h₃.expect (h.cut hs) (k := .keyword .endWord) rfl) fun _ s₄ h₄ => ?_
  refine wp_mono h₄.leaveScope fun _ s₅ h₅ => ⟨_, h.trans h₅, ?_⟩
  rw [hi, hu]
  exact .record hne fun f hm => declaration_mono (hf f hm) h₅

theorem persists_typeDefinition : Persists fun s n ts => TypeDefinition s.scopes n ts := by
  intro s us s' n ts hw h
  cases h with
  | array hl => exact .array hl
  | record hne hf => exact .record hne fun f hm => declaration_mono (hf f hm) hw

theorem writes_typeDefinition :
    Writes typeDefinition fun s n ts => TypeDefinition s.scopes n ts := by
  intro s hs
  simp only [typeDefinition, wp_bind, wp_ite]
  refine wp_mono ((State.Spells.refl s).ident hs) fun t s₁ h => ?_
  refine wp_mono (h.expect hs rfl) fun _ s₂ h => ?_
  refine wp_mono (h.accept hs rfl) fun found s₃ h => ⟨fun hf => ?_, fun hf => ?_⟩
  · subst hf
    refine wp_mono (h.part hs (writes_arrayType t)) ?_
    rintro n s₄ ⟨us, h, _, hn⟩
    exact ⟨_, h, hn⟩
  · obtain rfl : found = false := by simpa using hf
    refine wp_mono (h.part hs (writes_recordType t)) ?_
    rintro n s₄ ⟨us, h, _, hn⟩
    exact ⟨_, h, by simpa using hn⟩

theorem writes_typeDefinitions : WritesList typeDefinitions .typeList
    (fun s n ts => TypeDefinition s.scopes n ts) fun phrases => phrases.flatMap Prod.snd := by
  intro s hs
  simp only [typeDefinitions, wp_bind, wp_pure]
  refine wp_mono (writes_typeDefinition s hs) ?_
  rintro first s₁ ⟨ts, h, hfirst⟩
  refine wp_mono (h.part hs (writes_whileList writes_typeDefinition persists_typeDefinition)) ?_
  rintro others s₂ ⟨us, h, h₁₂, phrases, ho, hu, hp⟩
  refine ⟨_, h, (first, ts) :: phrases, by simp, ?_, ?_, ?_⟩
  · rw [ho, List.map_cons]
  · rw [hu, List.flatMap_cons]
  · intro q hm
    rcases List.mem_cons.1 hm with rfl | hm
    · exact persists_typeDefinition _ _ _ _ _ h₁₂ hfirst
    · exact hp q hm

theorem persists_arrayDeclaration : Persists fun s n ts => ArrayDeclaration s.scopes n ts := by
  intro s us s' n ts hw h
  obtain ⟨hs⟩ := h
  exact .intro (hasDataType_mono hs hw)

theorem writes_arrayDeclaration :
    Writes arrayDeclaration fun s n ts => ArrayDeclaration s.scopes n ts := by
  intro s hs
  simp only [arrayDeclaration, wp_bind, reads_resolve]
  refine wp_mono ((State.Spells.refl s).ident hs) fun t s₁ h => ?_
  refine wp_mono (h.separator hs rfl) fun _ s₂ h => ?_
  refine wp_mono (h.ident hs) fun type s₃ h => ?_
  cases s₃.scopes.resolve type.text with
  | none => trivial
  | some typeId =>
    simp only [wp_bind, wp_ite, wp_pure, reads_fail, implies_true, and_true]
    refine wp_mono (h.check (checks_namesType _ typeId)) fun _ s₄ h _ => ?_
    refine wp_mono (h.declare t _ none) ?_
    rintro id s₅ ⟨h, _, sym, hsym, ha⟩
    refine ⟨_, h, ?_⟩
    refine .intro ⟨sym, hsym, ?_⟩
    rw [Symbol.dataType?, ha]
    rfl

theorem writes_arrayDeclarations : WritesList arrayDeclarations .arrayDecls
    (fun s n ts => ArrayDeclaration s.scopes n ts) fun phrases => commas (phrases.map Prod.snd) := by
  intro s hs
  simp only [arrayDeclarations, wp_bind, wp_pure]
  refine wp_mono (writes_commaList writes_arrayDeclaration persists_arrayDeclaration s hs) ?_
  rintro items s₁ ⟨ts, h, phrases, hne, hi, ht, hc⟩
  refine ⟨ts, h, phrases, hne, by rw [hi], ht, hc⟩

theorem WritesList.introduced {p : Parser (Option Node)} {k : Node.Kind} {w : Keyword}
    {P : State → Node → List Word → Prop} {f : List Phrase → List Word}
    (hp : WritesList p k P f) (hw : (Token.Kind.keyword w).isMark = true) :
    Writes (introduced w p) fun s n ts => ∃ phrases : List Phrase,
      n = Node.list k (phrases.map Prod.fst) ∧
      ts = headed w (phrases.map Prod.fst) (f phrases) ∧ ∀ q ∈ phrases, P s q.1 q.2 := by
  intro s hs
  simp only [Parser.introduced, wp_bind, wp_ite, wp_pure]
  refine wp_mono ((State.Spells.refl s).accept hs hw) fun found s₁ h => ⟨fun hf => ?_, fun hf => ?_⟩
  · subst hf
    refine wp_mono (h.part hs hp) ?_
    rintro n s₂ ⟨us, h, _, phrases, hne, hn, hu, hq⟩
    refine ⟨_, h, phrases, hn, ?_, hq⟩
    simp [headed, hne, hu]
  · obtain rfl : found = false := by simpa using hf
    exact ⟨_, h, [], rfl, rfl, by simp⟩

/-- The words of everything that is declared before the functions. -/
structure GlobalWords (s : State) (constants types arrays : List Phrase) : Prop where
  constants : ∀ c ∈ constants, Grammar.Constant c.1 c.2
  types : ∀ t ∈ types, TypeDefinition s.scopes t.1 t.2
  arrays : ∀ a ∈ arrays, ArrayDeclaration s.scopes a.1 a.2

theorem GlobalWords.mono {constants types arrays : List Phrase}
    (h : GlobalWords s constants types arrays) (hw : s.Spells ts s') :
    GlobalWords s' constants types arrays :=
  ⟨h.constants, fun t hm => persists_typeDefinition _ _ _ _ _ hw (h.types t hm),
    fun a hm => persists_arrayDeclaration _ _ _ _ _ hw (h.arrays a hm)⟩

theorem writes_globals : Writes globals fun s n ts => ∃ constants types arrays : List Phrase,
    n = .mk .globals none none (Node.list .initList (constants.map Prod.fst))
      (Node.list .typeList (types.map Prod.fst)) (Node.list .arrayDecls (arrays.map Prod.fst)) ∧
    ts = headed .constants (constants.map Prod.fst) (commas (constants.map Prod.snd)) ++
      (headed .types (types.map Prod.fst) (types.flatMap Prod.snd) ++
        headed .arrays (arrays.map Prod.fst) (commas (arrays.map Prod.snd))) ∧
    GlobalWords s constants types arrays := by
  intro s hs
  simp only [globals, wp_bind, wp_pure]
  refine wp_mono (writes_constants.introduced rfl s hs) ?_
  rintro n s₁ ⟨ts, h, constants, hn, ht, hc⟩
  refine wp_mono (h.part hs (writes_typeDefinitions.introduced rfl)) ?_
  rintro n' s₂ ⟨us, h, _, types, hn', hu, htypes⟩
  refine wp_mono (h.part hs (writes_arrayDeclarations.introduced rfl)) ?_
  rintro n'' s₃ ⟨vs, h, h₂₃, arrays, hn'', hv, ha⟩
  refine ⟨_, h, constants, types, arrays, ?_, ?_, hc, ?_, ha⟩
  · rw [hn, hn', hn'']
    rfl
  · rw [ht, hu, hv, List.append_assoc]
  · exact fun t hm => persists_typeDefinition _ _ _ _ _ h₂₃ (htypes t hm)

/-! ## Functions -/

theorem writes_parameters : Writes parameters fun s items ts => ∃ phrases : List Phrase,
    items = phrases.map Prod.fst ∧ ts = commas (phrases.map Prod.snd) ∧
    ∀ d ∈ phrases, Declaration s.scopes d.1 d.2 := by
  intro s hs
  simp only [parameters, wp_bind, reads_is, wp_ite, wp_pure]
  refine ⟨fun _ => ⟨[], .refl s, [], rfl, rfl, by simp⟩, fun _ => ?_⟩
  refine wp_mono (writes_commaDeclarations (some .declarations) true s hs) ?_
  rintro items s₁ ⟨ts, h, phrases, _, hi, ht, hd⟩
  exact ⟨ts, h, phrases, hi, ht, hd⟩

theorem writes_returnType : Writes returnType fun _ t ts =>
    (t.IsScalar ∨ t = .void) ∧ ts = [t.word] := by
  intro s hs
  simp only [returnType, wp_bind, wp_ite, wp_pure]
  refine wp_mono ((State.Spells.refl s).accept hs rfl) fun found s₁ h =>
    ⟨fun hf => ?_, fun hf => ?_⟩
  · subst hf
    exact ⟨_, h, .inr trivial, rfl⟩
  · obtain rfl : found = false := by simpa using hf
    refine wp_mono (h.part hs writes_scalarType) ?_
    rintro t s₂ ⟨us, h, _, ht, hu⟩
    exact ⟨_, h, .inl ht, by simpa using hu⟩

/-- Which function is read does not matter to the words. -/
theorem WritesBlock.within {p : Parser (Option Node)} (hp : WritesBlock p) (id : Symbol.Id) :
    WritesBlock (within id p) := by
  intro s hs
  refine reads_within
    (wp_mono (hp { s with function := some id } ⟨hs.spelled, hs.inside, hs.ends⟩) ?_)
  rintro n s₁ ⟨ts, h, hn⟩
  have hc (hs : s.Cut) : s₁.Cut := h.cut ⟨hs.spelled, hs.inside, hs.ends⟩
  exact ⟨ts, ⟨fun hs => ⟨(hc hs).spelled, (hc hs).inside, (hc hs).ends⟩, h.symbols, h.clean,
    fun hs => h.words ⟨hs.spelled, hs.inside, hs.ends⟩⟩, hn⟩

/-- What is known of a function while its head is read: it has no return type yet, and the
parameters have the types they were declared with. -/
structure Head (s : State) (ts : List Word) (id : Symbol.Id) (params : List Phrase) (s' : State) :
    Prop where
  spells : s.Spells ts s'
  symbol : ∃ sym, s'.scopes.symbol? id = some sym ∧ sym.returnType? = none
  params : ∀ p ∈ params, Declaration s'.scopes p.1 p.2

section Functions

variable {id : Symbol.Id} {params : List Phrase}

theorem Head.withAttribute (h : Head s ts id params s') (hid : s.scopes.symbol? id = none)
    (a : Symbol.Attribute) :
    Reads (addAttribute id a) (fun _ s'' => s.Spells ts s'' ∧
      (∃ sym, s''.scopes.symbol? id = some sym ∧ sym.returnType? = a.returnType?) ∧
      ∀ p ∈ params, Declaration s''.scopes p.1 p.2) s' := by
  obtain ⟨sym, hs, hr⟩ := h.symbol
  refine ⟨h.spells.addAttribute hid _, ⟨sym.addAttribute a, ?_, ?_⟩,
    fun p hm => declaration_addAttribute id _ (h.params p hm)⟩
  · show (s'.scopes.addAttribute id _).symbol? id = _
    rw [Scopes.symbol?_addAttribute, if_pos rfl, hs]
    rfl
  · rw [Symbol.returnType?] at hr
    simp [Symbol.returnType?, Symbol.addAttribute, List.findSome?_append, hr]

theorem Head.addParameters (h : Head s ts id params s') (hid : s.scopes.symbol? id = none)
    (ids : List Symbol.Id) :
    Reads (forIn ids PUnit.unit fun param _ =>
      addAttribute id (.parameter param) >>= fun _ => pure (.yield PUnit.unit))
      (fun _ => Head s ts id params) s' :=
  wp_forM (fun param => addAttribute id (.parameter param)) (I := fun _ _ => Head s ts id params)
    (fun _ param _ _ h => wp_mono (h.withAttribute hid (.parameter param)) fun _ _ h' =>
      ⟨h'.1, h'.2.1, h'.2.2⟩) [] ids s' h

theorem Head.trans (h : Head s ts id params s') (hw : s'.Spells us s'') :
    Head s (ts ++ us) id params s'' := by
  obtain ⟨sym, hs, hr⟩ := h.symbol
  exact ⟨h.spells.trans hw, ⟨sym, hw.symbols id sym hs, hr⟩,
    fun p hm => declaration_mono (h.params p hm) hw⟩

end Functions

theorem function_mono {us : List Word} (h : Grammar.Function s.scopes n us) (hw : s.Spells ts s') :
    Grammar.Function s'.scopes n us := by
  obtain ⟨hp, ht, ⟨sym, hs, hr⟩, hl, hne, hb⟩ := h
  exact .intro (fun p hm => declaration_mono (hp p hm) hw) ht ⟨sym, hw.symbols _ _ hs, hr⟩
    (fun l hm => declaration_mono (hl l hm) hw) hne hb

theorem writes_function :
    Writes function fun s n ts => s.Clean → Grammar.Function s.scopes n ts := by
  intro s hs
  simp only [function, wp_bind, wp_pure]
  refine wp_mono ((State.Spells.refl s).expect hs rfl) fun _ s₁ h => ?_
  refine wp_mono (h.ident hs) fun t s₂ h => ?_
  refine wp_mono (h.declare t _ none) ?_
  rintro id s₃ ⟨h, hid, sym, hsym, ha⟩
  have h₃ := State.Spells.refl s₃
  have hs₃ := h.cut hs
  refine wp_mono (h₃.createScope _) fun _ s₄ h₄ => ?_
  refine wp_mono (h₄.expect hs₃ (k := .leftParen) rfl) fun _ s₅ h₅ => ?_
  refine wp_mono (h₅.part hs₃ writes_parameters) ?_
  rintro items s₆ ⟨us, h₆, _, params, hi, hu, hp⟩
  have head : Head s _ id params s₆ := ⟨h.trans h₆,
    ⟨sym, h₆.symbols id sym hsym, by rw [Symbol.returnType?, ha]; rfl⟩, hp⟩
  have h₆ := State.Spells.refl s₆
  have hs₆ := head.spells.cut hs
  refine wp_mono (h₆.expect hs₆ (k := .rightParen) rfl) fun _ s₇ h₇ => ?_
  refine wp_mono ((head.trans h₇).addParameters hid _) fun _ s₈ head => ?_
  have hs₈ := head.spells.cut hs
  have h₈ := State.Spells.refl s₈
  refine wp_mono (h₈.separator hs₈ (k := .colon) rfl) fun _ s₉ h₉ => ?_
  refine wp_mono (h₉.part hs₈ writes_returnType) ?_
  rintro type s₁₀ ⟨vs, h₁₀, _, ht, hv⟩
  refine wp_mono ((head.trans h₁₀).withAttribute hid (.returnType type)) ?_
  rintro _ s₁₁ ⟨h, hret, hp⟩
  have h₁₁ := State.Spells.refl s₁₁
  have hs₁₁ := h.cut hs
  refine wp_mono (h₁₁.part hs₁₁ (writes_declarations .declarations)) ?_
  rintro locals s₁₂ ⟨ws, h₁₂, _, decls, hlocals, hw, hd⟩
  have hs₁₂ := h₁₂.cut hs₁₁
  have h₁₃ := State.Spells.refl s₁₂
  refine wp_mono (h₁₃.expect hs₁₂ (k := .keyword .begin) rfl) fun _ s₁₃ h₁₃ => ?_
  refine wp_mono (h₁₃.part hs₁₂ (writes_block.within id)) ?_
  rintro body s₁₄ ⟨xs, h₁₄, _, hbody⟩
  have h₁₅ := State.Spells.refl s₁₄
  refine wp_mono (h₁₅.expect (h₁₄.cut hs₁₂) (k := .keyword .endWord) rfl) fun _ s₁₅ h₁₅ => ?_
  refine wp_mono h₁₅.leaveScope fun _ s₁₆ h₁₆ => ?_
  have hend := h₁₄.trans h₁₆
  refine ⟨_, (h.trans h₁₂).trans hend, fun hc => ?_⟩
  obtain ⟨phrases, hne, rfl, rfl, hb⟩ := hbody (h₁₆.clean hc)
  obtain ⟨sym', hsym', hret⟩ := hret
  have hlast := h₁₂.trans hend
  have hf := @Grammar.Function.intro s₁₆.scopes t.text id params decls phrases type
    (fun p hm => declaration_mono (hp p hm) hlast) ht ⟨sym', hlast.symbols _ _ hsym', hret⟩
    (fun l hm => declaration_mono (hd l hm) hend) hne hb
  rw [hi, hlocals, hu, hv, hw]
  simpa [Node.withValue, Node.withSymbol, Node.branch] using hf

theorem writes_functions : Writes functions fun s n ts => ∃ phrases : List Phrase,
    n = Node.list .functions (phrases.map Prod.fst) ∧ ts = phrases.flatMap Prod.snd ∧
    ∀ f ∈ phrases, s.Clean → Grammar.Function s.scopes f.1 f.2 := by
  intro s hs
  simp only [functions, wp_bind, wp_pure]
  refine wp_mono (writes_whileList writes_function (fun _ _ _ _ _ hw h hc =>
    function_mono (h (hw.clean hc)) hw) s hs) ?_
  rintro items s₁ ⟨ts, h, phrases, hi, ht, hf⟩
  exact ⟨ts, h, phrases, by rw [hi], ht, hf⟩

theorem writes_mainBody : Writes mainBody fun s n ts => s.Clean → Main s.scopes n ts := by
  intro s hs
  simp only [mainBody, wp_bind, wp_pure]
  refine wp_mono ((State.Spells.refl s).expect hs rfl) fun _ s₁ h => ?_
  refine wp_mono (h.createScope _) fun _ s₂ h => ?_
  refine wp_mono (h.part hs (writes_declarations .globals)) ?_
  rintro declared s₃ ⟨us, h, _, decls, hdecl, hu, hd⟩
  have h₃ := State.Spells.refl s₃
  have hs₃ := h.cut hs
  refine wp_mono (h₃.expect hs₃ (k := .keyword .begin) rfl) fun _ s₄ h₄ => ?_
  refine wp_mono (h₄.part hs₃ writes_block) ?_
  rintro body s₅ ⟨vs, h₅, _, hbody⟩
  have h₆ := State.Spells.refl s₅
  refine wp_mono (h₆.expect (h₅.cut hs₃) (k := .keyword .endWord) rfl) fun _ s₆ h₆ => ?_
  refine wp_mono h₆.leaveScope fun _ s₇ h₇ => ⟨_, h.trans (h₅.trans h₇), fun hc => ?_⟩
  obtain ⟨phrases, hne, rfl, rfl, hb⟩ := hbody (h₇.clean hc)
  rw [hdecl, hu]
  simpa [Node.withValue, Node.branch] using @Main.intro s₇.scopes mainScope decls phrases
    (fun v hm => declaration_mono (hd v hm) (h₅.trans h₇)) hne hb

theorem main_mono {us : List Word} (h : Main s.scopes n us) (hw : s.Spells ts s') :
    Main s'.scopes n us := by
  obtain ⟨hv, hne, hb⟩ := h
  exact .intro (fun v hm => declaration_mono (hv v hm) hw) hne hb

/-- A clean run over a whole program ends at the end of the source. -/
theorem writes_program : Writes program fun s n ts =>
    s.Clean → Program s.scopes n ts ∧ s.stream.kind = .eof := by
  intro s hs
  simp only [program, wp_bind]
  refine wp_mono ((State.Spells.refl s).createScope _) fun _ s₁ h => ?_
  refine wp_mono (h.expect hs rfl) fun _ s₂ h => ?_
  refine wp_mono (h.ident hs) fun t s₃ h => ?_
  refine wp_mono (h.part hs writes_globals) ?_
  rintro globals s₄ ⟨us, h, _, constants, types, arrays, hg, hu, hglobals⟩
  refine wp_mono (h.part hs writes_functions) ?_
  rintro functions s₅ ⟨vs, h, h₄₅, fs, hf, hv, hfs⟩
  refine wp_mono (h.part hs writes_mainBody) ?_
  rintro main s₆ ⟨ws, h, h₅₆, hmain⟩
  have h₆ := State.Spells.refl s₆
  have hs₆ := h.cut hs
  refine wp_mono (h₆.expect hs₆ (k := .keyword .cd20) rfl) fun _ s₇ h₇ => ?_
  refine wp_mono (h₇.ident hs₆) fun last s₈ h₈ => ?_
  simp only [wp_ite, wp_bind, reads_fail, implies_true, and_true, atEnd, reads_is]
  intro hname
  refine ⟨fun hk => ?_, fun _ => ?_⟩
  · have hk : s₈.stream.kind = .eof := by simpa using hk
    have h₉ : s₆.Spells _ { s₈ with scopes := s₈.scopes.leave } := h₈.leaveScope
    refine ⟨_, h.trans h₉, fun hc => ⟨?_, hk⟩⟩
    have h₅ := h₅₆.trans h₉
    obtain ⟨hcs, hts, has⟩ := hglobals.mono (h₄₅.trans h₅)
    rw [hg, hf, hu, hv, hname]
    have hp := @Program.intro s₈.scopes.leave t.text constants types arrays fs main ws hcs hts has
      (fun f hm => function_mono (hfs f hm (h₅.clean hc)) h₅) (main_mono (hmain (h₉.clean hc)) h₉)
    simpa [Node.withValue, Node.branch] using hp
  · refine (reads_peek _ s₈).2 ?_
    refine wp_mono (h₈.warn s₈.stream.current .trailingInput []) ?_
    rintro _ s₉ ⟨h₉, hr, _⟩
    have h₁₀ : s₆.Spells _ { s₉ with scopes := s₉.scopes.leave } := h₉.leaveScope
    exact ⟨_, h.trans h₁₀, fun hc => absurd hc hr⟩

end StackCompiler.Parser

namespace StackCompiler

open StackCompiler.Parser Grammar

theorem cut_ofSource (source : String) (scopes : Scopes) :
    State.Cut ⟨.ofSource (tokensOf source), scopes, #[], #[], none, 0⟩ := by
  obtain ⟨ts, e, heq, hts, he, hk⟩ := tokensOf_eq source
  rw [heq]
  refine ⟨fun t ht => ?_, by simp [TokenStream.ofSource], fun i t hi => ?_⟩
  · rcases List.mem_append.1 (by simpa [TokenStream.ofSource] using ht : t ∈ ts ++ [e]) with ht | ht
    · exact (hts t ht).1
    · rw [List.mem_singleton.1 ht]
      exact he
  · simp only [TokenStream.ofSource, List.getElem?_toArray, List.size_toArray, List.length_append,
      List.length_singleton] at hi ⊢
    by_cases hlt : i < ts.length
    · rw [List.getElem?_append_left hlt] at hi
      have := (hts t (List.mem_of_getElem? hi)).2
      constructor
      · exact fun h => absurd h this
      · omega
    · rw [List.getElem?_append_right (by omega)] at hi
      obtain ⟨h0, rfl⟩ : i - ts.length = 0 ∧ e = t := by
        cases hd : i - ts.length with
        | zero => simpa [hd] using hi
        | succ n => simp [hd] at hi
      constructor
      · omega
      · exact fun _ => hk

/-- Parsing loses, repeats and reorders no word: if a source is accepted without a report, its words
are derived from the tree by the grammar, and without the parentheses that group they are what the
tree is written as. -/
theorem parse_keeps_words {source : String} {root : Node}
    (h : (parseSource source .empty).root = some root)
    (hd : (parseSource source .empty).diagnostics = []) :
    ∃ ts, (tokensOf source).map Token.word = ts ++ [Word.sign .eof] ∧
      Program (parseSource source .empty).scopes root ts ∧
      eraseGroups none [] ts = root.words (parseSource source .empty).scopes false := by
  have hcut := cut_ofSource source .empty
  have hp := writes_program _ hcut
  unfold parseSource parse at h hd ⊢
  split at h
  · next n s' hr =>
    cases h
    rw [hr] at hd
    obtain ⟨ts, hw, hroot⟩ := wp_of_ok hp hr
    have hc : s'.Clean := by simpa [State.Clean] using hd
    obtain ⟨hroot, hk⟩ := hroot hc
    refine ⟨ts, ?_, hroot, hroot.erase_eq⟩
    rw [← (hw.cut hcut).rest_of_eof hk, ← hw.words hcut hc]
    rfl
  · cases h

/-- A program with a negative literal and two pairs of parentheses that group. -/
def groupedSource : String :=
  "CD20 p func f(x : int) : int begin return (x - -2); end main y : int begin y = f((1)); end CD20 p"

theorem parse_keeps_words_grouped : ∃ root,
    (parseSource groupedSource .empty).root = some root ∧
    (parseSource groupedSource .empty).diagnostics = [] ∧
    (root.words (parseSource groupedSource .empty).scopes false).length + 5 =
      (tokensOf groupedSource).length ∧
    ∃ ts, (tokensOf groupedSource).map Token.word = ts ++ [Word.sign .eof] ∧
      Program (parseSource groupedSource .empty).scopes root ts ∧
      eraseGroups none [] ts = root.words (parseSource groupedSource .empty).scopes false := by
  have h : ((parseSource groupedSource .empty).root.any fun root =>
      (root.words (parseSource groupedSource .empty).scopes false).length + 5 =
        (tokensOf groupedSource).length) = true := by
    rw [parseSource, tokensOf_chars groupedSource rfl]
    decide +kernel
  have hd : (parseSource groupedSource .empty).diagnostics = [] := by
    rw [parseSource, tokensOf_chars groupedSource rfl]
    decide +kernel
  obtain ⟨root, hr, hl⟩ := (Option.any_eq_true _ _).1 h
  exact ⟨root, hr, hd, of_decide_eq_true hl, parse_keeps_words hr hd⟩

end StackCompiler
