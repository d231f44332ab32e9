import StackCompiler.Proofs.Outline
import StackCompiler.Proofs.Reading.Statements

/-!
# Reading declarations

A list of declarations adds its entries to the innermost open scope, in order, and gives each the
next place of its region.
-/

namespace StackCompiler.Parser

variable {s s' s'' : State} {i : Nat} {rest : List Nat} {scope : String} {l : List Entry}

/-! ## Variables -/

/-- The stream is the same, and so is the function that is read. -/
structure State.Follows (s s' : State) : Prop where
  tokens : s'.stream.tokens = s.stream.tokens
  function : s'.function = s.function

theorem State.Follows.trans (h : s.Follows s') (h' : s'.Follows s'') : s.Follows s'' :=
  ⟨h'.tokens.trans h.tokens, h'.function.trans h.function⟩

theorem State.Moves.follows (m : s.Moves s') : s.Follows s' := ⟨m.tokens, m.function⟩

theorem State.Grows.follows (g : s.Grows s') : s.Follows s' := ⟨g.tokens, g.function⟩

theorem State.Lexed.follows (h : s.Lexed) (f : s.Follows s') : s'.Lexed :=
  fun t ht => h t (f.tokens ▸ ht)

theorem reads_checkFresh (h : s.scopes.Top i rest scope l) (t : Token) :
    Reads (checkFresh t) (fun _ s' => s' = s ∧ l.lookup t.text = none) s := by
  simp only [checkFresh, wp_bind, wp_get, wp_ite, wp_pure, reads_fail, implies_true,
    true_and, h.declaresHere]
  intro hd
  exact Option.not_isSome_iff_eq_none.1 hd

theorem reads_declare (h : s.scopes.Top i rest scope l) (t : Token) (sym : Symbol)
    (region : Option Region) :
    Reads (declare t sym region) (fun id s' => l.lookup t.text = none ∧
      id = s.scopes.symbols.size ∧ s'.scopes = (s.scopes.declare sym region).2 ∧
      s.Follows s') s := by
  simp only [declare, wp_bind, wp_modifyGet]
  refine wp_mono (reads_checkFresh h t) ?_
  rintro _ s₁ ⟨rfl, hf⟩
  refine ⟨hf, ?_, rfl, rfl, rfl⟩
  rw [Scopes.declare_eq h.stack]

/-- Reading added the entries to the innermost open scope, each in the next place of the region. -/
structure Adds (i : Nat) (rest : List Nat) (scope : String) (l : List Entry)
    (region : Option Region) (isParameter : Bool) (s : State) (entries : List Entry) (s' : State) :
    Prop where
  follows : s.Follows s'
  valid : s'.scopes.Valid
  top : s'.scopes.Top i rest scope (l ++ entries)
  keeps : Scopes.Keeps s.scopes.symbols.size [i] s.scopes s'.scopes
  index : s'.scopes.index = s.scopes.index
  holds : s'.scopes.Holds entries
    (if isParameter then Outline.parameterAttributes else Outline.variableAttributes)
    (s.scopes.slotAfter region isParameter)
  next : ∀ k, s'.scopes.slotAfter region isParameter k =
    s.scopes.slotAfter region isParameter (entries.length + k)
  nextGlobal : region ≠ some .globals → s'.scopes.nextGlobal = s.scopes.nextGlobal
  nextLocal : isParameter → s'.scopes.nextLocal = s.scopes.nextLocal

namespace Adds

variable {region : Option Region} {p : Bool} {entries : List Entry}

theorem refl (hv : s.scopes.Valid) (h : s.scopes.Top i rest scope l) :
    Adds i rest scope l region p s [] s where
  follows := (State.Moves.refl s).follows
  valid := hv
  top := by simpa using h
  keeps := .refl _ _ _
  index := rfl
  holds := by simp [Scopes.Holds]
  next k := by simp
  nextGlobal _ := rfl
  nextLocal _ := rfl

theorem moves (h : Adds i rest scope l region p s entries s') (m : s'.Moves s'') :
    Adds i rest scope l region p s entries s'' := by
  obtain ⟨hf, hv, ht, hk, hi, hh, hn, hg, hl⟩ := h
  exact ⟨hf.trans m.follows, m.scopes ▸ hv, m.scopes ▸ ht, m.scopes ▸ hk, m.scopes ▸ hi,
    m.scopes ▸ hh, m.scopes ▸ hn, m.scopes ▸ hg, m.scopes ▸ hl⟩

theorem declare {s₁ : State} {sym : Symbol} {type : DataType}
    (h : Adds i rest scope l region p s entries s₁) (hf : (l ++ entries).lookup sym.name = none)
    (hv : sym.IsVariable type) (hs : sym.storage = none) (hp : sym.isParameter = p)
    (ha : sym.attributes =
      (if p then Outline.parameterAttributes else Outline.variableAttributes) type)
    (hfol : s₁.Follows s') (hsc : s'.scopes = (s₁.scopes.declare sym region).2) :
    Adds i rest scope l region p s (entries ++ [(sym.name, s₁.scopes.symbols.size)]) s' := by
  have hst := h.top.stack
  have hk := Scopes.keeps_declare hst (Nat.le_refl _) sym region
  obtain ⟨-, hn, hattr, hstore⟩ := Scopes.place_fst s₁.scopes region hs
  refine ⟨h.follows.trans hfol, ?_, ?_, ?_, ?_, ?_, fun k => ?_, fun hr => ?_, fun hp' => ?_⟩
  · exact hsc ▸ h.valid.declare h.top (.inr (.inr (.inr ⟨type, hv⟩))) hs
  · rw [hsc, ← List.append_assoc]
    exact h.top.declare hf
  · exact hsc ▸ h.keeps.trans (hk.weaken h.keeps.size fun _ h => h)
  · rw [hsc, Scopes.declare_index hst, h.index]
  · rw [hsc]
    refine (h.holds.mono hk.toExtends).snoc (by rw [Scopes.symbol?_declare hst, if_pos rfl]) hn
      (Scopes.isVariable_place hv hs) (hattr.trans ha) ?_
    rw [hstore, hp, Scopes.nextPlace_eq, h.next]
    rfl
  · rw [hsc, ← hp, Scopes.slotAfter_declare hst, hp, h.next]
    congr 1
    simp
    omega
  · rw [hsc, Scopes.declare_nextGlobal hst hr, h.nextGlobal hr]
  · rw [hsc, Scopes.declare_nextLocal hst (hp.trans hp'), h.nextLocal hp']

end Adds

theorem reads_scalarType (s : State) :
    Reads scalarType (fun t s' => t.IsScalar ∧ s.Moves s') s := by
  simp only [scalarType, wp_bind, reads_peek]
  split
  case h_1 | h_2 | h_3 =>
    simp only [wp_bind, wp_pure]
    exact wp_mono (reads_advance s) fun _ s₁ ⟨_, m⟩ => ⟨by simp [DataType.IsScalar], m⟩
  case h_4 | h_5 => exact trivial

theorem isVariable_new {type : DataType} (ht : type.IsScalar) {name : String} {p : Position}
    {attributes : List Symbol.Attribute}
    (ha : attributes.findSome? Symbol.Attribute.dataType? = some type) :
    (Symbol.new (.variableOf type) name p attributes).IsVariable type := by
  rcases ht with rfl | rfl | rfl <;>
    exact ⟨by simp [Symbol.new, Symbol.Kind.variableOf], by simp [Symbol.new, Symbol.Kind.variableOf],
      by simp [Symbol.new, Symbol.Kind.variableOf], ha, by simp [DataType.IsScalar]⟩

theorem reads_declaration {region : Option Region} {p : Bool} {entries : List Entry} {s₁ : State}
    (h : Adds i rest scope l region p s entries s₁) :
    Reads (declaration region p) (fun n s' => ∃ e, n = Entry.node e ∧
      Adds i rest scope l region p s (entries ++ [e]) s') s₁ := by
  simp only [declaration, wp_bind, wp_pure]
  refine wp_mono (reads_skip .ident) fun t s₂ m₂ => ?_
  refine wp_mono (reads_separator .colon s₂) fun _ s₃ m₃ => ?_
  refine wp_mono (reads_scalarType s₃) fun type s₄ ⟨ht, m₄⟩ => ?_
  replace h := h.moves ((m₂.trans m₃).trans m₄)
  generalize hattr : (if p = true then [Symbol.Attribute.dataType type, .isParameter]
    else [.dataType type]) = attributes
  have ha : attributes =
      (if p then Outline.parameterAttributes else Outline.variableAttributes) type := by
    rw [← hattr]; cases p <;> rfl
  have hfind : attributes.findSome? Symbol.Attribute.dataType? = some type := by
    rw [← hattr]; cases p <;> rfl
  generalize hsym : Symbol.new (.variableOf type) t.text t.position attributes = sym
  have hpar : sym.isParameter = p := by
    rw [← hsym, ← hattr]; cases p <;> rfl
  have hstore : sym.storage = none := by rw [← hsym]; rfl
  have hname : sym.name = t.text := by rw [← hsym]; rfl
  have hvar : sym.IsVariable type := hsym ▸ isVariable_new ht hfind
  refine wp_mono (reads_declare h.top t sym region) fun id s₅ ⟨hf, hid, hsc, hfol⟩ => ?_
  rw [← hname] at hf
  refine ⟨(sym.name, id), by rw [hname]; rfl, ?_⟩
  rw [hid]
  exact h.declare hf hvar hstore hpar (by rw [← hsym]; exact ha) hfol hsc

theorem reads_declarationList {region : Option Region} {p : Bool}
    (hv : s.scopes.Valid) (h : s.scopes.Top i rest scope l) :
    Reads (commaList (declaration region p)) (fun items s' => ∃ entries,
      items = entries.map Entry.node ∧ Adds i rest scope l region p s entries s') s := by
  refine wp_mono (reads_commaList (I := fun items s' => ∃ entries, items = entries.map Entry.node ∧
    Adds i rest scope l region p s entries s') ?_ ?_ ⟨[], rfl, .refl hv h⟩) fun _ _ h => h.2
  · rintro _ s₁ s₂ m ⟨entries, rfl, ha⟩
    exact ⟨entries, rfl, ha.moves m⟩
  · rintro _ s₁ ⟨entries, rfl, ha⟩
    refine wp_mono (reads_declaration ha) ?_
    rintro _ s₂ ⟨e, rfl, ha⟩
    exact ⟨entries ++ [e], by simp, ha⟩

theorem reads_declarations {region : Region} (hv : s.scopes.Valid)
    (h : s.scopes.Top i rest scope l) :
    Reads (declarations region) (fun n s' => ∃ entries,
      n = Node.list .declList (entries.map Entry.node) ∧
      Adds i rest scope l (some region) false s entries s') s := by
  simp only [declarations, wp_bind, reads_is, wp_ite, wp_pure]
  refine ⟨fun _ => ?_, fun _ => ⟨[], rfl, .refl hv h⟩⟩
  refine wp_mono (reads_declarationList hv h) ?_
  rintro _ s₁ ⟨entries, rfl, ha⟩
  exact ⟨entries, rfl, ha⟩

/-! ## The global scope -/

/-- The scopes that were made are those of statements and the ones listed. -/
def Known (made : List String) (s : Scopes) : Prop :=
  ∀ (name : String) (i : Nat), s.index[name]? = some i → Scopes.IsMarked name ∨ name ∈ made

/-- The scopes that come with the names of the global scope. -/
def scopesFor (l : List Entry) : List String :=
  globalScope :: (l.map fun e => "__struct__" ++ e.1) ++ l.map fun e => functionScope e.1

section ScopeNames

variable {x : String}

theorem not_mem_fst (hx : l.lookup x = none) : ∀ e ∈ l, e.1 ≠ x := by
  rintro e he rfl
  rw [List.lookup_eq_none_iff] at hx
  simpa using hx e he

theorem not_mem_scopesFor (hg : scope ≠ globalScope) (hs : ∀ e ∈ l, "__struct__" ++ e.1 ≠ scope)
    (hf : ∀ e ∈ l, functionScope e.1 ≠ scope) : scope ∉ scopesFor l := by
  simp only [scopesFor, List.cons_append, List.mem_cons, List.mem_append, List.mem_map, not_or,
    not_exists, not_and]
  exact ⟨hg, hs, hf⟩

theorem structScope_not_mem (hx : l.lookup x = none) : "__struct__" ++ x ∉ scopesFor l := by
  refine not_mem_scopesFor (fun h => ?_) (fun e he h => ?_) fun e he h => ?_
  · have := congrArg String.toList h
    simp [globalScope] at this
  · exact not_mem_fst hx e he ((String.append_right_inj _).1 h)
  · have := congrArg String.toList h
    simp [functionScope] at this

theorem functionScope_not_mem (hx : l.lookup x = none) : functionScope x ∉ scopesFor l := by
  refine not_mem_scopesFor (fun h => ?_) (fun e he h => ?_) fun e he h => ?_
  · have := congrArg String.toList h
    simp [globalScope, functionScope] at this
  · have := congrArg String.toList h
    simp [functionScope] at this
  · exact not_mem_fst hx e he ((String.append_right_inj _).1 h)

theorem mainScope_not_mem (l : List Entry) : mainScope ∉ scopesFor l := by
  refine not_mem_scopesFor (by decide) (fun e he h => ?_) fun e he h => ?_ <;>
  · have := congrArg String.toList h
    simp [functionScope, mainScope] at this

theorem Known.isNew {made : List String} {scopes : Scopes} (h : Known made scopes)
    (hu : ¬ Scopes.IsMarked scope) (hm : scope ∉ made) : scopes.index[scope]? = none := by
  cases hi : scopes.index[scope]? with
  | none => rfl
  | some i => exact absurd (h scope i hi) (by simp [hu, hm])

end ScopeNames

/-- The state between the declarations of the global scope, which has the entries `l` so far,
`count` of them named constants. -/
structure State.Global (l : List Entry) (count : Nat) (s : State) : Prop where
  lexed : s.Lexed
  function : s.function = none
  valid : s.scopes.Valid
  top : s.scopes.Top 0 [] globalScope l
  index : s.scopes.index[globalScope]? = some 0
  known : Known (scopesFor l) s.scopes
  nextGlobal : s.scopes.nextGlobal = 8 * count

namespace State.Global

variable {count : Nat}

theorem body (h : s.Global l count) : s.Body (Scopes.namesOf [l]) none :=
  ⟨h.lexed, h.valid, h.top.resolve, h.function⟩

theorem grows (h : s.Global l count) (g : s.Grows s') : s'.Global l count where
  lexed := h.lexed.follows g.follows
  function := g.function.trans h.function
  valid := g.valid h.valid
  top := h.top.grows g.scopes
  index := g.scopes.index _ _ h.index
  known name i hi := (g.scopes.marked name i hi).elim (h.known name i) .inl
  nextGlobal := g.scopes.nextGlobal.trans h.nextGlobal

theorem moves (h : s.Global l count) (m : s.Moves s') : s'.Global l count := h.grows m.grows

theorem declare {sym : Symbol} {region : Option Region} (more : Nat) (h : s.Global l count)
    (hf : l.lookup sym.name = none) (hn : sym.Nameable) (hs : sym.storage = none)
    (hfol : s.Follows s') (hsc : s'.scopes = (s.scopes.declare sym region).2)
    (hg : s'.scopes.nextGlobal = 8 * (count + more : Nat)) :
    s'.Global (l ++ [(sym.name, s.scopes.symbols.size)]) (count + more) := by
  have hst := h.top.stack
  refine ⟨h.lexed.follows hfol, hfol.function.trans h.function, ?_, ?_, ?_, fun name i hi => ?_, hg⟩
  · exact hsc ▸ h.valid.declare h.top hn hs
  · exact hsc ▸ h.top.declare hf
  · rw [hsc, Scopes.declare_index hst, h.index]
  · rw [hsc, Scopes.declare_index hst] at hi
    refine (h.known name i hi).imp_right fun hm => ?_
    simp only [scopesFor, List.cons_append, List.mem_cons, List.mem_append, List.mem_map] at hm ⊢
    rcases hm with rfl | ⟨e, he, rfl⟩ | ⟨e, he, rfl⟩
    · exact .inl rfl
    · exact .inr (.inl ⟨e, .inl he, rfl⟩)
    · exact .inr (.inr ⟨e, .inl he, rfl⟩)

end State.Global

/-- The state while the scope with table `i`, which has the entries `l` so far, is open inside the
global scope, which has the entries `outer`. -/
structure State.Inner (made : List String) (outer : List Entry) (i : Nat) (scope : String)
    (l : List Entry) (s : State) : Prop where
  lexed : s.Lexed
  valid : s.scopes.Valid
  top : s.scopes.Top i [0] scope l
  around : ∃ t, s.scopes.tables[0]? = some t ∧ SymbolTable.scope t = globalScope ∧ t.Lists outer
  ne : i ≠ 0
  index : s.scopes.index[globalScope]? = some 0 ∧ s.scopes.index[scope]? = some i
  known : Known made s.scopes

theorem reads_openScope {count : Nat} (h : s.Global l count) (hu : ¬ Scopes.IsMarked scope)
    (hi : s.scopes.index[scope]? = none) :
    Reads (createScope scope) (fun _ s' =>
      s'.Inner (scope :: scopesFor l) l s.scopes.tables.size scope [] ∧ s.Follows s' ∧
      s'.scopes = s.scopes.create scope) s := by
  obtain ⟨t, ht, hs, hl⟩ := h.top.table
  have hk := Scopes.keeps_create hi 0 []
  have hst := h.top.stack
  refine ⟨⟨h.lexed, h.valid.create (.inr hi), ?_, ⟨t, hk.tables 0 t (by simp) ht, hs, hl⟩, ?_, ⟨?_, ?_⟩,
    fun name j hj => ?_⟩, ⟨rfl, rfl⟩, rfl⟩
  · exact hst ▸ Scopes.top_create hi hu
  · rintro h0
    rw [Array.getElem?_eq_none (Nat.le_of_eq h0)] at ht
    cases ht
  · exact hk.index _ _ h.index
  · exact (Scopes.index_createNew hi scope).trans (if_pos rfl)
  · rw [Scopes.index_createNew hi] at hj
    split at hj
    · next he => exact .inr (by simp [he])
    · exact (h.known name j hj).imp_right (List.mem_cons_of_mem _)

namespace State.Inner

variable {made : List String} {outer : List Entry} (h : s.Inner made outer i scope l)
include h

theorem grows (g : s.Grows s') :
    s'.Inner made outer i scope l := by
  obtain ⟨t, ht, hs, hl⟩ := h.around
  refine ⟨h.lexed.follows g.follows, g.valid h.valid, h.top.grows g.scopes,
    ⟨t, g.scopes.tables 0 t ht, hs, hl⟩, h.ne, ?_, fun name j hj => ?_⟩
  · exact ⟨g.scopes.index _ _ h.index.1, g.scopes.index _ _ h.index.2⟩
  · exact (g.scopes.marked name j hj).elim (h.known name j) .inl

theorem adds {region : Option Region} {p : Bool} {entries : List Entry}
    (ha : Adds i [0] scope l region p s entries s') :
    s'.Inner made outer i scope (l ++ entries) := by
  obtain ⟨t, ht, hs, hl⟩ := h.around
  refine ⟨h.lexed.follows ha.follows, ha.valid, ha.top,
    ⟨t, ha.keeps.tables 0 t (by simpa using h.ne.symm) ht, hs, hl⟩, h.ne, ?_, ?_⟩
  · rw [ha.index]
    exact h.index
  · unfold Known
    rw [ha.index]
    exact h.known

theorem leave {count : Nat} (hf : s.function = none)
    (hg : s.scopes.nextGlobal = 8 * count) (hm : ∀ name ∈ made, name ∈ scopesFor outer) :
    Reads leaveScope (fun _ s' => s'.Global outer count ∧ s'.scopes = s.scopes.leave) s := by
  obtain ⟨t, ht, hs, hl⟩ := h.around
  refine ⟨⟨h.lexed, hf, h.valid.leave, ⟨?_, ⟨t, ht, hs, hl⟩, ?_⟩, h.index.1, fun name j hj => ?_, hg⟩,
    rfl⟩
  · show s.scopes.stack.tail = [0]
    rw [h.top.stack]
    rfl
  · simp [Scopes.IsMarked, globalScope]
  · exact (h.known name j hj).imp_right (hm name)

theorem resolve (name : String) :
    s.scopes.resolve name = Scopes.namesOf [l, outer] name := by
  obtain ⟨t, ht, -, hl⟩ := h.around
  exact h.top.resolve_inner ht hl name

theorem hasTable : s.scopes.HasTable scope l := by
  obtain ⟨t, ht, -, hl⟩ := h.top.table
  exact ⟨i, t, h.ne, h.index.2, ht, hl⟩

end State.Inner

theorem isVariable_constant {type : DataType} (ht : type.IsScalar) (name : String) (p : Position) :
    (Symbol.new (.constantOf type) name p (Outline.constantAttributes type)).IsVariable type := by
  rcases ht with rfl | rfl | rfl <;>
    exact ⟨by simp [Symbol.new, Symbol.Kind.constantOf], by simp [Symbol.new, Symbol.Kind.constantOf],
      by simp [Symbol.new, Symbol.Kind.constantOf], rfl, by simp [DataType.IsScalar]⟩

/-- What was read of the named constants. -/
structure ReadsConstants (cs : List Outline.Constant) (s : State) : Prop where
  global : s.Global (cs.map Outline.Constant.entry) cs.length
  valid : Outline.ValidConstants cs s.scopes

theorem ReadsConstants.grows {cs : List Outline.Constant} (h : ReadsConstants cs s)
    (g : s.Grows s') : ReadsConstants cs s' :=
  ⟨h.global.grows g, h.valid.mono g.scopes.toExtends⟩

theorem reads_constant {cs : List Outline.Constant} {s₁ : State} (h : ReadsConstants cs s₁) :
    Reads constant (fun n s' => ∃ c : Outline.Constant, n = c.node ∧
      ReadsConstants (cs ++ [c]) s') s₁ := by
  simp only [constant, wp_bind, wp_pure]
  refine wp_mono (reads_skip .ident) fun t s₂ m₂ => ?_
  replace h := h.grows m₂.grows
  refine wp_mono (reads_checkFresh h.global.top t) ?_
  rintro _ s₂ ⟨rfl, -⟩
  refine wp_mono (reads_skip .assign) fun _ s₃ m₃ => ?_
  replace h := h.grows m₃.grows
  refine wp_mono (reads_sumExpression s₃ h.global.body) fun value s₄ ⟨g₄, hv⟩ => ?_
  replace h := h.grows g₄
  obtain ⟨type, ht, hscalar⟩ := hv.typed
  refine (reads_typeOf ht _).2 ?_
  have hvar := isVariable_constant hscalar t.text t.position
  generalize hsym : Symbol.new (.constantOf type) t.text t.position [.dataType type, .immutable] = sym
  replace hvar : sym.IsVariable type := hsym ▸ hvar
  have hstore : sym.storage = none := by rw [← hsym]; rfl
  have hname : sym.name = t.text := by rw [← hsym]; rfl
  have hst := h.global.top.stack
  refine wp_mono (reads_declare h.global.top t sym (some .globals))
    fun id s₅ ⟨hf, hid, hsc, hfol⟩ => ?_
  have hk := Scopes.keeps_declare hst (Nat.le_refl _) sym (some .globals)
  rw [← hsc] at hk
  have e := hk.toExtends
  obtain ⟨-, hn', ha', hp'⟩ := Scopes.place_fst s₄.scopes (some .globals) hstore
  refine ⟨⟨t.text, id, value⟩, rfl, ?_, ?_⟩
  · have hg := h.global.declare 1 (hname ▸ hf) (.inr (.inr (.inr ⟨type, hvar⟩))) hstore
      hfol hsc ?_
    · simpa [Outline.Constant.entry, hid, hname] using hg
    · rw [hsc, (Scopes.declare_counters hst sym _).1]
      show s₄.scopes.nextGlobal + 8 = _
      rw [h.global.nextGlobal]
      omega
  · have hs₅ : s₅.scopes.symbol? id = some (s₄.scopes.place sym (some .globals)).1 := by
      rw [hsc, Scopes.symbol?_declare hst, if_pos hid]
    refine (h.valid.mono e).snoc (hv.mono e) (ht.mono e) hs₅ (hn'.trans hname)
      (Scopes.isVariable_place hvar hstore) ?_ ?_
    · rw [ha', ← hsym]
      rfl
    · show some (Storage.mk .globals s₄.scopes.nextGlobal) = _
      rw [h.global.nextGlobal]
      rfl

theorem reads_constants (h : s.Global [] 0) :
    Reads constants (fun n s' => ∃ cs, n = Node.list .initList (cs.map Outline.Constant.node) ∧
      ReadsConstants cs s') s := by
  simp only [constants, wp_bind, wp_pure]
  refine wp_mono (reads_commaList (I := fun items s' => ∃ cs,
    items = cs.map Outline.Constant.node ∧ ReadsConstants cs s') ?_ ?_
    ⟨[], rfl, h, by simp [Scopes.Holds], by simp⟩) ?_
  · rintro _ s₁ s₂ m ⟨cs, rfl, hc⟩
    exact ⟨cs, rfl, hc.grows m.grows⟩
  · rintro _ s₁ ⟨cs, rfl, hc⟩
    refine wp_mono (reads_constant hc) ?_
    rintro _ s₂ ⟨c, rfl, hc⟩
    exact ⟨cs ++ [c], by simp, hc⟩
  · rintro _ s₁ ⟨-, cs, rfl, hc⟩
    exact ⟨cs, rfl, hc⟩

/-! ## Types and arrays -/

/-- What was read of the types and arrays, which follow the entries `l`. -/
structure ReadsTypes (l : List Entry) (count : Nat) (s : State) (types : List Entry)
    (s' : State) : Prop where
  global : s'.Global (l ++ types) count
  keeps : Scopes.Keeps s.scopes.symbols.size [0] s.scopes s'.scopes
  valid : Outline.ValidTypes types s'.scopes

section Types

variable {count : Nat} {types : List Entry} {s₁ : State}

theorem ReadsTypes.grows (h : ReadsTypes l count s types s') (g : s'.Grows s'') :
    ReadsTypes l count s types s'' :=
  ⟨h.global.grows g, h.keeps.trans (g.scopes.keeps h.keeps.size _), h.valid.mono g.scopes.toExtends⟩

theorem State.Global.readsTypes (h : s.Global l count) : ReadsTypes l count s [] s :=
  ⟨by simpa using h, .refl _ _ _, by simp [Outline.ValidTypes]⟩

theorem ReadsTypes.trans {types' : List Entry} (h : ReadsTypes l count s types s')
    (h' : ReadsTypes (l ++ types) count s' types' s'') :
    ReadsTypes l count s (types ++ types') s'' := by
  refine ⟨?_, h.keeps.trans (h'.keeps.weaken h.keeps.size fun _ h => h), ?_⟩
  · have hg := h'.global
    rwa [List.append_assoc] at hg
  · intro e he
    rcases List.mem_append.1 he with he | he
    · exact h.valid.mono h'.keeps.toExtends e he
    · exact h'.valid e he

theorem reads_declareType {sym : Symbol} {t : Token} (h : ReadsTypes l count s types s₁)
    (hn : sym.name = t.text) (hk : sym.kind = .typeName ∨ sym.kind = .structOrArrayVariable)
    (hs : sym.storage = none) :
    Reads (declare t sym none) (fun id s' => (l ++ types).lookup t.text = none ∧
      ReadsTypes l count s (types ++ [(t.text, id)]) s' ∧ s'.scopes.index = s₁.scopes.index) s₁ := by
  have hst := h.global.top.stack
  refine wp_mono (reads_declare h.global.top t sym none) fun id s₂ ⟨hf, hid, hsc, hfol⟩ => ?_
  have hkeep := Scopes.keeps_declare hst (Nat.le_refl _) sym none
  rw [← hsc] at hkeep
  obtain ⟨hk', hn', -, hp'⟩ := Scopes.place_fst s₁.scopes none hs
  refine ⟨hf, ⟨?_, h.keeps.trans (hkeep.weaken h.keeps.size fun _ h => h), ?_⟩, ?_⟩
  · have hg := h.global.declare 0 (hn ▸ hf) (hk.elim (.inr ∘ .inl) (.inr ∘ .inr ∘ .inl)) hs hfol hsc ?_
    · simpa [hid, hn] using hg
    · rw [hsc, Scopes.declare_nextGlobal hst (by simp), h.global.nextGlobal]
      rfl
  · intro e he
    rcases List.mem_append.1 he with he | he
    · exact h.valid.mono hkeep.toExtends e he
    · rw [List.mem_singleton.1 he]
      refine ⟨_, by rw [hsc, Scopes.symbol?_declare hst, if_pos hid], hn'.trans hn, ?_, hp'⟩
      rwa [hk']
  · rw [hsc, Scopes.declare_index hst]

theorem reads_namesType (p : DataType → Bool) (id : Symbol.Id) (s : State) :
    Reads (namesType p id) (fun _ s' => s' = s) s := by
  simp only [namesType, wp_bind, reads_symbol?]
  split <;> rfl

theorem reads_arrayType {name : Token} (h : ReadsTypes l count s types s₁) :
    Reads (arrayType name) (fun n s' => ∃ e, ReadsTypes l count s (types ++ [e]) s' ∧
      Outline.IsTypeDefinition s'.scopes (l ++ types) e n) s₁ := by
  simp only [arrayType, wp_bind, reads_peek]
  refine wp_mono (reads_skip .leftBracket) fun _ s₂ m₂ => ?_
  replace h := h.grows m₂.grows
  refine wp_mono (reads_sumExpression s₂ h.global.body) fun length s₃ ⟨g₃, hl⟩ => ?_
  replace h := h.grows g₃
  obtain ⟨type, ht, -⟩ := hl.typed
  refine (reads_typeOf ht _).2 ?_
  simp only [wp_ite, wp_bind, reads_fail, implies_true, and_true]
  rintro rfl
  refine wp_mono (reads_skip .rightBracket) fun _ s₄ m₄ => ?_
  replace h := h.grows m₄.grows
  refine wp_mono (reads_skip _) fun _ s₅ m₅ => ?_
  replace h := h.grows m₅.grows
  refine wp_mono (reads_skip _) fun element s₆ m₆ => ?_
  replace h := h.grows m₆.grows
  simp only [reads_resolve]
  split
  · exact trivial
  · next elementId _ =>
    simp only [wp_bind]
    refine wp_mono (reads_namesType _ elementId s₆) ?_
    rintro ok _ rfl
    simp only [wp_ite, wp_bind, reads_fail, wp_pure, implies_true, and_true]
    intro _
    refine wp_mono (reads_declareType h.global.readsTypes rfl (.inl rfl) rfl)
      fun id s₇ ⟨_, h₇, _⟩ => ⟨(name.text, id), h.trans h₇, ?_⟩
    have e : s₃.scopes.Extends s₇.scopes := by
      rw [← m₄.scopes, ← m₅.scopes, ← m₆.scopes]
      exact h₇.keeps.toExtends
    exact .array (element.text, elementId) (hl.mono e) (ht.mono e)

theorem cons_scopesFor_subset {e : Entry} {x : String} (he : e ∈ l)
    (h : x = "__struct__" ++ e.1 ∨ x = functionScope e.1) :
    ∀ y ∈ x :: scopesFor l, y ∈ scopesFor l := by
  intro y hy
  rcases List.mem_cons.1 hy with rfl | hy
  · simp only [scopesFor, List.cons_append, List.mem_cons, List.mem_append, List.mem_map]
    rcases h with rfl | rfl
    · exact .inr (.inl ⟨e, he, rfl⟩)
    · exact .inr (.inr ⟨e, he, rfl⟩)
  · exact hy

theorem unmarked_append (start name : String) (hs : '@' ∉ start.toList) (hn : '@' ∉ name.toList) :
    ¬ Scopes.IsMarked (start ++ name) := by
  simp [Scopes.IsMarked, hs, hn]

theorem reads_recordType {name : Token} (h : ReadsTypes l count s types s₁)
    (hn : '@' ∉ name.text.toList) :
    Reads (recordType name) (fun n s' => ∃ e, ReadsTypes l count s (types ++ [e]) s' ∧
      Outline.IsTypeDefinition s'.scopes (l ++ types) e n) s₁ := by
  simp only [recordType, wp_bind, wp_pure]
  have hu := unmarked_append "__struct__" name.text (by decide) hn
  refine wp_mono (reads_declareType h rfl (.inl rfl) rfl) fun id s₂ ⟨hf, h₂, hi⟩ => ?_
  have hnew : s₂.scopes.index["__struct__" ++ name.text]? = none := by
    rw [hi]
    exact h.global.known.isNew hu (structScope_not_mem hf)
  refine wp_mono (reads_openScope h₂.global hu hnew) fun _ s₃ ⟨hin, hfol, hsc⟩ => ?_
  refine wp_mono (reads_declarationList hin.valid hin.top) ?_
  rintro _ s₄ ⟨entries, rfl, ha⟩
  have hin₄ := hin.adds ha
  refine wp_mono (reads_skip _) fun _ s₅ m₅ => ?_
  have hin₅ := hin₄.grows m₅.grows
  have hfun : s₅.function = none := by
    rw [m₅.function, ha.follows.function, hfol.function, h₂.global.function]
  have hglob : s₅.scopes.nextGlobal = 8 * count := by
    rw [m₅.scopes, ha.nextGlobal (by simp), hsc, Scopes.create_nextGlobal, h₂.global.nextGlobal]
  refine wp_mono (hin₅.leave hfun hglob
    (cons_scopesFor_subset (e := (name.text, id)) (by simp) (.inl rfl))) fun _ s₆ ⟨hg, hsc₆⟩ => ?_
  -- all that changed since the name was declared is the scope of the fields
  have hk : Scopes.Keeps s₂.scopes.symbols.size [0] s₂.scopes s₆.scopes := by
    refine Scopes.Keeps.dropNew (i := s₂.scopes.tables.size) ?_ (Nat.le_refl _)
    rw [hsc₆, m₅.scopes]
    refine .trans ?_ (Scopes.keeps_leave _ _ _)
    refine (hsc ▸ Scopes.keeps_create hnew _ _ : Scopes.Keeps _ _ s₂.scopes s₃.scopes).trans ?_
    refine ha.keeps.weaken ?_ (by simp)
    exact Nat.le_of_eq (by rw [hsc, Scopes.create_symbols])
  refine ⟨(name.text, id), ⟨hg, h₂.keeps.trans (hk.weaken h₂.keeps.size fun _ h => h),
    h₂.valid.mono hk.toExtends⟩, .record entries ?_ ?_⟩
  · rw [hsc₆]
    exact hin₅.hasTable.keeps (Scopes.keeps_leave 0 _ _)
  · rw [hsc₆, m₅.scopes]
    exact ha.holds.mono (Scopes.extends_leave _)

theorem reads_typeDefinition (h : ReadsTypes l count s types s₁) :
    Reads typeDefinition (fun n s' => ∃ e, ReadsTypes l count s (types ++ [e]) s' ∧
      Outline.IsTypeDefinition s'.scopes (l ++ types) e n) s₁ := by
  simp only [typeDefinition, wp_bind, wp_ite]
  refine wp_mono (reads_expect h.global.lexed .ident) fun name s₂ ⟨hk, hl, m₂⟩ => ?_
  replace h := h.grows m₂.grows
  refine wp_mono (reads_skip _) fun _ s₃ m₃ => ?_
  replace h := h.grows m₃.grows
  refine wp_mono (reads_accept _ s₃) fun _ s₄ m₄ => ?_
  replace h := h.grows m₄.grows
  refine ⟨fun _ => ?_, fun _ => ?_⟩
  · exact reads_arrayType h
  · exact reads_recordType h (hl.at_not_mem hk)

/-- What was read of the definitions of types. -/
def ReadsDefinitions (l : List Entry) (count : Nat) (s : State) (ns : List Node) (s' : State) :
    Prop :=
  ∃ types, ReadsTypes l count s types s' ∧ Outline.Defines s'.scopes l types ns

theorem reads_nextDefinition {ns : List Node} (h : ReadsDefinitions l count s ns s₁) :
    Reads typeDefinition (fun n s' => ReadsDefinitions l count s (ns ++ [n]) s') s₁ := by
  obtain ⟨types, h, hns⟩ := h
  refine wp_mono (reads_typeDefinition h.global.readsTypes) fun n s₂ ⟨e, h₂, hn⟩ => ?_
  rw [List.append_nil] at hn
  exact ⟨_, h.trans h₂, (hns.keeps h₂.keeps).snoc hn⟩

theorem reads_typeDefinitions (h : s.Global l count) :
    Reads typeDefinitions (fun n s' => ∃ ns, n = Node.list .typeList ns ∧
      ReadsDefinitions l count s ns s') s := by
  simp only [typeDefinitions, wp_bind, wp_pure]
  have h₀ : ReadsDefinitions l count s [] s := ⟨[], h.readsTypes, .nil⟩
  refine wp_mono (reads_nextDefinition h₀) fun first s₂ h₂ => ?_
  refine wp_mono (reads_whileList (I := fun ns s' => ReadsDefinitions l count s (first :: ns) s')
    ?_ ?_ h₂) fun others s₃ h₃ => ⟨_, rfl, h₃⟩
  · rintro _ s₁ h
    exact h
  · rintro ns s₁ h₁
    exact reads_nextDefinition h₁

theorem reads_arrayDeclaration (h : ReadsTypes l count s types s₁) :
    Reads arrayDeclaration (fun n s' => ∃ e, ReadsTypes l count s (types ++ [e]) s' ∧
      n = Entry.arrayNode e) s₁ := by
  simp only [arrayDeclaration, wp_bind]
  refine wp_mono (reads_skip .ident) fun t s₂ m₂ => ?_
  replace h := h.grows m₂.grows
  refine wp_mono (reads_separator .colon s₂) fun _ s₃ m₃ => ?_
  replace h := h.grows m₃.grows
  refine wp_mono (reads_skip .ident) fun type s₄ m₄ => ?_
  replace h := h.grows m₄.grows
  simp only [reads_resolve]
  split
  · next arrayId _ =>
    simp only [wp_bind]
    refine wp_mono (reads_namesType _ arrayId s₄) ?_
    rintro ok _ rfl
    simp only [wp_ite, wp_bind, reads_fail, wp_pure, implies_true, and_true]
    intro _
    exact wp_mono (reads_declareType h rfl (.inr rfl) rfl)
      fun id s₇ ⟨_, h, _⟩ => ⟨_, h, rfl⟩
  · exact trivial

theorem reads_arrayDeclarations (h : ReadsTypes l count s types s₁) :
    Reads arrayDeclarations (fun n s' => ∃ arrays, ReadsTypes l count s (types ++ arrays) s' ∧
      n = Node.list .arrayDecls (arrays.map Entry.arrayNode)) s₁ := by
  simp only [arrayDeclarations, wp_bind, wp_pure]
  refine wp_mono (reads_commaList (I := fun ns s' => ∃ arrays,
    ReadsTypes l count s (types ++ arrays) s' ∧ ns = arrays.map Entry.arrayNode) ?_ ?_
    ⟨[], by simpa using h, rfl⟩) ?_
  · rintro _ s₁ s₂ m ⟨arrays, h, rfl⟩
    exact ⟨arrays, h.grows m.grows, rfl⟩
  · rintro _ s₁ ⟨arrays, h, rfl⟩
    refine wp_mono (reads_arrayDeclaration h) ?_
    rintro _ s₃ ⟨e, h, rfl⟩
    exact ⟨arrays ++ [e], by rwa [← List.append_assoc], by simp⟩
  · rintro _ s₁ ⟨-, arrays, h, rfl⟩
    exact ⟨arrays, h, rfl⟩

end Types

end StackCompiler.Parser
