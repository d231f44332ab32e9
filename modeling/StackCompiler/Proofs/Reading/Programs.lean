import StackCompiler.Proofs.Reading.Declarations

/-!
# Reading programs

The tree of an accepted program has an outline that is valid in the scopes the parser leaves
behind. Each function, and main, is read in a scope of its own inside the global one.
-/

namespace StackCompiler.Parser

variable {s s' s'' s₁ s₂ : State} {l : List Entry} {count : Nat}

theorem reads_introduced {k : Keyword} {p : Parser (Option Node)} {Q : Option Node → State → Prop}
    (h : ∀ s', s.Moves s' → Reads p Q s' ∧ Q none s') : Reads (introduced k p) Q s := by
  simp only [introduced, wp_bind, wp_ite, wp_pure]
  exact wp_mono (reads_accept _ s) fun _ s₁ m => ⟨fun _ => (h s₁ m).1, fun _ => (h s₁ m).2⟩

/-- What was read before the functions. -/
structure ReadsGlobals (cs : List Outline.Constant) (types arrays : List Entry)
    (definitions : List Node) (s : State) : Prop where
  global : s.Global (cs.map Outline.Constant.entry ++ (types ++ arrays)) cs.length
  constants : Outline.ValidConstants cs s.scopes
  definitions : Outline.Defines s.scopes (cs.map Outline.Constant.entry) types definitions
  types : Outline.ValidTypes (types ++ arrays) s.scopes

theorem reads_globals (h : s.Global [] 0) :
    Reads globals (fun n s' => ∃ cs types arrays definitions,
      n = .mk .globals none none (Node.list .initList (cs.map Outline.Constant.node))
        (Node.list .typeList definitions)
        (Node.list .arrayDecls (arrays.map Entry.arrayNode)) ∧
      ReadsGlobals cs types arrays definitions s') s := by
  simp only [globals, wp_bind, wp_pure]
  refine wp_mono (reads_introduced (Q := fun n s' => ∃ cs,
    n = Node.list .initList (cs.map Outline.Constant.node) ∧ ReadsConstants cs s')
    fun s₁ m => ⟨reads_constants (h.moves m), [], rfl, h.moves m, by simp [Scopes.Holds], by simp⟩) ?_
  rintro _ s₁ ⟨cs, rfl, hc⟩
  refine wp_mono (reads_introduced (Q := fun n s' => ∃ ns, n = Node.list .typeList ns ∧
    ∃ s₂, s₁.Moves s₂ ∧ ReadsDefinitions (cs.map Outline.Constant.entry) cs.length s₂ ns s')
    fun s₂ m => ⟨?_, [], rfl, s₂, m, [], (hc.global.moves m).readsTypes, .nil⟩) ?_
  · refine wp_mono (reads_typeDefinitions (hc.global.moves m)) ?_
    rintro n s₃ ⟨ns, hn, h₃⟩
    exact ⟨ns, hn, s₂, m, h₃⟩
  rintro _ s₃ ⟨definitions, rfl, s₂, m₂, types, ht, hdefs⟩
  replace hc := (hc.grows m₂.grows).valid.mono ht.keeps.toExtends
  refine wp_mono (reads_introduced (Q := fun n s' => ∃ arrays,
    n = Node.list .arrayDecls (arrays.map Entry.arrayNode) ∧
    ReadsTypes (cs.map Outline.Constant.entry ++ types) cs.length s₃ arrays s')
    fun s₄ m => ⟨?_, [], rfl, ht.global.readsTypes.grows m.grows⟩) ?_
  · refine wp_mono (reads_arrayDeclarations (ht.global.readsTypes.grows m.grows)) ?_
    rintro _ s₅ ⟨arrays, h₅, rfl⟩
    exact ⟨arrays, rfl, h₅⟩
  rintro _ s₄ ⟨arrays, rfl, h₄⟩
  have h := ht.trans h₄
  exact ⟨cs, types, arrays, definitions, rfl, h.global, hc.mono h₄.keeps.toExtends,
    hdefs.keeps h₄.keeps, h.valid⟩

/-! ## Functions -/

theorem reads_within {α : Type} {p : Parser α} {id : Symbol.Id} {Q : α → State → Prop}
    (h : Reads p (fun a s' => Q a { s' with function := s.function })
      { s with function := some id }) : Reads (within id p) Q s := by
  simp only [within, wp_bind, wp_get, wp_modify, wp_pure]
  exact h

theorem reads_returnType (s : State) :
    Reads returnType (fun t s' => (t.IsScalar ∨ t = .void) ∧ s.Moves s') s := by
  simp only [returnType, wp_bind, wp_ite, wp_pure]
  refine wp_mono (reads_accept _ s) fun _ s₁ m => ⟨fun _ => ⟨by simp, m⟩, fun _ => ?_⟩
  refine wp_mono (reads_scalarType s₁) ?_
  rintro t s₂ ⟨ht, m₂⟩
  exact ⟨.inl ht, m.trans m₂⟩

/-! The places that the counters of a new scope, and those of the program, stand for. -/

theorem slotAfter_parameter {scopes : Scopes} (h : scopes.nextParameter = -8) :
    scopes.slotAfter (some .declarations) true = fun k => some (.ofParameter k) := by
  funext k
  simp [Scopes.slotAfter, h, Storage.ofParameter]

theorem slotAfter_local {scopes : Scopes} (h : scopes.nextLocal = 16) :
    scopes.slotAfter (some .declarations) false = fun k => some (.ofLocal k) := by
  funext k
  simp [Scopes.slotAfter, h, Storage.ofLocal]

theorem slotAfter_global {scopes : Scopes} (h : scopes.nextGlobal = 8 * count) :
    scopes.slotAfter (some .globals) false = fun k => some (.ofGlobal (count + k)) := by
  funext k
  simp only [Scopes.slotAfter, h, Storage.ofGlobal, Option.map_some]
  congr 2
  omega

section Header

variable {outer : List Entry} {i : Nat} {scope : String} {id : Symbol.Id} {sym : Symbol}
  {params locals : List Entry}

/-- What was read of a function since `s`, where the function `id` was declared. Its own scope is
open. -/
structure ReadsHeader (outer : List Entry) (i : Nat) (scope : String) (id : Symbol.Id)
    (sym : Symbol) (params locals : List Entry) (s s' : State) : Prop where
  inner : s'.Inner (scope :: scopesFor outer) outer i scope (params ++ locals)
  follows : s.Follows s'
  keeps : Scopes.Keeps id [i] s.scopes s'.scopes
  symbol : s'.scopes.symbol? id = some sym
  holdsParams : s'.scopes.Holds params Outline.parameterAttributes fun k => some (.ofParameter k)
  holdsLocals : s'.scopes.Holds locals Outline.variableAttributes fun k => some (.ofLocal k)
  nextGlobal : s'.scopes.nextGlobal = s.scopes.nextGlobal
  nextLocal : s'.scopes.nextLocal = 16 + 8 * locals.length

namespace ReadsHeader

theorem start (hs : s.scopes.symbol? id = some sym) (hi : s.scopes.index[scope]? = none)
    (hin : s'.Inner (scope :: scopesFor outer) outer i scope []) (hf : s.Follows s')
    (hsc : s'.scopes = s.scopes.create scope) : ReadsHeader outer i scope id sym [] [] s s' where
  inner := hin
  follows := hf
  keeps := hsc ▸ Scopes.keeps_create hi _ _
  symbol := by rw [hsc, Scopes.symbol?_create, hs]
  holdsParams := by simp [Scopes.Holds]
  holdsLocals := by simp [Scopes.Holds]
  nextGlobal := by rw [hsc, Scopes.create_nextGlobal]
  nextLocal := by
    rw [hsc, (Scopes.create_counters _ _).1]
    rfl

theorem moves (h : ReadsHeader outer i scope id sym params locals s s') (m : s'.Moves s'') :
    ReadsHeader outer i scope id sym params locals s s'' := by
  obtain ⟨hi, hf, hk, hs, hp, hl, hg, hn⟩ := h
  exact ⟨hi.grows m.grows, hf.trans m.follows, m.scopes ▸ hk, m.scopes ▸ hs, m.scopes ▸ hp,
    m.scopes ▸ hl, m.scopes ▸ hg, m.scopes ▸ hn⟩

theorem lt_size (h : ReadsHeader outer i scope id sym params locals s s') :
    id < s'.scopes.symbols.size := Scopes.symbol?_lt h.symbol

theorem addParameters (h : ReadsHeader outer i scope id sym [] [] s s₁)
    (hn : s₁.scopes.nextParameter = -8)
    (ha : Adds i [0] scope [] (some .declarations) true s₁ params s') :
    ReadsHeader outer i scope id sym params [] s s' where
  inner := by simpa using h.inner.adds ha
  follows := h.follows.trans ha.follows
  keeps := h.keeps.trans (ha.keeps.weaken (Nat.le_of_lt h.lt_size) fun _ h => h)
  symbol := by rw [ha.keeps.symbols _ h.lt_size, h.symbol]
  holdsParams := slotAfter_parameter hn ▸ ha.holds
  holdsLocals := by simp [Scopes.Holds]
  nextGlobal := (ha.nextGlobal (by simp)).trans h.nextGlobal
  nextLocal := (ha.nextLocal rfl).trans h.nextLocal

theorem addLocals (h : ReadsHeader outer i scope id sym params [] s s₁)
    (ha : Adds i [0] scope params (some .declarations) false s₁ locals s') :
    ReadsHeader outer i scope id sym params locals s s' where
  inner := by
    have hin := h.inner
    rw [List.append_nil] at hin
    exact hin.adds ha
  follows := h.follows.trans ha.follows
  keeps := h.keeps.trans (ha.keeps.weaken (Nat.le_of_lt h.lt_size) fun _ h => h)
  symbol := by rw [ha.keeps.symbols _ h.lt_size, h.symbol]
  holdsParams := h.holdsParams.mono ha.keeps.toExtends
  holdsLocals := slotAfter_local h.nextLocal ▸ ha.holds
  nextGlobal := (ha.nextGlobal (by simp)).trans h.nextGlobal
  nextLocal := by
    have hn := ha.next 0
    simpa [Scopes.slotAfter, h.nextLocal] using hn

end ReadsHeader

theorem holds_addAttribute {scopes : Scopes} {entries : List Entry} {a : Symbol.Attribute}
    {attributes : DataType → List Symbol.Attribute} {place : Nat → Option Storage}
    (h : scopes.Holds entries attributes place) (hs : scopes.symbol? id = some sym)
    (hf : sym.kind = .function) : (scopes.addAttribute id a).Holds entries attributes place := by
  intro k e hk
  obtain ⟨sym', t, hs', hn, hv, hrest⟩ := h k e hk
  refine ⟨sym', t, ?_, hn, hv, hrest⟩
  rw [Scopes.symbol?_addAttribute, if_neg, hs']
  rintro rfl
  rw [hs, Option.some.injEq] at hs'
  exact hv.not_function (hs' ▸ hf)

theorem reads_addAttribute {a : Symbol.Attribute}
    (h : ReadsHeader outer i scope id sym params locals s s₁)
    (hf : (sym.addAttribute a).IsFunction) :
    Reads (addAttribute id a)
      (fun _ s' => ReadsHeader outer i scope id (sym.addAttribute a) params locals s s') s₁ := by
  have hin := h.inner
  refine ⟨⟨hin.lexed, hin.valid.addAttribute h.symbol hf, hin.top.addAttribute id a, hin.around, hin.ne,
    hin.index, hin.known⟩, ⟨h.follows.tokens, h.follows.function⟩, ?_, ?_,
    holds_addAttribute h.holdsParams h.symbol hf.kind,
    holds_addAttribute h.holdsLocals h.symbol hf.kind,
    h.nextGlobal, h.nextLocal⟩
  · exact h.keeps.trans (Scopes.keeps_addAttribute a (Nat.le_refl _) _ _)
  · exact (Scopes.symbol?_addAttribute _ id a id).trans (by rw [if_pos rfl, h.symbol]; rfl)

def functionSymbol (name : String) (p : Position) (attributes : List Symbol.Attribute) : Symbol :=
  { Symbol.new .function name p attributes with scope := globalScope }

theorem returnType?_parameters (ids : List Symbol.Id) :
    (ids.map Symbol.Attribute.parameter).findSome? Symbol.Attribute.returnType? = none := by
  simp [Symbol.Attribute.returnType?]

theorem isFunction_parameters (name : String) (p : Position) (ids : List Symbol.Id) :
    (functionSymbol name p (ids.map .parameter)).IsFunction := by
  refine ⟨rfl, .inr ?_⟩
  simp [Symbol.valueType, Symbol.Kind.isFunction, functionSymbol, Symbol.new, Symbol.returnType?,
    returnType?_parameters]

theorem returnType?_header (name : String) (p : Position) (ids : List Symbol.Id) (t : DataType) :
    (functionSymbol name p (ids.map .parameter ++ [.returnType t])).returnType? = some t := by
  simp [functionSymbol, Symbol.new, Symbol.returnType?, List.findSome?_append,
    returnType?_parameters, Symbol.Attribute.returnType?]

theorem isFunction_header (name : String) (p : Position) (ids : List Symbol.Id) {t : DataType}
    (ht : t.IsScalar ∨ t = .void) :
    (functionSymbol name p (ids.map .parameter ++ [.returnType t])).IsFunction := by
  refine ⟨rfl, ?_⟩
  rwa [Symbol.valueType, returnType?_header]

theorem reads_noteParameters {name : String} {p : Position}
    (h : ReadsHeader outer i scope id (functionSymbol name p []) params locals s s₁)
    (ids : List Symbol.Id) :
    Reads (forIn ids PUnit.unit fun param _ =>
        addAttribute id (.parameter param) >>= fun _ => pure (.yield PUnit.unit))
      (fun _ s' => ReadsHeader outer i scope id (functionSymbol name p (ids.map .parameter)) params
        locals s s') s₁ := by
  refine wp_forM (fun param => addAttribute id (.parameter param)) (I := fun done _ s' =>
    ReadsHeader outer i scope id (functionSymbol name p (done.map .parameter)) params locals s s')
    (fun done param _ s₂ h₂ => ?_) [] ids s₁ h
  have hnew : (functionSymbol name p (done.map .parameter)).addAttribute (.parameter param) =
      functionSymbol name p ((done ++ [param]).map .parameter) := by
    simp [functionSymbol, Symbol.addAttribute, Symbol.new]
  rw [← hnew]
  exact reads_addAttribute h₂ (hnew ▸ isFunction_parameters name p _)

theorem reads_functionBody {ret : DataType}
    (h : ReadsHeader outer i scope id sym params locals s s₁) (hr : sym.returnType? = some ret) :
    Reads (within id block) (fun body s' => s₁.Grows s' ∧
      s'.scopes.IsBlock (Scopes.namesOf [params ++ locals, outer]) (some ret) body) s₁ := by
  have hb : State.Body (Scopes.namesOf [params ++ locals, outer]) (some ret)
      { s₁ with function := some id } :=
    ⟨h.inner.lexed, h.inner.valid, h.inner.resolve, id, sym, rfl, h.symbol, by rw [hr]; rfl⟩
  refine reads_within (wp_mono (reads_block _ hb) ?_)
  rintro body s₂ ⟨g, hbody⟩
  exact ⟨⟨g.tokens, rfl, g.scopes, g.valid⟩, hbody⟩

theorem ReadsHeader.leave {name : String} {ret : DataType} {body : Option Node} {p : Position}
    (h : ReadsHeader outer i (functionScope name) id
      (functionSymbol name p ((params.map Prod.snd).map .parameter ++ [.returnType ret]))
      params locals s s₁) (hg : s.Global outer count) (ho : (name, id) ∈ outer)
    (hi : s.scopes.tables.size ≤ i) (g : s₁.Grows s₂)
    (hb : s₂.scopes.IsBlock (Scopes.namesOf [params ++ locals, outer]) (some ret) body) :
    Reads leaveScope (fun _ s' => s'.Global outer count ∧ Scopes.Keeps id [0] s.scopes s'.scopes ∧
      Outline.Function.Valid ⟨name, id, params, ret, locals, body⟩ s'.scopes outer) s₂ := by
  have hin := h.inner.grows g
  have e := g.scopes.toExtends
  have hfun : s₂.function = none := by rw [g.function, h.follows.function, hg.function]
  have hglob : s₂.scopes.nextGlobal = 8 * count := by
    rw [g.scopes.nextGlobal, h.nextGlobal, hg.nextGlobal]
  refine wp_mono (hin.leave hfun hglob (cons_scopesFor_subset ho (.inr rfl))) ?_
  rintro _ s' ⟨hg', hsc⟩
  refine ⟨hg', ?_, ?_⟩
  · rw [hsc]
    refine .trans ?_ (Scopes.keeps_leave _ _ _)
    have hk := h.keeps.trans (g.scopes.keeps (Nat.le_of_lt h.lt_size) _)
    have hk' : Scopes.Keeps id [i, 0] s.scopes s₂.scopes := hk.weaken (Nat.le_refl _) (by simp)
    exact hk'.dropNew hi
  · have hl : s₂.scopes.Extends s'.scopes := hsc ▸ Scopes.extends_leave _
    refine ⟨⟨_, hl.symbols _ _ (e.symbols _ _ h.symbol), rfl, rfl, rfl, rfl⟩, ?_,
      h.holdsParams.mono (e.trans hl), h.holdsLocals.mono (e.trans hl), hb.mono hl⟩
    rw [hsc]
    exact hin.hasTable

end Header

theorem reads_parameters {i : Nat} {rest : List Nat} {scope : String}
    (hv : s.scopes.Valid) (h : s.scopes.Top i rest scope l) :
    Reads parameters (fun items s' => ∃ entries, items = entries.map Entry.node ∧
      Adds i rest scope l (some .declarations) true s entries s') s := by
  simp only [parameters, wp_bind, reads_is, wp_ite, wp_pure]
  exact ⟨fun _ => ⟨[], rfl, .refl hv h⟩, fun _ => reads_declarationList hv h⟩

theorem reads_declareFunction {name : Token} (h : s.Global l count)
    (hn : '@' ∉ name.text.toList) :
    Reads (declare name (.new .function name.text name.position []) none) (fun id s' =>
      id = s.scopes.symbols.size ∧ s'.Global (l ++ [(name.text, id)]) count ∧
      Scopes.Keeps s.scopes.symbols.size [0] s.scopes s'.scopes ∧
      s'.scopes.tables.size = s.scopes.tables.size ∧
      s'.scopes.symbol? id = some (functionSymbol name.text name.position []) ∧
      s'.scopes.index[functionScope name.text]? = none) s := by
  have hst := h.top.stack
  generalize hsym : Symbol.new .function name.text name.position [] = sym
  have hfun : sym.IsFunction := hsym ▸ ⟨rfl, .inr rfl⟩
  have hstore : sym.storage = none := by rw [← hsym]; rfl
  have hname : sym.name = name.text := by rw [← hsym]; rfl
  refine wp_mono (reads_declare h.top name sym none) ?_
  rintro id s₁ ⟨hf, hid, hsc, hfol⟩
  refine ⟨hid, ?_, ?_, ?_, ?_, ?_⟩
  · have hg := h.declare 0 (hname ▸ hf) (.inl hfun) hstore hfol hsc ?_
    · simpa [hid, hname] using hg
    · rw [hsc, Scopes.declare_nextGlobal hst (by simp), h.nextGlobal]
      rfl
  · exact hsc ▸ Scopes.keeps_declare hst (Nat.le_refl _) sym none
  · rw [hsc, Scopes.declare_eq hst]
    simp
  · obtain ⟨t, ht, hs, -⟩ := h.top.table
    have hcur : s.scopes.current? = some globalScope := by
      simp [Scopes.current?, Scopes.currentTable?, hst, ht, hs]
    rw [hsc, Scopes.symbol?_declare hst, if_pos hid, ← hsym]
    simp [Scopes.place, hcur, functionSymbol]
  · rw [hsc, Scopes.declare_index hst]
    exact h.known.isNew (unmarked_append "__function__" name.text (by decide) hn)
      (functionScope_not_mem hf)

theorem reads_function (h : s.Global l count) :
    Reads function (fun n s' => ∃ f : Outline.Function, n = f.node ∧
      s'.Global (l ++ [f.entry]) count ∧
      Scopes.Keeps s.scopes.symbols.size [0] s.scopes s'.scopes ∧
      f.Valid s'.scopes (l ++ [f.entry])) s := by
  simp only [function, wp_bind, wp_pure]
  refine wp_mono (reads_skip _) fun _ s₁ m₁ => ?_
  have h₁ := h.moves m₁
  refine wp_mono (reads_expect h₁.lexed .ident) ?_
  rintro name s₂ ⟨hkind, hlex, m₂⟩
  have h₂ := h₁.moves m₂
  have hname := hlex.at_not_mem hkind
  refine wp_mono (reads_declareFunction h₂ hname) ?_
  rintro id s₃ ⟨hid, h₃, hk₃, hsize, hsym₃, hnew⟩
  have hu := unmarked_append "__function__" name.text (by decide) hname
  refine wp_mono (reads_openScope h₃ hu hnew) ?_
  rintro _ s₄ ⟨hin₄, hfol₄, hsc₄⟩
  refine wp_mono (reads_skip _) fun _ s₅ m₅ => ?_
  have hh₅ := (ReadsHeader.start hsym₃ hnew hin₄ hfol₄ hsc₄).moves m₅
  have hn₅ : s₅.scopes.nextParameter = -8 := by
    rw [m₅.scopes, hsc₄, (Scopes.create_counters _ _).2]
    rfl
  refine wp_mono (reads_parameters hh₅.inner.valid hh₅.inner.top) ?_
  rintro _ s₆ ⟨params, rfl, ha₆⟩
  have hh₆ := hh₅.addParameters hn₅ ha₆
  refine wp_mono (reads_skip _) fun _ s₇ m₇ => ?_
  refine wp_mono (reads_noteParameters (hh₆.moves m₇) _) fun _ s₈ hh₈ => ?_
  refine wp_mono (reads_separator .colon s₈) fun _ s₉ m₉ => ?_
  refine wp_mono (reads_returnType s₉) ?_
  rintro ret s₁₀ ⟨hret, m₁₀⟩
  have hh₁₀ := (hh₈.moves m₉).moves m₁₀
  -- the parameters are noted by the symbols of their nodes
  have hids : (params.map Entry.node).filterMap Node.symbol = params.map Prod.snd := by
    simp [List.filterMap_map, Function.comp_def, Entry.node, Node.symbol]
  rw [hids] at hh₁₀
  refine wp_mono (reads_addAttribute hh₁₀ (isFunction_header name.text name.position _ hret))
    fun _ s₁₁ hh₁₁ => ?_
  have hin₁₁ := hh₁₁.inner
  rw [List.append_nil] at hin₁₁
  refine wp_mono (reads_declarations hin₁₁.valid hin₁₁.top) ?_
  rintro _ s₁₂ ⟨locals, rfl, ha₁₂⟩
  have hh₁₂ := hh₁₁.addLocals ha₁₂
  refine wp_mono (reads_skip _) fun _ s₁₃ m₁₃ => ?_
  have hh₁₃ := hh₁₂.moves m₁₃
  refine wp_mono (reads_functionBody hh₁₃ (returnType?_header name.text name.position _ ret)) ?_
  rintro body s₁₄ ⟨g₁₄, hbody⟩
  refine wp_mono (reads_skip _) fun _ s₁₅ m₁₅ => ?_
  refine wp_mono (hh₁₃.leave h₃ (by simp) (Nat.le_refl _) (g₁₄.trans m₁₅.grows)
    (hbody.mono m₁₅.grows.scopes.toExtends)) ?_
  rintro _ s' ⟨hg, hk, hv⟩
  refine ⟨⟨name.text, id, params, ret, locals, body⟩, rfl, hg, ?_, hv⟩
  have hscopes : s₂.scopes = s.scopes := m₂.scopes.trans m₁.scopes
  rw [hscopes] at hk₃ hid
  exact hk₃.trans (hid ▸ hk)

/-- What was read of the functions, which follow the entries `l`. -/
structure ReadsFunctions (l : List Entry) (count : Nat) (s : State) (fs : List Outline.Function)
    (s' : State) : Prop where
  global : s'.Global (l ++ fs.map Outline.Function.entry) count
  keeps : Scopes.Keeps s.scopes.symbols.size [0] s.scopes s'.scopes
  valid : ∀ (k : Nat) (f : Outline.Function), fs[k]? = some f →
    f.Valid s'.scopes (l ++ (fs.take (k + 1)).map Outline.Function.entry)

theorem reads_functions (h : s.Global l count) :
    Reads functions (fun n s' => ∃ fs, n = Node.list .functions (fs.map Outline.Function.node) ∧
      ReadsFunctions l count s fs s') s := by
  simp only [functions, wp_bind, wp_pure]
  refine wp_mono (reads_whileList (I := fun items s' => ∃ fs,
    items = fs.map Outline.Function.node ∧ ReadsFunctions l count s fs s') ?_ ?_
    ⟨[], rfl, by simpa using h, .refl _ _ _, by simp⟩) ?_
  · rintro _ s₁ h
    exact h
  · rintro _ s₁ ⟨fs, rfl, h₁⟩
    refine wp_mono (reads_function h₁.global) ?_
    rintro _ s₂ ⟨f, rfl, hg, hk, hv⟩
    refine ⟨fs ++ [f], by simp, by simpa using hg,
      h₁.keeps.trans (hk.weaken h₁.keeps.size fun _ h => h), fun k f' hf => ?_⟩
    rw [List.getElem?_append] at hf
    split at hf
    · next hlt =>
      rw [List.take_append_of_le_length (Nat.succ_le_of_lt hlt)]
      exact (h₁.valid k f' hf).keeps hk
    · next hlt =>
      obtain ⟨hle, hf⟩ := List.getElem?_eq_some_iff.1 hf
      obtain rfl : k = fs.length := by rw [List.length_singleton] at hle; omega
      rw [List.getElem_singleton] at hf
      subst hf
      rw [List.take_of_length_le (by simp)]
      simpa using hv
  · rintro _ s₁ ⟨fs, rfl, h⟩
    exact ⟨fs, rfl, h⟩

theorem reads_mainBody (h : s.Global l count) :
    Reads mainBody (fun n s' => ∃ vars body,
      n = .mk .main (some mainScope) none (Node.list .declList (vars.map Entry.node)) none body ∧
      s'.Lexed ∧ s'.scopes.Valid ∧ Scopes.Keeps s.scopes.symbols.size [0] s.scopes s'.scopes ∧
      (∃ t, s'.scopes.index[globalScope]? = some 0 ∧ s'.scopes.tables[0]? = some t ∧ t.Lists l) ∧
      s'.scopes.HasTable mainScope vars ∧
      s'.scopes.Holds vars Outline.variableAttributes (fun k => some (.ofGlobal (count + k))) ∧
      s'.scopes.IsBlock (Scopes.namesOf [vars, l]) none body) s := by
  simp only [mainBody, wp_bind, wp_pure]
  refine wp_mono (reads_skip _) fun _ s₁ m₁ => ?_
  have h₁ := h.moves m₁
  have hu : ¬ Scopes.IsMarked mainScope := by simp [Scopes.IsMarked, mainScope]
  have hnew := h₁.known.isNew hu (mainScope_not_mem l)
  refine wp_mono (reads_openScope h₁ hu hnew) ?_
  rintro _ s₂ ⟨hin, hfol, hsc⟩
  refine wp_mono (reads_declarations hin.valid hin.top) ?_
  rintro _ s₃ ⟨vars, rfl, ha⟩
  have hin₃ := hin.adds ha
  refine wp_mono (reads_skip _) fun _ s₄ m₄ => ?_
  have hin₄ := hin₃.grows m₄.grows
  have hret : s₄.Returns none := by
    rw [State.Returns, m₄.function, ha.follows.function, hfol.function, h₁.function]
  refine wp_mono (reads_block s₄ ⟨hin₄.lexed, hin₄.valid, hin₄.resolve, hret⟩) ?_
  rintro body s₅ ⟨g₅, hbody⟩
  refine wp_mono (reads_skip _) fun _ s₆ m₆ => ?_
  have g₆ := (m₄.grows.trans g₅).trans m₆.grows
  have hin₆ := hin₃.grows g₆
  rw [List.nil_append] at hin₆
  have hglob : s₂.scopes.nextGlobal = 8 * count := by
    rw [hsc, Scopes.create_nextGlobal, h₁.nextGlobal]
  refine ⟨vars, body, rfl, hin₆.lexed, hin₆.valid.leave, ?_, ?_, hin₆.hasTable, ?_, ?_⟩
  · -- all that changed is the scope of main
    rw [← m₁.scopes]
    refine Scopes.Keeps.dropNew (i := s₁.scopes.tables.size) ?_ (Nat.le_refl _)
    refine .trans ?_ (Scopes.keeps_leave _ _ _)
    have hsize : s₁.scopes.symbols.size ≤ s₂.scopes.symbols.size :=
      Nat.le_of_eq (by rw [hsc, Scopes.create_symbols])
    have hk₂ : Scopes.Keeps s₁.scopes.symbols.size [s₁.scopes.tables.size, 0] s₁.scopes s₂.scopes :=
      hsc ▸ Scopes.keeps_create hnew _ _
    exact (hk₂.trans (ha.keeps.weaken hsize (by simp))).trans
      (g₆.scopes.keeps (Nat.le_trans hsize ha.keeps.size) _)
  · obtain ⟨t, ht, -, hl⟩ := hin₆.around
    exact ⟨t, hin₆.index.1, ht, hl⟩
  · have hh := (slotAfter_global hglob ▸ ha.holds).mono g₆.scopes.toExtends
    exact hh.mono (Scopes.extends_leave _)
  · exact (hbody.mono m₆.grows.scopes.toExtends).mono (Scopes.extends_leave _)

/-! ## Programs -/

theorem global_create (hl : s.Lexed) (hf : s.function = none)
    (hs : s.scopes = Scopes.empty.create globalScope) : s.Global [] 0 := by
  have hnew : Scopes.empty.index[globalScope]? = none := by simp [Scopes.empty]
  have hi := Scopes.index_createNew hnew
  refine ⟨hl, hf, ?_, ?_, ?_, fun name i h => ?_, ?_⟩
  · rw [hs]
    exact Scopes.valid_empty.create (.inr hnew)
  · rw [hs]
    exact Scopes.top_create hnew (by simp [Scopes.IsMarked, globalScope])
  · rw [hs, hi, if_pos rfl]
    rfl
  · rw [hs, hi] at h
    split at h
    · next he => exact .inr (by simp [scopesFor, he])
    · simp [Scopes.empty] at h
  · rw [hs, Scopes.create_nextGlobal]
    rfl

theorem reads_program {stream : TokenStream} (h : ∀ t ∈ stream.tokens, t.Lexed) :
    Reads program (fun n s' => ∃ o : Outline, n = o.root ∧ o.Valid s'.scopes)
      ⟨stream, .empty, #[], #[], none, 0⟩ := by
  simp only [program, wp_bind, createScope, wp_modify]
  have hg := global_create (s := ⟨stream, Scopes.empty.create globalScope, #[],
    #[].push (.scopeCreated globalScope), none, 0⟩) h rfl rfl
  refine wp_mono (reads_skip _) fun _ s₁ m₁ => ?_
  refine wp_mono (reads_skip _) fun name s₂ m₂ => ?_
  have hg₂ := (hg.moves m₁).moves m₂
  refine wp_mono (reads_globals hg₂) ?_
  rintro _ s₃ ⟨cs, types, arrays, definitions, rfl, h₃⟩
  refine wp_mono (reads_functions h₃.global) ?_
  rintro _ s₄ ⟨fs, rfl, h₄⟩
  refine wp_mono (reads_mainBody h₄.global) ?_
  rintro _ s₅ ⟨vars, body, rfl, hlex, hvalid, hkeeps, hglobal, hmain, hvars, hbody⟩
  refine wp_mono (reads_skip _) fun _ s₆ m₆ => ?_
  refine wp_mono (reads_skip _) fun endName s₇ m₇ => ?_
  have m₇ := m₆.trans m₇
  simp only [wp_ite, wp_bind, reads_fail, implies_true, and_true]
  intro _
  have valid : Outline.Valid ⟨name.text, cs, types ++ arrays, Node.list .typeList definitions,
      Node.list .arrayDecls (arrays.map Entry.arrayNode), fs, vars, body⟩ s₅.scopes.leave := by
    have k₅ := hkeeps.trans (Scopes.keeps_leave _ _ s₅.scopes)
    have k₃ := h₄.keeps.trans (k₅.weaken h₄.keeps.size fun _ h => h)
    have e₃ := k₃.toExtends
    have e := Scopes.extends_leave s₅.scopes
    refine ⟨hvalid.leave, ?_, h₃.constants.mono e₃, h₃.types.mono e₃,
      ⟨types, arrays, definitions, rfl, rfl, h₃.definitions.keeps k₃, rfl⟩,
      fun k f hf => ?_, hmain, hvars.mono e, ?_⟩
    · simpa [Outline.globals, Scopes.leave] using hglobal
    · simpa [Outline.globals] using (h₄.valid k f hf).keeps k₅
    · simpa [Outline.globals] using hbody.mono e
  rw [← m₇.scopes] at valid
  -- nothing that is read after main changes the scopes but the leaving of the global one
  refine ⟨fun _ => ⟨_, rfl, valid⟩, fun _ => ?_⟩
  refine (reads_peek _ s₇).2 ?_
  refine wp_mono (reads_warn _ _ s₇) fun _ s₈ m₈ => ?_
  rw [← m₈.scopes] at valid
  exact ⟨_, rfl, valid⟩

/-- The tree of an accepted source has an outline that is valid in the scopes left behind. -/
theorem parseSource_outline {source : String} {root : Node}
    (h : (parseSource source .empty).root = some root) :
    ∃ o : Outline, root = o.root ∧ o.Valid (parseSource source .empty).scopes := by
  have hlex : ∀ t ∈ (TokenStream.ofSource (tokensOf source)).tokens, t.Lexed := fun t ht =>
    lexed_tokensOf source t (by simpa [TokenStream.ofSource] using ht)
  have hp := reads_program hlex
  unfold parseSource parse at h ⊢
  split at h
  · next n s' hr =>
    cases h
    exact wp_of_ok hp hr
  · cases h

end StackCompiler.Parser
