import StackCompiler.Proofs.Emission.Statements
import StackCompiler.Proofs.Outline

/-!
# The code of programs

The emitter of a program with a valid outline appends the assembly of the program. The frames it
reserves are counted in the tables of scopes; they are as large as the outline says.
-/

namespace StackCompiler

namespace Scopes

/-- As `Alike`, and only functions have been given places. -/
structure Entered (S S' : Scopes) : Prop extends S.Alike S' where
  others : ∀ id sym, S.symbol? id = some sym → sym.kind ≠ .function → S'.symbol? id = some sym

section Storage

variable {S S' : Scopes} {id other : Symbol.Id} {st : Storage}

theorem symbol?_setStorage (S : Scopes) (id : Symbol.Id) (st : Storage) (other : Symbol.Id) :
    (S.setStorage id st).symbol? other =
      if id = other then (S.symbol? other).map (Symbol.setStorage · st) else S.symbol? other := by
  simp only [symbol?, setStorage, modify, Array.getElem?_modify]

theorem Alike.setStorage (h : S.Alike S') (id : Symbol.Id) (st : Storage) :
    S.Alike (S'.setStorage id st) := by
  refine ⟨h.index, h.tables, h.constants, fun other => ?_⟩
  rw [symbol?_setStorage, ← h.symbols]
  split
  · cases S'.symbol? other <;> rfl
  · rfl

theorem Entered.refl (S : Scopes) : S.Entered S := ⟨.refl S, fun _ _ h _ => h⟩

theorem Entered.setStorage {sym : Symbol} (h : S.Entered S') (hs : S.symbol? id = some sym)
    (hk : sym.kind = .function) (st : Storage) : S.Entered (S'.setStorage id st) := by
  refine ⟨h.toAlike.setStorage id st, fun other sym' hs' hk' => ?_⟩
  have hne : id ≠ other := by
    rintro rfl
    rw [hs, Option.some.injEq] at hs'
    exact hk' (hs' ▸ hk)
  rw [symbol?_setStorage, if_neg hne]
  exact h.others other sym' hs' hk'

theorem Entered.holds {entries : List Entry} {attributes : DataType → List Symbol.Attribute}
    {place : Nat → Option Storage} (h : S.Entered S') (hh : S.Holds entries attributes place) :
    S'.Holds entries attributes place := by
  intro k e he
  obtain ⟨sym, t, hs, hn, hv, hsym⟩ := hh k e he
  exact ⟨sym, t, h.others _ sym hs hv.not_function, hn, hv, hsym⟩

theorem Entered.hasTable {scope : String} {entries : List Entry} (h : S.Entered S')
    (ht : S.HasTable scope entries) : S'.HasTable scope entries := by
  obtain ⟨i, t, hi, hx, ht, hl⟩ := ht
  exact ⟨i, t, hi, h.index ▸ hx, h.tables ▸ ht, hl⟩

end Storage

end Scopes

namespace Emitter

variable {S : Scopes} {region : Region} {scope : String} {entries : List Entry} {c c' : Code}
  {is : List Line} {s : State} {f : Outline.Function} {visible : List Entry} {o : Outline}
  {Q : Unit → State → Prop} {literals : Code.Literals}

theorem slots_of_all (region : Region) (entries : List Entry) (b : Bool) (h : ∀ e ∈ entries, ∃ sym,
    S.symbol? e.2 = some sym ∧ takesSlot region sym = b) :
    ((entries.map Prod.snd).filterMap S.symbol?).countP (takesSlot region) =
      if b then entries.length else 0 := by
  induction entries with
  | nil => cases b <;> rfl
  | cons e entries ih =>
    obtain ⟨sym, hs, hb⟩ := h e (by simp)
    have ih := ih fun e he => h e (by simp [he])
    rw [List.map_cons, List.filterMap_cons_some hs, List.countP_cons, ih, hb]
    cases b <;> simp

theorem slots_of_holds (region : Region) (b : Bool)
    {attributes : DataType → List Symbol.Attribute} {place : Nat → Option Storage}
    (h : S.Holds entries attributes place) (hb : ∀ t k, (!(attributes t).contains .isParameter &&
      decide ((place k).map Storage.region = some region)) = b) :
    ((entries.map Prod.snd).filterMap S.symbol?).countP (takesSlot region) =
      if b then entries.length else 0 := by
  refine slots_of_all region entries b fun e he => ?_
  obtain ⟨k, hk⟩ := List.mem_iff_getElem?.1 he
  obtain ⟨sym, t, hs, -, -, ha, hp⟩ := h k e hk
  exact ⟨sym, hs, by rw [← hb t k, takesSlot, Symbol.isParameter, ha, hp]⟩

theorem frameSize_of_table {i : Nat} {t : SymbolTable} (hx : S.index[scope]? = some i)
    (ht : S.tables[i]? = some t) (hl : t.Lists entries) :
    frameSize S scope region =
      ((entries.map Prod.snd).filterMap S.symbol?).countP (takesSlot region) := by
  rw [frameSize, Scopes.table?, hx, Option.bind_some, ht]
  simp only [hl.symbols]

theorem State.At.frameSize (h : s.At S literals is) (scope : String) (region : Region) :
    frameSize s.scopes scope region = Emitter.frameSize S scope region := by
  have hs : s.scopes.symbol? = S.symbol? := funext h.symbol?
  rw [Emitter.frameSize, Emitter.frameSize, Scopes.table?, Scopes.table?, h.index, h.tables, hs]

theorem frameSize_function {S₀ : Scopes} (hf : f.Valid S₀ visible) (hS : S₀.Entered S) :
    frameSize S (Parser.functionScope f.name) .declarations = f.locals.length := by
  obtain ⟨i, t, -, hx, ht, hl⟩ := hS.hasTable hf.scope
  have hparams := slots_of_holds .declarations false (hS.holds hf.params) fun t k => rfl
  have hlocals := slots_of_holds .declarations true (hS.holds hf.locals) fun t k => rfl
  rw [frameSize_of_table hx ht hl, Outline.Function.entries, List.map_append,
    List.filterMap_append, List.countP_append, hparams, hlocals]
  simp

theorem frameSize_program (h : o.Valid S) :
    frameSize S Parser.globalScope .globals + frameSize S Parser.mainScope .globals =
      o.constants.length + o.vars.length := by
  obtain ⟨t, hx, ht, hl⟩ := h.global
  obtain ⟨i, t', -, hx', ht', hl'⟩ := h.main
  have hconstants := slots_of_holds .globals true h.constants.holds fun t k => rfl
  have hvariables := slots_of_holds .globals true h.vars fun t k => rfl
  have htypes := slots_of_all (S := S) .globals o.types false fun e he => by
      obtain ⟨sym, hs, -, -, hp⟩ := h.types e he
      exact ⟨sym, hs, by simp [takesSlot, hp]⟩
  have hfunctions := slots_of_all (S := S) .globals (o.functions.map Outline.Function.entry) false
    fun e he => by
      obtain ⟨f, hf, rfl⟩ := List.mem_map.1 he
      obtain ⟨k, hk⟩ := List.mem_iff_getElem?.1 hf
      obtain ⟨sym, hs, -, -, hp, -⟩ := (h.functions k f hk).symbol
      exact ⟨sym, hs, by simp [takesSlot, hp]⟩
  rw [frameSize_of_table hx ht hl, frameSize_of_table hx' ht' hl', Outline.globals,
    List.take_length, List.map_append, List.map_append, List.filterMap_append,
    List.filterMap_append, List.countP_append, List.countP_append, hconstants, htypes, hfunctions,
    hvariables]
  simp

def withLiterals (S : Scopes) (c : Code) : Code :=
  S.constants.symbols.foldl (fun c id =>
    match S.symbol? id with
    | some sym => addLiteral id sym c
    | none => c) c

theorem addLiteral_is {is : List Instruction} (h : c.Is is) (id : Symbol.Id) (sym : Symbol) :
    (addLiteral id sym c).Is is := by
  unfold addLiteral
  simp only
  split <;> exact ⟨h.instructions, h.size⟩

theorem withLiterals_is {is : List Instruction} (h : c.Is is) (S : Scopes) :
    (withLiterals S c).Is is := by
  unfold withLiterals
  induction S.constants.symbols generalizing c with
  | nil => exact h
  | cons id ids ih =>
    rw [List.foldl_cons]
    refine ih ?_
    split
    · exact addLiteral_is h id _
    · exact h

theorem addLiteral_literals (h : c.literals = c'.literals) (id : Symbol.Id) (sym : Symbol) :
    (addLiteral id sym c).literals = (addLiteral id sym c').literals := by
  simp only [Code.literals, Prod.mk.injEq] at h
  obtain ⟨hi, hr, hs⟩ := h
  unfold addLiteral
  simp only
  split <;> simp [Code.literals, Code.addInteger, Code.addReal, Code.addString, hi, hr, hs]

theorem withLiterals_literals (h : c.literals = c'.literals) (S : Scopes) :
    (withLiterals S c).literals = (withLiterals S c').literals := by
  unfold withLiterals
  induction S.constants.symbols generalizing c c' with
  | nil => exact h
  | cons id ids ih =>
    rw [List.foldl_cons, List.foldl_cons]
    refine ih ?_
    split
    · exact addLiteral_literals h id _
    · exact h

theorem State.At.addLiterals {E : Defect → State → Prop} (h : s.At S Code.empty.literals is)
    (hQ : ∀ s', s'.At S (withLiterals S .empty).literals is → Q () s') : wp E addLiterals Q s := by
  have hs : s.scopes.symbol? = S.symbol? := funext h.symbol?
  have he : withLiterals s.scopes s.code = withLiterals S s.code := by
    rw [withLiterals, withLiterals, h.constants, hs]
  refine hQ _ ⟨withLiterals_is h.code _, h.fit, ?_, h.symbols, h.tables, h.index, h.constants⟩
  show (withLiterals s.scopes s.code).literals = _
  rw [he, withLiterals_literals h.literals]

theorem State.At.logged (h : s.At S literals is) (log : Log) :
    ({ s with log := log } : State).At S literals is :=
  ⟨h.code, h.fit, h.literals, h.symbols, h.tables, h.index, h.constants⟩

/-! ## Main and functions -/

variable {S₀ : Scopes} {literals : Code.Literals} {is : List Line} {s : State} {fits : Prop}
  {size : Nat}

theorem emits_constant {names : Names} {c : Outline.Constant} (hS : S₀.Alike S)
    (h : S₀.IsExpression names c.value) :
    Emits S literals c.value.CallsFit (constantCode c.node)
      fun _ => Assembly.constant S₀.valueType c.node :=
  (emits_address c.id).append ((emits_expression hS h).append (emits_op .st))

theorem emits_globals (hS : S₀.Alike S) (h : o.Valid S₀) :
    Emits S literals o.globalsNode.CallsFit (globalsCode o.globalsNode)
      fun _ => o.root.constantNodes.flatMap (Assembly.constant S₀.valueType) := by
  have hc : globalsCode o.globalsNode = forIn o.root.constantNodes PUnit.unit
      fun n _ => constantCode n >>= fun _ => pure (.yield PUnit.unit) := by
    simp only [globalsCode, Outline.globalsNode, Node.left, Node.constantNodes, Outline.root,
      Option.bind_some]
    cases Node.list .initList (o.constants.map Outline.Constant.node) <;> simp [Node.listed]
  rw [hc, o.constantNodes_root]
  refine emits_forIn fun n hn => ?_
  obtain ⟨c, hc, rfl⟩ := List.mem_map.1 hn
  obtain ⟨k, hk⟩ := List.mem_iff_getElem?.1 hc
  refine (emits_constant hS (h.constants.values k c hk).1).weaken fun hf => ?_
  exact (Node.all_of_list hf.left c.node hn).left c.value rfl

theorem mainCode_eq (n : Node) : mainCode n = (do
    enterScope Parser.mainScope
    blockOfCode .main n.right
    leaveScope) := by
  rw [mainCode, blockOfCode]
  cases n.right <;> rfl

theorem emits_main (hS : S₀.Alike S) (h : o.Valid S₀) :
    Emits S literals o.mainNode.CallsFit (mainCode o.mainNode)
      (Assembly.blockOf S₀.valueType .main o.body) := by
  intro is s ha
  obtain ⟨i, t, -, hx, -⟩ := h.main
  simp only [mainCode_eq, wp_bind]
  refine ha.enterScope (hS.made ⟨i, hx⟩) fun s ha => ?_
  refine (emits_block hS h.body).step ha (fun hf => hf.right) (Nat.le_refl _) fun s ha => ?_
  exact ha.leaveScope fun s ha => ha

/-- What the code of a function does, given the number of slots it reserves. -/
def functionBody (slots : Nat) (body : Option Node) : Emitter Unit := do
  emitAlloc slots
  blockOfCode .function body
  if endsWithReturn body then pure () else emitOp .retn

theorem functionCode_node (f : Outline.Function) : functionCode f.node = (do
    let start ← jumpTarget (← position)
    modify fun s =>
      { s with
        scopes := s.scopes.setStorage f.id ⟨.constants, start⟩
        log := s.log.push (.functionStarts (Parser.functionScope f.name) start) }
    enterScope (Parser.functionScope f.name)
    functionBody (frameSize (← get).scopes (Parser.functionScope f.name) .declarations) f.body
    leaveScope) := by
  obtain ⟨name, id, params, ret, locals, body⟩ := f
  simp only [functionCode, functionBody, Outline.Function.node, Node.symbol, Node.right, symbolOf,
    pure_bind, bind_assoc, blockOfCode, Node.valueText, Node.value, Option.getD_some]
  by_cases h : endsWithReturn body = true <;> cases body <;> simp [h]

theorem emits_functionBody (hS : S₀.Alike S) (hf : f.Valid S₀ visible) :
    Emits S literals (f.locals.length ≤ maxHalf ∧ Node.CallsFitIn f.body)
      (functionBody f.locals.length f.body) (Assembly.function S₀.valueType f.node) := by
  have hret : Emits S literals (f.locals.length ≤ maxHalf ∧ Node.CallsFitIn f.body)
      (if endsWithReturn f.body then pure () else emitOp .retn)
      fun _ => if endsWithReturn f.body then [] else [Line.op .retn] := by
    split
    · exact emits_pure
    · exact emits_op .retn
  refine (((emits_alloc _).weaken And.left).bind
    (((emits_block hS hf.body).weaken And.right).bind hret)).congr fun p => ?_
  rw [Assembly.function, f.localNodes_node, List.length_map, List.append_assoc]
  rfl

theorem State.At.setStorage (h : s.At S literals is) (id : Symbol.Id) (st : Storage) (log : Log) :
    ({ s with scopes := s.scopes.setStorage id st, log := log } : State).At (S.setStorage id st)
      literals is :=
  ⟨h.code, h.fit, h.literals, by simp [Scopes.setStorage, Scopes.modify, h.symbols], h.tables, h.index,
    h.constants⟩

theorem wp_functionCode (hf : f.Valid S₀ visible) (hS : S₀.Entered S) (ha : s.At S literals is)
    (hfits : fits → f.locals.length ≤ maxHalf ∧ Node.CallsFitIn f.body)
    (hsize : span is + span (Assembly.function S₀.valueType f.node (span is)) ≤ size)
    (hQ : span is ≤ maxOffset → ∀ s', s'.At (S.setStorage f.id ⟨.constants, span is⟩) literals
      (is ++ Assembly.function S₀.valueType f.node (span is)) → Q () s') :
    wp (fun d _ => d.IsLimit fits size) (functionCode f.node) Q s := by
  obtain ⟨sym, hs, hk, -⟩ := hf.symbol
  obtain ⟨i, t, -, hx, -⟩ := hf.scope
  have hS' := hS.setStorage hs hk ⟨.constants, span is⟩
  rw [functionCode_node, wp_bind]
  refine ha.position ?_
  rw [wp_bind, jumpTarget]
  split
  · next hp =>
    simp only [wp_pure, wp_bind, wp_modify]
    refine (ha.setStorage f.id ⟨.constants, span is⟩ _).enterScope
      (hS'.toAlike.made ⟨i, hx⟩) fun s ha => ?_
    rw [wp_get, ha.frameSize, frameSize_function hf hS']
    refine (emits_functionBody hS'.toAlike hf).step ha hfits hsize fun s ha => ?_
    exact ha.leaveScope (hQ hp)
  · next hp => exact .inr ⟨_, rfl, Nat.lt_of_not_le hp, by omega⟩

theorem wp_functions {fs : List Outline.Function} (hf : ∀ f ∈ fs, ∃ visible, f.Valid S₀ visible)
    (hS : S₀.Entered S) (ha : s.At S literals is)
    (hfits : fits → ∀ f ∈ fs, f.locals.length ≤ maxHalf ∧ Node.CallsFitIn f.body)
    (hsize : span is + span (Assembly.functions S₀.valueType (span is)
      (fs.map Outline.Function.node)).flatten ≤ size)
    (hQ : (∀ k < fs.length, span is + span ((Assembly.functions S₀.valueType (span is)
        (fs.map Outline.Function.node)).take k).flatten ≤ maxOffset) →
      ∀ s', s'.At (Assembly.enter S₀.valueType S (span is) (fs.map Outline.Function.node)) literals
        (is ++ (Assembly.functions S₀.valueType (span is)
          (fs.map Outline.Function.node)).flatten) → Q () s') :
    wp (fun d _ => d.IsLimit fits size)
      (forIn (fs.map Outline.Function.node) PUnit.unit
        fun n _ => functionCode n >>= fun _ => pure (.yield PUnit.unit)) Q s := by
  induction fs generalizing S is s with
  | nil => exact hQ (by simp) s (by simpa [Assembly.functions, Assembly.enter] using ha)
  | cons f fs ih =>
    obtain ⟨visible, hv⟩ := hf f (by simp)
    obtain ⟨sym, hs, hk, -⟩ := hv.symbol
    simp only [List.map_cons, Assembly.functions, Assembly.enter, List.flatten_cons,
      span_append] at hsize hQ
    simp only [List.map_cons, List.forIn_cons, bind_assoc, pure_bind, wp_bind]
    refine wp_functionCode hv hS ha (fun h => hfits h f (by simp)) (by omega) fun hp s' ha' => ?_
    refine ih (fun g hg => hf g (by simp [hg])) (hS.setStorage hs hk _) ha'
      (fun h g hg => hfits h g (by simp [hg])) ?_ fun hstarts s'' ha'' => hQ (fun k hk => ?_) s'' ?_
    · simp only [span_append]
      omega
    · cases k with
      | zero => simpa using hp
      | succ k =>
        have := hstarts k (by simpa using hk)
        simp only [span_append] at this
        simp only [List.take_succ_cons, List.flatten_cons, span_append]
        omega
    · simp only [span_append, List.append_assoc] at ha''
      exact ha''

end Emitter

/-- The counts of a program fit the operands that hold them. -/
structure Assembly.Fits (root : Node) : Prop where
  globals : root.constantNodes.length + root.variableNodes.length ≤ Emitter.maxHalf
  locals : ∀ f ∈ root.functionNodes, f.localNodes.length ≤ Emitter.maxHalf
  calls : root.CallsFit

instance (root : Node) : Decidable (Assembly.Fits root) :=
  decidable_of_iff (_ ∧ _ ∧ _)
    ⟨fun h => ⟨h.1, h.2.1, h.2.2⟩, fun h => ⟨h.globals, h.locals, h.calls⟩⟩

namespace Emitter

variable {o : Outline} {S₀ : Scopes} {literals : Code.Literals}

/-- The code of main, given the number of slots it reserves. -/
def mainBody (slots : Nat) (globals main : Node) : Emitter Unit := do
  emitAlloc slots
  globalsCode globals
  mainCode main
  emitOp .halt

theorem programCode_root (o : Outline) : programCode o.root = (do
    enterScope Parser.globalScope
    addLiterals
    let scopes := (← get).scopes
    let slots := frameSize scopes Parser.globalScope .globals +
      frameSize scopes Parser.mainScope .globals
    modify fun s => { s with log := s.log.push (.mainFrame slots) }
    mainBody slots o.globalsNode o.mainNode
    forIn (o.functions.map Outline.Function.node) PUnit.unit
        fun n _ => functionCode n >>= fun _ => pure (.yield PUnit.unit)
    leaveScope) := by
  have hl := o.functionNodes_root
  simp only [Node.functionNodes, Outline.root, Node.centre] at hl
  simp only [programCode, mainBody, Outline.root, Node.kind, Node.left, Node.right, Node.centre,
    childOf, if_true, pure_bind, bind_assoc]
  generalize Node.list .functions (o.functions.map Outline.Function.node) = chain at hl ⊢
  rw [← hl]
  cases chain <;> simp [Node.listed]

theorem emits_mainBody (h : o.Valid S₀) :
    Emits S₀ literals (Assembly.Fits o.root)
      (mainBody (o.constants.length + o.vars.length) o.globalsNode o.mainNode)
      fun p => Assembly.prologue S₀.valueType o.root ++
        Assembly.blockOf S₀.valueType .main o.body
          (p + span (Assembly.prologue S₀.valueType o.root)) ++ [Line.op .halt] := by
  have halloc : Emits S₀ literals (Assembly.Fits o.root)
      (emitAlloc (o.constants.length + o.vars.length))
      fun _ => Assembly.alloc (o.constants.length + o.vars.length) :=
    (emits_alloc _).weaken fun hf => by
      simpa [o.constantNodes_root, o.variableNodes_root] using hf.globals
  refine (halloc.bind (((emits_globals (.refl S₀) h).weaken fun hf => hf.calls.left _ rfl).bind
    (((emits_main (.refl S₀) h).weaken fun hf => hf.calls.right _ rfl).bind
      (emits_op .halt)))).congr fun p => ?_
  simp [Assembly.prologue, o.constantNodes_root, o.variableNodes_root, Nat.add_assoc]

/-- The emitter of a program appends the assembly of the program, and each function has its entry
where its code starts. -/
theorem wp_programCode (h : o.Valid S₀) :
    wp (fun d _ => d.IsLimit (Assembly.Fits o.root)
        (span (Assembly.program S₀.valueType o.root)))
      (programCode o.root)
      (fun _ s => s.At (Assembly.enter S₀.valueType S₀ (span (Assembly.main S₀.valueType o.root))
          o.root.functionNodes) (withLiterals S₀ .empty).literals
          (Assembly.program S₀.valueType o.root) ∧
        ∀ k < o.functions.length,
          span ((Assembly.segments S₀.valueType o.root).take (k + 1)).flatten ≤ maxOffset)
      ⟨S₀, .empty, #[]⟩ := by
  have hf : ∀ f ∈ o.functions, ∃ visible, f.Valid S₀ visible := fun f hf => by
    obtain ⟨k, hk⟩ := List.mem_iff_getElem?.1 hf
    exact ⟨_, h.functions k f hk⟩
  have hfits : Assembly.Fits o.root →
      ∀ f ∈ o.functions, f.locals.length ≤ maxHalf ∧ Node.CallsFitIn f.body := fun hfits f hf => by
    have hn : f.node ∈ o.functions.map Outline.Function.node := List.mem_map.2 ⟨f, hf, rfl⟩
    refine ⟨?_, (Node.all_of_list hfits.calls.centre f.node hn).right⟩
    have := hfits.locals f.node (o.functionNodes_root ▸ hn)
    rwa [f.localNodes_node, List.length_map] at this
  have hmain : Assembly.prologue S₀.valueType o.root ++ Assembly.blockOf S₀.valueType .main o.body
      (span [] + span (Assembly.prologue S₀.valueType o.root)) ++ [Line.op .halt] =
      Assembly.main S₀.valueType o.root := by
    rw [span_nil, Nat.zero_add]
    rfl
  have hprogram : Assembly.program S₀.valueType o.root = Assembly.main S₀.valueType o.root ++
      (Assembly.functions S₀.valueType (span (Assembly.main S₀.valueType o.root))
        (o.functions.map Outline.Function.node)).flatten := by
    rw [Assembly.program, Assembly.segments, List.flatten_cons, o.functionNodes_root]
  obtain ⟨t, hx, -⟩ := h.global
  have ha : State.At S₀ Code.empty.literals [] ⟨S₀, .empty, #[]⟩ :=
    ⟨Code.is_empty, nofun, rfl, rfl, rfl, rfl, rfl⟩
  rw [hprogram, o.functionNodes_root, span_append, programCode_root]
  simp only [wp_bind, wp_get, wp_modify]
  refine ha.enterScope ⟨0, hx⟩ fun s ha => ?_
  refine ha.addLiterals fun s ha => ?_
  rw [ha.frameSize, ha.frameSize, frameSize_program h]
  refine (emits_mainBody h).step (ha.logged _) id ?_ fun s ha => ?_
  · rw [hmain, span_nil]
    omega
  rw [hmain, List.nil_append] at ha
  refine wp_functions hf (.refl S₀) ha hfits (Nat.le_refl _) fun hstarts s ha => ?_
  refine ha.leaveScope fun s ha => ⟨ha, fun k hk => ?_⟩
  rw [Assembly.segments, o.functionNodes_root, List.take_succ_cons, List.flatten_cons, span_append]
  exact hstarts k hk

end Emitter

end StackCompiler
