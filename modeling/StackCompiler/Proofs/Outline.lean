import StackCompiler.Program.Parser
import StackCompiler.Proofs.Declaring

/-!
# The outline of a program

What a program declares, in order, and the bodies of its functions and of main. An outline says
what the tree of the program is; it is valid if the scopes say the same of every name, if every
variable has the place that its turn gives it, and if every body is well-formed.
-/

namespace StackCompiler

abbrev Entry := String × Symbol.Id

namespace Entry

def node (e : Entry) : Node := .mk .decl (some e.1) (some e.2) none none none

def arrayNode (e : Entry) : Node := .mk .arrayDecl (some e.1) (some e.2) none none none

end Entry

/-- A named constant with the expression that gives it its value. -/
structure Outline.Constant where
  name : String
  id : Symbol.Id
  value : Node

structure Outline.Function where
  name : String
  id : Symbol.Id
  params : List Entry
  ret : DataType
  locals : List Entry
  body : Option Node

structure Outline where
  name : String
  constants : List Outline.Constant
  /-- The names of types and arrays, which take up no memory. -/
  types : List Entry
  typesNode : Option Node
  arraysNode : Option Node
  functions : List Outline.Function
  vars : List Entry
  body : Option Node

namespace Outline

def Constant.entry (c : Constant) : Entry := (c.name, c.id)

def Constant.node (c : Constant) : Node :=
  .mk .init (some c.name) (some c.id) (some c.value) none none

namespace Function

def entry (f : Function) : Entry := (f.name, f.id)

def entries (f : Function) : List Entry := f.params ++ f.locals

def node (f : Function) : Node :=
  .mk .functionDef (some f.name) (some f.id) (Node.list .paramList (f.params.map Entry.node))
    (Node.list .declList (f.locals.map Entry.node)) f.body

end Function

variable (o : Outline)

/-- The names of the global scope once the first `k` functions are declared. -/
def globals (k : Nat) : List Entry :=
  o.constants.map Constant.entry ++ o.types ++ (o.functions.take k).map Function.entry

def mainNode : Node :=
  .mk .main (some Parser.mainScope) none (Node.list .declList (o.vars.map Entry.node)) none
    o.body

def globalsNode : Node :=
  .mk .globals none none (Node.list .initList (o.constants.map Constant.node)) o.typesNode
    o.arraysNode

def root : Node :=
  .mk .program (some o.name) none (some o.globalsNode)
    (Node.list .functions (o.functions.map Function.node)) (some o.mainNode)

end Outline

namespace Outline

variable (o : Outline)

theorem constantNodes_root : o.root.constantNodes = o.constants.map Constant.node := by
  refine Node.listed_list fun n hn => ?_
  obtain ⟨c, -, rfl⟩ := List.mem_map.1 hn
  exact nofun

theorem variableNodes_root : o.root.variableNodes = o.vars.map Entry.node := by
  refine Node.listed_list fun n hn => ?_
  obtain ⟨e, -, rfl⟩ := List.mem_map.1 hn
  exact nofun

theorem functionNodes_root : o.root.functionNodes = o.functions.map Function.node := by
  refine Node.listed_list fun n hn => ?_
  obtain ⟨f, -, rfl⟩ := List.mem_map.1 hn
  exact nofun

theorem Function.localNodes_node (f : Function) :
    f.node.localNodes = f.locals.map Entry.node := by
  refine Node.listed_list fun n hn => ?_
  obtain ⟨e, -, rfl⟩ := List.mem_map.1 hn
  exact nofun

end Outline

namespace Storage

def ofGlobal (k : Nat) : Storage := ⟨.globals, 8 * k⟩

def ofParameter (k : Nat) : Storage := ⟨.declarations, -8 - 8 * k⟩

def ofLocal (k : Nat) : Storage := ⟨.declarations, 16 + 8 * k⟩

end Storage

namespace Scopes

variable (s : Scopes)

/-- The entries are variables with the given attributes, each in the place that its turn gives
it. -/
def Holds (entries : List Entry) (attributes : DataType → List Symbol.Attribute)
    (place : Nat → Option Storage) : Prop :=
  ∀ k e, entries[k]? = some e → ∃ sym t, s.symbol? e.2 = some sym ∧ sym.name = e.1 ∧
    sym.IsVariable t ∧ sym.attributes = attributes t ∧ sym.storage = place k

/-- The scope of the given name lists the entries, and is not the global one. -/
def HasTable (scope : String) (entries : List Entry) : Prop :=
  ∃ i t, i ≠ 0 ∧ s.index[scope]? = some i ∧ s.tables[i]? = some t ∧ SymbolTable.Lists t entries

end Scopes

namespace Outline

/-- The attributes of variables, of parameters and of named constants. -/
def variableAttributes (t : DataType) : List Symbol.Attribute := [.dataType t]

def parameterAttributes (t : DataType) : List Symbol.Attribute := [.dataType t, .isParameter]

def constantAttributes (t : DataType) : List Symbol.Attribute := [.dataType t, .immutable]

/-- The scopes agree with the outline of a function, in whose body the names of `visible` can be
seen besides its own. -/
structure Function.Valid (f : Function) (s : Scopes) (visible : List Entry) : Prop where
  symbol : ∃ sym, s.symbol? f.id = some sym ∧ sym.kind = .function ∧ sym.name = f.name ∧
    sym.storage = none ∧
    sym.attributes = (f.params.map Prod.snd).map .parameter ++ [.returnType f.ret]
  scope : s.HasTable (Parser.functionScope f.name) f.entries
  params : s.Holds f.params parameterAttributes fun k => some (.ofParameter k)
  locals : s.Holds f.locals variableAttributes fun k => some (.ofLocal k)
  body : s.IsBlock (Scopes.namesOf [f.entries, visible]) (some f.ret) f.body

/-- The scopes agree with the outlines of named constants, each of which can be used by those after
it. -/
structure ValidConstants (constants : List Constant) (s : Scopes) : Prop where
  holds : s.Holds (constants.map Constant.entry) constantAttributes fun k => some (.ofGlobal k)
  values : ∀ k c, constants[k]? = some c →
    s.IsExpression (Scopes.namesOf [(constants.take k).map Constant.entry]) c.value ∧
      ∃ t, s.Typed c.value t ∧ s.IsVariable c.id t

/-- The entries are names of types and arrays. -/
def ValidTypes (types : List Entry) (s : Scopes) : Prop :=
  ∀ e ∈ types, ∃ sym, s.symbol? e.2 = some sym ∧ sym.name = e.1 ∧
    (sym.kind = .typeName ∨ sym.kind = .structOrArrayVariable) ∧ sym.storage = none

/-- The definition of a type that can see the names of `visible`: an array of an integer length, or
a record, whose fields have a scope of their own and no place. -/
inductive IsTypeDefinition (s : Scopes) (visible : List Entry) (e : Entry) : Node → Prop
  | array (element : Entry) {length : Node}
      (hl : s.IsExpression (Scopes.namesOf [visible]) length) (ht : s.Typed length .int) :
      IsTypeDefinition s visible e (.mk .arrayDef (some e.1) (some e.2) (some length) none
        (some (.mk .typeId (some element.1) (some element.2) none none none)))
  | record (fields : List Entry) (hs : s.HasTable ("__struct__" ++ e.1) fields)
      (hf : s.Holds fields variableAttributes fun _ => none) :
      IsTypeDefinition s visible e (.mk .structDef (some e.1) (some e.2)
        (Node.list .structFields (fields.map Entry.node)) none none)

/-- The trees define the types in order, each of which can see the names of `l` and the types before
it. -/
def Defines (s : Scopes) (l types : List Entry) (ns : List Node) : Prop :=
  ns.length = types.length ∧ ∀ (k : Nat) e n, types[k]? = some e → ns[k]? = some n →
    IsTypeDefinition s (l ++ types.take k) e n

/-- The scopes agree with the outline of a program. -/
structure Valid (o : Outline) (s : Scopes) : Prop where
  scopes : s.Valid
  global : ∃ t, s.index[Parser.globalScope]? = some 0 ∧ s.tables[0]? = some t ∧
    SymbolTable.Lists t (o.globals o.functions.length)
  constants : ValidConstants o.constants s
  types : ValidTypes o.types s
  definitions : ∃ types arrays ns, o.types = types ++ arrays ∧
    o.typesNode = Node.list .typeList ns ∧
    Defines s (o.constants.map Constant.entry) types ns ∧
    o.arraysNode = Node.list .arrayDecls (arrays.map Entry.arrayNode)
  functions : ∀ (k : Nat) (f : Function), o.functions[k]? = some f → f.Valid s (o.globals (k + 1))
  main : s.HasTable Parser.mainScope o.vars
  vars : s.Holds o.vars variableAttributes fun k =>
    some (.ofGlobal (o.constants.length + k))
  body : s.IsBlock (Scopes.namesOf [o.vars, o.globals o.functions.length]) none o.body

end Outline

/-! ## What stays true -/

section Keeps

variable {s s' : Scopes} {n : Nat} {entries : List Entry}
  {attributes : DataType → List Symbol.Attribute} {place : Nat → Option Storage}

theorem Scopes.Holds.mono (h : s.Holds entries attributes place) (e : s.Extends s') :
    s'.Holds entries attributes place := by
  intro k entry hk
  obtain ⟨sym, t, hs, h⟩ := h k entry hk
  exact ⟨sym, t, e.symbols _ sym hs, h⟩

theorem Scopes.Holds.snoc {e : Entry} {sym : Symbol} {t : DataType}
    (h : s.Holds entries attributes place) (hs : s.symbol? e.2 = some sym) (hn : sym.name = e.1)
    (hv : sym.IsVariable t) (ha : sym.attributes = attributes t)
    (hp : sym.storage = place entries.length) : s.Holds (entries ++ [e]) attributes place := by
  intro k e' hk
  rw [List.getElem?_append] at hk
  split at hk
  · exact h k e' hk
  · next hlt =>
    obtain ⟨hle, he⟩ := List.getElem?_eq_some_iff.1 hk
    obtain rfl : k = entries.length := by rw [List.length_singleton] at hle; omega
    rw [List.getElem_singleton] at he
    exact he ▸ ⟨sym, t, hs, hn, hv, ha, hp⟩

theorem Scopes.HasTable.keeps {scope : String} (h : s.HasTable scope entries)
    (hk : Scopes.Keeps n [0] s s') : s'.HasTable scope entries := by
  obtain ⟨i, t, hi, hx, ht, hl⟩ := h
  exact ⟨i, t, hi, hk.index scope i hx, hk.tables i t (by simpa using hi) ht, hl⟩

theorem Outline.Function.Valid.keeps {f : Outline.Function} {visible : List Entry}
    (h : f.Valid s visible) (hk : Scopes.Keeps s.symbols.size [0] s s') : f.Valid s' visible := by
  have e := hk.toExtends
  obtain ⟨sym, hs, hsym⟩ := h.symbol
  exact ⟨⟨sym, e.symbols _ sym hs, hsym⟩, h.scope.keeps hk, h.params.mono e, h.locals.mono e,
    h.body.mono e⟩

namespace Outline

variable {constants : List Constant} {types : List Entry}

theorem ValidConstants.mono (h : ValidConstants constants s) (e : s.Extends s') :
    ValidConstants constants s' := by
  refine ⟨h.holds.mono e, fun k c hc => ?_⟩
  obtain ⟨hv, t, ht, hs⟩ := h.values k c hc
  exact ⟨hv.mono e, t, ht.mono e, hs.mono e⟩

theorem ValidTypes.mono (h : ValidTypes types s) (e : s.Extends s') : ValidTypes types s' := by
  intro entry he
  obtain ⟨sym, hs, h⟩ := h entry he
  exact ⟨sym, e.symbols _ sym hs, h⟩

theorem IsTypeDefinition.keeps {visible : List Entry} {e : Entry} {n : Node}
    (h : IsTypeDefinition s visible e n) (hk : Scopes.Keeps s.symbols.size [0] s s') :
    IsTypeDefinition s' visible e n := by
  cases h with
  | array element hl ht => exact .array element (hl.mono hk.toExtends) (ht.mono hk.toExtends)
  | record fields hs hf => exact .record fields (hs.keeps hk) (hf.mono hk.toExtends)

namespace Defines

variable {l : List Entry} {ns : List Node}

theorem keeps (h : Defines s l types ns) (hk : Scopes.Keeps s.symbols.size [0] s s') :
    Defines s' l types ns :=
  ⟨h.1, fun k e n he hn => (h.2 k e n he hn).keeps hk⟩

theorem nil : Defines s l [] [] := ⟨rfl, by simp⟩

theorem snoc {e : Entry} {n : Node} (h : Defines s l types ns)
    (hn : IsTypeDefinition s (l ++ types) e n) : Defines s l (types ++ [e]) (ns ++ [n]) := by
  refine ⟨by simp [h.1], fun k e' n' he hn' => ?_⟩
  rw [List.getElem?_append] at he hn'
  rw [h.1] at hn'
  split at he
  · next hlt =>
    rw [if_pos hlt] at hn'
    rw [List.take_append_of_le_length (Nat.le_of_lt hlt)]
    exact h.2 k e' n' he hn'
  · next hlt =>
    rw [if_neg hlt] at hn'
    obtain ⟨hle, he⟩ := List.getElem?_eq_some_iff.1 he
    obtain rfl : k = types.length := by rw [List.length_singleton] at hle; omega
    rw [List.getElem_singleton] at he
    rw [Nat.sub_self, List.getElem?_cons_zero, Option.some.injEq] at hn'
    subst he hn'
    rwa [List.take_left]

theorem of_mem {n : Node} (h : Defines s l types ns) (hn : n ∈ ns) :
    ∃ visible e, IsTypeDefinition s visible e n := by
  obtain ⟨k, hk⟩ := List.mem_iff_getElem?.1 hn
  have hlt : k < types.length := h.1 ▸ (List.getElem?_eq_some_iff.1 hk).1
  exact ⟨_, _, h.2 k _ n (List.getElem?_eq_getElem hlt) hk⟩

end Defines

theorem ValidConstants.snoc {c : Constant} {sym : Symbol} {t : DataType}
    (h : ValidConstants constants s)
    (he : s.IsExpression (Scopes.namesOf [constants.map Constant.entry]) c.value)
    (ht : s.Typed c.value t) (hs : s.symbol? c.id = some sym) (hn : sym.name = c.name)
    (hv : sym.IsVariable t) (ha : sym.attributes = constantAttributes t)
    (hp : sym.storage = some (.ofGlobal constants.length)) :
    ValidConstants (constants ++ [c]) s := by
  refine ⟨?_, fun k c' hc => ?_⟩
  · rw [List.map_append]
    exact h.holds.snoc hs hn hv ha (by rw [List.length_map, hp])
  · rw [List.getElem?_append] at hc
    split at hc
    · next hlt =>
      rw [List.take_append_of_le_length (Nat.le_of_lt hlt)]
      exact h.values k c' hc
    · next hlt =>
      obtain ⟨hle, hc⟩ := List.getElem?_eq_some_iff.1 hc
      obtain rfl : k = constants.length := by rw [List.length_singleton] at hle; omega
      rw [List.getElem_singleton] at hc
      subst hc
      rw [List.take_left]
      exact ⟨he, t, ht, sym, hs, hv⟩

end Outline

end Keeps

end StackCompiler
