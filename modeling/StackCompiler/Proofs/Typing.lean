import Mathlib.Tactic.FinCases
import StackCompiler.Binary64.Reading
import StackCompiler.Proofs.Chains
import StackCompiler.Proofs.Tables

/-!
# Well-formed expressions and statements

Which trees are expressions and statements, given the symbols of a program and the names that are
visible where the tree stands. The type of a node is that of the value of its symbol.
-/

namespace StackCompiler

variable {n : Node} {s : Scopes} {names : Names}

/-- Types that a variable can have. -/
def DataType.IsScalar (t : DataType) : Prop := t = .int ∨ t = .real ∨ t = .bool

theorem DataType.IsScalar.ne_void {t : DataType} (h : t.IsScalar) : t ≠ .void := by
  rcases h with rfl | rfl | rfl <;> simp

namespace Node.Kind

def logical : List Kind := [.and, .or, .xor]

def arithmetic : List Kind := [.add, .subtract, .multiply, .divide, .modulo, .power]

def relations : List Kind := [.equal, .notEqual, .greater, .greaterEq, .less, .lessEq]

def compoundAssignments : List Kind := [.addAssign, .subAssign, .mulAssign, .divAssign]

end Node.Kind

/-- A variable or a named constant of the given type. -/
structure Symbol.IsVariable (sym : Symbol) (t : DataType) : Prop where
  not_function : sym.kind ≠ .function
  not_type : sym.kind ≠ .typeName
  not_array : sym.kind ≠ .structOrArrayVariable
  type : sym.dataType? = some t
  scalar : t.IsScalar

namespace Scopes

variable (s : Scopes) (names : Names)

def HasType (id : Symbol.Id) (t : DataType) : Prop := ∃ sym, s.symbol? id = some sym ∧ sym.valueType = t

/-- The node is bound to a symbol whose value has type `t`. -/
def Typed (n : Node) (t : DataType) : Prop := ∃ id, n.symbol = some id ∧ s.HasType id t

/-- The symbol is that of a literal of the pool. -/
def IsConstant (id : Symbol.Id) (kind : Symbol.Kind) (value : Symbol.Attribute) (t : DataType) :
    Prop :=
  ∃ sym, s.symbol? id = some sym ∧ sym.kind = kind ∧ sym.attributes = [value, .dataType t]

def IsVariable (id : Symbol.Id) (t : DataType) : Prop :=
  ∃ sym, s.symbol? id = some sym ∧ sym.IsVariable t

/-- The symbol is a function that takes the arguments, each of the type of its parameter. -/
def Takes (id : Symbol.Id) (args : List Node) : Prop :=
  ∃ sym, s.symbol? id = some sym ∧ sym.kind = .function ∧ sym.parameters.length = args.length ∧
    ∀ e ∈ args.zip sym.parameters, ∃ t par,
      s.Typed e.1 t ∧ s.symbol? e.2 = some par ∧ par.dataType? = some t

def variableNode (text : String) (id : Symbol.Id) : Node :=
  .mk .reference (some text) (some id) none none none

/-- Expressions that yield a value. -/
inductive IsExpression : Node → Prop
  | integer {text : String} {id : Symbol.Id} {n : Int} (hn : Text.readWord? text = some n)
      (hp : s.resolveConstant text = some id)
      (hs : s.IsConstant id .intConstant (.integerConstant n) .int) :
      IsExpression (.mk .intLiteral (some text) (some id) none none none)
  | real {text : String} {id : Symbol.Id} {x : Binary64} (hx : Binary64.read? text = some x)
      (hp : s.resolveConstant text = some id)
      (hs : s.IsConstant id .realConstant (.realConstant x) .real) :
      IsExpression (.mk .realLiteral (some text) (some id) none none none)
  | truth {k : Node.Kind} {id : Symbol.Id} (hk : k = .trueLiteral ∨ k = .falseLiteral)
      (ht : s.HasType id .bool) : IsExpression (.mk k none (some id) none none none)
  | reference {text : String} {id : Symbol.Id} {t : DataType} (hn : names text = some id)
      (hv : s.IsVariable id t) : IsExpression (variableNode text id)
  | call {text : String} {id : Symbol.Id} {args : List Node} {t : DataType}
      (hn : names text = some id) (hc : s.Takes id args) (ht : s.HasType id t) (hv : t.IsScalar)
      (ha : ∀ a ∈ args, IsExpression a) :
      IsExpression (.mk .call (some text) (some id) (Node.list .expressionList args) none none)
  | not {id : Symbol.Id} {n : Node} (hn : IsExpression n) (hb : s.Typed n .bool)
      (ht : s.HasType id .bool) : IsExpression (.mk .not none (some id) (some n) none none)
  | logical {k : Node.Kind} {id : Symbol.Id} {l r : Node} (hk : k ∈ Node.Kind.logical)
      (hl : IsExpression l) (hr : IsExpression r) (tl : s.Typed l .bool) (tr : s.Typed r .bool)
      (ht : s.HasType id .bool) : IsExpression (.mk k none (some id) (some l) none (some r))
  | arithmetic {k : Node.Kind} {id : Symbol.Id} {l r : Node} {t u : DataType}
      (hk : k ∈ Node.Kind.arithmetic) (hl : IsExpression l) (hr : IsExpression r)
      (tl : s.Typed l t) (tr : s.Typed r u) (nt : t.isNumeric) (nu : u.isNumeric)
      (ht : s.HasType id (t.join u)) : IsExpression (.mk k none (some id) (some l) none (some r))
  | relation {k : Node.Kind} {id : Symbol.Id} {l r : Node} {t u : DataType}
      (hk : k ∈ Node.Kind.relations) (hl : IsExpression l) (hr : IsExpression r)
      (tl : s.Typed l t) (tr : s.Typed r u)
      (hc : t.isNumeric ∧ u.isNumeric ∨ (k = .equal ∨ k = .notEqual) ∧ t = .bool ∧ u = .bool)
      (ht : s.HasType id .bool) : IsExpression (.mk k none (some id) (some l) none (some r))

/-- Assignments to a variable, which must not be a named constant. -/
inductive IsAssignment : Node → Prop
  | intro {k : Node.Kind} {text : String} {id : Symbol.Id} {value : Node} {t : DataType}
      (hk : k = .assign ∨ k ∈ Node.Kind.compoundAssignments) (hn : names text = some id)
      (hv : s.IsVariable id t) (hm : ∀ sym, s.symbol? id = some sym → sym.isImmutable = false)
      (he : s.IsExpression names value) (tv : s.Typed value t)
      (hc : k ∈ Node.Kind.compoundAssignments → t.isNumeric) :
      IsAssignment (.mk k none (some id) (some (variableNode text id)) none (some value))

/-- Variables that input can go to. -/
inductive IsInputTarget : Node → Prop
  | intro {text : String} {id : Symbol.Id} {t : DataType} (hn : names text = some id)
      (hv : s.IsVariable id t) (hm : ∀ sym, s.symbol? id = some sym → sym.isImmutable = false)
      (ht : t.isNumeric) : IsInputTarget (variableNode text id)

/-- What can be printed: a string or the value of an expression. -/
inductive IsPrintEntry : Node → Prop
  | string {text : String} {id : Symbol.Id}
      (hp : s.resolveConstant ("\"" ++ text ++ "\"") = some id)
      (hs : s.IsConstant id .stringConstant (.stringConstant text) .string) :
      IsPrintEntry (.mk .string (some text) (some id) none none none)
  | value {n : Node} (h : s.IsExpression names n) : IsPrintEntry n

/-- What can be returned from a function of the given return type, or from main. -/
inductive IsReturn : Option DataType → Option Node → Prop
  | main : IsReturn none none
  | void : IsReturn (some .void) none
  | value {t : DataType} {n : Node} (hv : t ≠ .void) (he : s.IsExpression names n)
      (ht : s.Typed n t) : IsReturn (some t) (some n)

def Made (scope : String) : Prop := ∃ i, s.index[scope]? = some i

/-- Statements of a function of return type `ret`, or of main. -/
inductive IsStatement (ret : Option DataType) : Node → Prop
  | assignment {n : Node} (h : s.IsAssignment names n) : IsStatement ret n
  | forLoop {scope : String} {start body : List Node} {test : Node} (hs : s.Made scope)
      (ha : ∀ n ∈ start, s.IsAssignment names n) (he : s.IsExpression names test)
      (ht : s.Typed test .bool) (hb : ∀ n ∈ body, IsStatement ret n) :
      IsStatement ret (.mk .forLoop (some scope) none (Node.list .assignList start) (some test)
        (Node.list .statements body))
  | ifThen {scope : String} {body : List Node} {test : Node} (hs : s.Made scope)
      (he : s.IsExpression names test) (ht : s.Typed test .bool)
      (hb : ∀ n ∈ body, IsStatement ret n) :
      IsStatement ret (.mk .ifThen (some scope) none (some test) (Node.list .statements body) none)
  | ifElse {scope : String} {body otherwise : List Node} {test : Node} (hs : s.Made scope)
      (he : s.IsExpression names test) (ht : s.Typed test .bool)
      (hb : ∀ n ∈ body, IsStatement ret n) (ho : ∀ n ∈ otherwise, IsStatement ret n) :
      IsStatement ret (.mk .ifElse (some scope) none (some test) (Node.list .statements body)
        (Node.list .statements otherwise))
  | repeatLoop {scope : String} {start body : List Node} {test : Node} (hs : s.Made scope)
      (ha : ∀ n ∈ start, s.IsAssignment names n) (he : s.IsExpression names test)
      (ht : s.Typed test .bool) (hb : ∀ n ∈ body, IsStatement ret n) :
      IsStatement ret (.mk .repeatLoop (some scope) none (Node.list .assignList start)
        (Node.list .statements body) (some test))
  | input {targets : List Node} (hne : targets ≠ []) (ht : ∀ n ∈ targets, s.IsInputTarget names n) :
      IsStatement ret (.mk .input none none (Node.list .variableList targets) none none)
  | print {k : Node.Kind} {entries : List Node} (hk : k = .print ∨ k = .println)
      (hne : entries ≠ []) (he : ∀ n ∈ entries, s.IsPrintEntry names n) :
      IsStatement ret (.mk k none none (Node.list .printList entries) none none)
  | returns {value : Option Node} (h : s.IsReturn names ret value) :
      IsStatement ret (.mk .returns none none value none none)
  | call {text : String} {id : Symbol.Id} {args : List Node} (hn : names text = some id)
      (hc : s.Takes id args) (ha : ∀ a ∈ args, s.IsExpression names a) :
      IsStatement ret
        (.mk .callStatement (some text) (some id) (Node.list .expressionList args) none none)

def IsBlock (ret : Option DataType) (n : Option Node) : Prop :=
  ∃ body, n = Node.list .statements body ∧ ∀ m ∈ body, s.IsStatement names ret m

/-- Everything that `s` knows, `s'` knows too: its symbols, its literals and its scopes. -/
structure Extends (s' : Scopes) : Prop where
  symbols : ∀ id sym, s.symbol? id = some sym → s'.symbol? id = some sym
  constants : ∀ key id, s.resolveConstant key = some id → s'.resolveConstant key = some id
  made : ∀ scope, s.Made scope → s'.Made scope

variable {s names} {s' s'' : Scopes} {id : Symbol.Id} {t : DataType} {n : Node}
  {ret : Option DataType} {value : Symbol.Attribute} {kind : Symbol.Kind}

theorem Extends.trans (h : s.Extends s') (h' : s'.Extends s'') : s.Extends s'' :=
  ⟨fun id sym hs => h'.symbols id sym (h.symbols id sym hs),
    fun key id hs => h'.constants key id (h.constants key id hs),
    fun scope hs => h'.made scope (h.made scope hs)⟩

section Extension

variable (e : s.Extends s')
include e

theorem HasType.mono (h : s.HasType id t) : s'.HasType id t := by
  obtain ⟨sym, hs, ht⟩ := h
  exact ⟨sym, e.symbols id sym hs, ht⟩

theorem Typed.mono (h : s.Typed n t) : s'.Typed n t := by
  obtain ⟨id, hn, ht⟩ := h
  exact ⟨id, hn, ht.mono e⟩

theorem IsConstant.mono (h : s.IsConstant id kind value t) :
    s'.IsConstant id kind value t := by
  obtain ⟨sym, hs, h⟩ := h
  exact ⟨sym, e.symbols id sym hs, h⟩

theorem IsVariable.mono (h : s.IsVariable id t) : s'.IsVariable id t := by
  obtain ⟨sym, hs, h⟩ := h
  exact ⟨sym, e.symbols id sym hs, h⟩

theorem Takes.mono {args : List Node} (h : s.Takes id args) :
    s'.Takes id args := by
  obtain ⟨sym, hs, hk, hl, ha⟩ := h
  refine ⟨sym, e.symbols id sym hs, hk, hl, fun p hp => ?_⟩
  obtain ⟨t, par, ht, hpar, hd⟩ := ha p hp
  exact ⟨t, par, ht.mono e, e.symbols _ par hpar, hd⟩

theorem IsExpression.mono (h : s.IsExpression names n) :
    s'.IsExpression names n := by
  induction h with
  | integer hn hp hs => exact .integer hn (e.constants _ _ hp) (hs.mono e)
  | real hx hp hs => exact .real hx (e.constants _ _ hp) (hs.mono e)
  | truth hk ht => exact .truth hk (ht.mono e)
  | reference hn hv => exact .reference hn (hv.mono e)
  | call hn hc ht hv _ ih => exact .call hn (hc.mono e) (ht.mono e) hv ih
  | not _ hb ht ih => exact .not ih (hb.mono e) (ht.mono e)
  | logical hk _ _ tl tr ht ihl ihr =>
    exact .logical hk ihl ihr (tl.mono e) (tr.mono e) (ht.mono e)
  | arithmetic hk _ _ tl tr nt nu ht ihl ihr =>
    exact .arithmetic hk ihl ihr (tl.mono e) (tr.mono e) nt nu (ht.mono e)
  | relation hk _ _ tl tr hc ht ihl ihr =>
    exact .relation hk ihl ihr (tl.mono e) (tr.mono e) hc (ht.mono e)

theorem mutable_mono (hv : s.IsVariable id t)
    (hm : ∀ sym, s.symbol? id = some sym → sym.isImmutable = false) :
    ∀ sym, s'.symbol? id = some sym → sym.isImmutable = false := by
  intro sym hs
  obtain ⟨sym', hs', -⟩ := hv
  have := e.symbols id sym' hs'
  rw [hs, Option.some.injEq] at this
  exact this ▸ hm sym' hs'

theorem IsAssignment.mono (h : s.IsAssignment names n) :
    s'.IsAssignment names n := by
  obtain ⟨hk, hn, hv, hm, he, tv, hc⟩ := h
  exact ⟨hk, hn, hv.mono e, mutable_mono e hv hm, he.mono e, tv.mono e, hc⟩

theorem IsInputTarget.mono (h : s.IsInputTarget names n) :
    s'.IsInputTarget names n := by
  obtain ⟨hn, hv, hm, ht⟩ := h
  exact ⟨hn, hv.mono e, mutable_mono e hv hm, ht⟩

theorem IsPrintEntry.mono (h : s.IsPrintEntry names n) :
    s'.IsPrintEntry names n := by
  cases h with
  | string hp hs => exact .string (e.constants _ _ hp) (hs.mono e)
  | value h => exact .value (h.mono e)

theorem IsReturn.mono {value : Option Node} (h : s.IsReturn names ret value) :
    s'.IsReturn names ret value := by
  cases h with
  | main => exact .main
  | void => exact .void
  | value hv he ht => exact .value hv (he.mono e) (ht.mono e)

theorem IsStatement.mono (h : s.IsStatement names ret n) :
    s'.IsStatement names ret n := by
  induction h with
  | assignment h => exact .assignment (h.mono e)
  | forLoop hs ha he ht _ ih =>
    exact .forLoop (e.made _ hs) (fun n hn => (ha n hn).mono e) (he.mono e) (ht.mono e) ih
  | ifThen hs he ht _ ih => exact .ifThen (e.made _ hs) (he.mono e) (ht.mono e) ih
  | ifElse hs he ht _ _ ihb iho => exact .ifElse (e.made _ hs) (he.mono e) (ht.mono e) ihb iho
  | repeatLoop hs ha he ht _ ih =>
    exact .repeatLoop (e.made _ hs) (fun n hn => (ha n hn).mono e) (he.mono e) (ht.mono e) ih
  | input hne ht => exact .input hne fun n hn => (ht n hn).mono e
  | print hk hne he => exact .print hk hne fun n hn => (he n hn).mono e
  | returns h => exact .returns (h.mono e)
  | call hn hc ha => exact .call hn (hc.mono e) fun a h => (ha a h).mono e

theorem IsBlock.mono {n : Option Node} (h : s.IsBlock names ret n) :
    s'.IsBlock names ret n := by
  obtain ⟨body, hn, hb⟩ := h
  exact ⟨body, hn, fun m hm => (hb m hm).mono e⟩

end Extension

/-! ## Types of expressions -/

theorem Typed.unique {u : DataType} (h : s.Typed n t) (h' : s.Typed n u) : t = u := by
  obtain ⟨id, hn, sym, hs, rfl⟩ := h
  obtain ⟨id', hn', sym', hs', rfl⟩ := h'
  rw [hn, Option.some.injEq] at hn'
  subst hn'
  rw [hs, Option.some.injEq] at hs'
  rw [hs']

theorem HasType.valueType (h : s.HasType id t) : s.valueType id = t := by
  obtain ⟨sym, hs, rfl⟩ := h
  rw [Scopes.valueType, hs]
  rfl

theorem IsVariable.hasType (h : s.IsVariable id t) : s.HasType id t := by
  obtain ⟨sym, hs, hv⟩ := h
  refine ⟨sym, hs, ?_⟩
  simp [Symbol.valueType, Symbol.Kind.isFunction, hv.not_function, hv.type]

theorem IsConstant.hasType (h : s.IsConstant id kind value t) (hk : kind ≠ .function)
    (hv : value.dataType? = none) : s.HasType id t := by
  obtain ⟨sym, hs, rfl, ha⟩ := h
  have hd : sym.dataType? = some t := by
    simp only [Symbol.dataType?, ha, List.findSome?_cons, hv]
    rfl
  exact ⟨sym, hs, by simp [Symbol.valueType, Symbol.Kind.isFunction, hk, hd]⟩

theorem isScalar_join (t u : DataType) : (t.join u).IsScalar := by
  unfold DataType.join
  split
  · exact .inr (.inl rfl)
  · exact .inl rfl

theorem IsExpression.typed (h : s.IsExpression names n) : ∃ t, s.Typed n t ∧ t.IsScalar := by
  cases h with
  | integer _ _ hs => exact ⟨.int, ⟨_, rfl, hs.hasType (by simp) rfl⟩, .inl rfl⟩
  | real _ _ hs => exact ⟨.real, ⟨_, rfl, hs.hasType (by simp) rfl⟩, .inr (.inl rfl)⟩
  | truth _ ht => exact ⟨.bool, ⟨_, rfl, ht⟩, .inr (.inr rfl)⟩
  | @reference _ _ t _ hv =>
    refine ⟨t, ⟨_, rfl, hv.hasType⟩, ?_⟩
    obtain ⟨sym, -, hv⟩ := hv
    exact hv.scalar
  | call _ _ ht hv => exact ⟨_, ⟨_, rfl, ht⟩, hv⟩
  | not _ _ ht => exact ⟨.bool, ⟨_, rfl, ht⟩, .inr (.inr rfl)⟩
  | logical _ _ _ _ _ ht => exact ⟨.bool, ⟨_, rfl, ht⟩, .inr (.inr rfl)⟩
  | @arithmetic _ _ _ _ t u _ _ _ _ _ _ _ ht => exact ⟨_, ⟨_, rfl, ht⟩, isScalar_join t u⟩
  | relation _ _ _ _ _ _ ht => exact ⟨.bool, ⟨_, rfl, ht⟩, .inr (.inr rfl)⟩

end Scopes

theorem Scopes.IsExpression.kind (h : s.IsExpression names n) :
    n.kind.isList = false ∧ n.kind ≠ .string := by
  have hkinds : ∀ k ∈ Node.Kind.logical ++ Node.Kind.arithmetic ++ Node.Kind.relations,
      k.isList = false ∧ k ≠ .string := by decide
  cases h with
  | truth hk => rcases hk with rfl | rfl <;> exact ⟨rfl, nofun⟩
  | logical hk | arithmetic hk | relation hk => exact hkinds _ (by simp [Node.kind, hk])
  | _ => exact ⟨rfl, nofun⟩

theorem Scopes.IsExpression.not_list (h : s.IsExpression names n) : n.kind.isList = false := h.kind.1

theorem Scopes.IsExpression.not_string (h : s.IsExpression names n) : n.kind ≠ .string := h.kind.2

theorem Node.kind_ne_of_not_list {k : Node.Kind} (h : n.kind.isList = false)
    (hk : k.isList = true) : n.kind ≠ k := by
  rintro rfl
  simp [hk] at h

theorem Scopes.IsAssignment.not_list (h : s.IsAssignment names n) : n.kind.isList = false := by
  obtain ⟨hk, -⟩ := h
  exact (by decide : ∀ k ∈ Node.Kind.assign :: Node.Kind.compoundAssignments,
    k.isList = false) _ (by simpa [Node.kind] using hk)

theorem Scopes.IsInputTarget.kind_ne (h : s.IsInputTarget names n) : n.kind ≠ .variableList := by
  obtain ⟨-, -, -, -⟩ := h
  exact nofun

theorem Scopes.IsPrintEntry.not_list (h : s.IsPrintEntry names n) : n.kind.isList = false := by
  cases h with
  | string => rfl
  | value h => exact h.not_list

theorem Scopes.IsStatement.not_list {ret : Option DataType} (h : s.IsStatement names ret n) :
    n.kind.isList = false := by
  cases h with
  | assignment h => exact h.not_list
  | print hk => rcases hk with rfl | rfl <;> rfl
  | _ => rfl

end StackCompiler
