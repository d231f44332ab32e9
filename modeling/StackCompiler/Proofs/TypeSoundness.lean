import StackCompiler.Proofs.Reading.Programs

/-!
# Accepted programs are well typed

The typing rules, one for each kind of node, say what types a node and its children have, where the
type of a node is that of the value of its symbol. They are local, so they speak of any tree. All
nodes of an accepted program follow them.
-/

namespace StackCompiler

open Node (listed)

/-- The places of a node where an expression stands. -/
def Node.operands (n : Node) : List Node :=
  match n.kind with
  | .add | .subtract | .multiply | .divide | .modulo | .power | .and | .or | .xor | .equal
  | .notEqual | .greater | .greaterEq | .less | .lessEq => n.left.toList ++ n.right.toList
  | .not | .ifThen | .ifElse | .returns | .init | .arrayDef => n.left.toList
  | .forLoop => n.centre.toList
  | .repeatLoop | .assign | .addAssign | .subAssign | .mulAssign | .divAssign => n.right.toList
  | .print | .println => listed .printList n.left
  | .call | .callStatement => listed .expressionList n.left
  | _ => []

namespace Scopes

variable (s : Scopes)

def Operates (n : Node) (t u : DataType) : Prop :=
  ∃ l r, n.left = some l ∧ n.right = some r ∧ s.Typed l t ∧ s.Typed r u

/-- The node is bound to a variable that may change. -/
def Changes (n : Node) : Prop :=
  ∃ id sym, n.symbol = some id ∧ s.symbol? id = some sym ∧ sym.isImmutable = false

/-- The node gives a variable that may change a value of its own type. -/
def Assigns (n : Node) (t : DataType) : Prop :=
  ∃ target, n.left = some target ∧ s.Changes target ∧ s.Operates n t t

/-- The node is bound to a function and has as many arguments as that has parameters, each of the
type of its parameter. -/
def Calls (n : Node) : Prop :=
  ∃ id sym, n.symbol = some id ∧ s.symbol? id = some sym ∧ sym.kind = .function ∧
    (listed .expressionList n.left).length = sym.parameters.length ∧
    ∀ (k : Nat) arg param, (listed .expressionList n.left)[k]? = some arg →
      sym.parameters[k]? = some param →
      ∃ t par, s.Typed arg t ∧ s.symbol? param = some par ∧ par.dataType? = some t

/-- The typing rule of a node. -/
def WellTyped (n : Node) : Prop :=
  match n.kind with
  | .add | .subtract | .multiply | .divide | .modulo | .power =>
    ∃ t u, s.Operates n t u ∧ (t = .int ∨ t = .real) ∧ (u = .int ∨ u = .real) ∧
      s.Typed n (if t = .real ∨ u = .real then .real else .int)
  | .and | .or | .xor => s.Operates n .bool .bool ∧ s.Typed n .bool
  | .not => ∃ l, n.left = some l ∧ s.Typed l .bool ∧ s.Typed n .bool
  | .equal | .notEqual =>
    ∃ t u, s.Operates n t u ∧ s.Typed n .bool ∧
      ((t = .int ∨ t = .real) ∧ (u = .int ∨ u = .real) ∨ t = .bool ∧ u = .bool)
  | .greater | .greaterEq | .less | .lessEq =>
    ∃ t u, s.Operates n t u ∧ (t = .int ∨ t = .real) ∧ (u = .int ∨ u = .real) ∧ s.Typed n .bool
  | .ifThen | .ifElse => ∃ test, n.left = some test ∧ s.Typed test .bool
  | .forLoop => ∃ test, n.centre = some test ∧ s.Typed test .bool
  | .repeatLoop => ∃ test, n.right = some test ∧ s.Typed test .bool
  | .assign => ∃ t, s.Assigns n t
  | .addAssign | .subAssign | .mulAssign | .divAssign =>
    ∃ t, s.Assigns n t ∧ (t = .int ∨ t = .real)
  | .input => ∀ m ∈ listed .variableList n.left, s.Changes m ∧ (s.Typed m .int ∨ s.Typed m .real)
  | .call => s.Calls n ∧ ¬ s.Typed n .void
  | .callStatement => s.Calls n
  | .init => ∃ value t, n.left = some value ∧ s.Typed value t ∧ s.Typed n t
  | .arrayDef => ∃ length, n.left = some length ∧ s.Typed length .int
  | _ => True

/-- No expression of the node yields nothing. -/
def Yields (n : Node) : Prop := ∀ m ∈ n.operands, ∃ t, s.Typed m t ∧ t ≠ .void

/-- What a return gives back in a function of the given return type, or in main. -/
def ReturnsIn (ret : Option DataType) (n : Node) : Prop :=
  n.kind = .returns →
    match ret with
    | none | some .void => n.left = none
    | some t => ∃ value, n.left = some value ∧ s.Typed value t

/-- All nodes of a program follow the rules. Returns follow that of the function they stand in, and
outside functions they give back nothing. -/
structure WellTypedTree (root : Node) : Prop where
  nodes : root.All s.WellTyped
  values : root.All s.Yields
  functions : ∀ f ∈ root.functionNodes, ∃ id sym t, f.symbol = some id ∧
    s.symbol? id = some sym ∧ sym.kind = .function ∧ sym.returnType? = some t ∧
    f.All (s.ReturnsIn (some t))
  others : Node.AllIn (s.ReturnsIn none) root.left ∧ Node.AllIn (s.ReturnsIn none) root.right

end Scopes

namespace Node

variable {P Q : Node → Prop} {k : Kind} {v : Option String} {sym : Option Symbol.Id}
  {l c r : Option Node}

theorem all_mk (h : P (mk k v sym l c r)) (hl : AllIn P l) (hc : AllIn P c) (hr : AllIn P r) :
    (mk k v sym l c r).All P := by
  intro m hm
  rw [nodes_mk] at hm
  rcases List.mem_cons.1 hm with rfl | hm
  · exact h
  rcases List.mem_append.1 hm with hm | hm
  · rcases List.mem_append.1 hm with hm | hm
    · cases l with
      | none => simp at hm
      | some n => exact hl n rfl m hm
    · cases c with
      | none => simp at hm
      | some n => exact hc n rfl m hm
  · cases r with
    | none => simp at hm
    | some n => exact hr n rfl m hm

theorem allIn_none : AllIn P none := by
  intro m hm
  cases hm

theorem allIn_some {n : Node} (h : n.All P) : AllIn P (some n) := by
  intro m hm
  cases hm
  exact h

theorem all_left (h : P (mk k v sym l none none)) (hl : AllIn P l) :
    (mk k v sym l none none).All P := all_mk h hl allIn_none allIn_none

theorem all_leaf (h : P (mk k v sym none none none)) : (mk k v sym none none none).All P :=
  all_left h allIn_none

theorem all_two {l r : Node} (h : P (mk k v sym (some l) none (some r))) (hl : l.All P)
    (hr : r.All P) : (mk k v sym (some l) none (some r)).All P :=
  all_mk h (allIn_some hl) allIn_none (allIn_some hr)

theorem allIn_list {items : List Node} (h : ∀ n ∈ items, n.All P)
    (hk : ∀ a n, P (binary k a n)) : AllIn P (list k items) := by
  induction items with
  | nil => exact allIn_none
  | cons a items ih =>
    rw [list_cons]
    have ih := ih fun n hn => h n (List.mem_cons_of_mem _ hn)
    cases hl : list k items with
    | none => exact allIn_some (h a (by simp))
    | some rest =>
      rw [hl] at ih
      exact allIn_some (all_mk (hk a rest) (allIn_some (h a (by simp))) allIn_none ih)

theorem All.imp {n : Node} (h : n.All P) (hpq : ∀ m, P m → Q m) : n.All Q :=
  fun m hm => hpq m (h m hm)

end Node

/-! ## Expressions -/

namespace Scopes

variable {s : Scopes} {names : Names} {ret : Option DataType} {n : Node} {k : Node.Kind}
  {v : Option String} {sym : Option Symbol.Id} {args : List Node} {text : String} {id : Symbol.Id}

/-- A node follows all rules. -/
structure Follows (s : Scopes) (ret : Option DataType) (n : Node) : Prop where
  wellTyped : s.WellTyped n
  yields : s.Yields n
  returns : s.ReturnsIn ret n

/-- Kinds that have no rule. -/
def ruleless : List Node.Kind :=
  [.program, .globals, .functions, .main, .initList, .typeList, .structDef, .structFields,
   .arrayDecls, .arrayDecl, .functionDef, .paramList, .declList, .decl, .typeId, .statements,
   .assignList, .variableList, .printList, .expressionList, .reference, .intLiteral, .realLiteral,
   .string, .trueLiteral, .falseLiteral]

theorem follows_ruleless {l c r : Option Node} (h : k ∈ ruleless) :
    s.Follows ret (.mk k v sym l c r) := by
  fin_cases h <;>
    exact ⟨trivial, fun m hm => absurd hm List.not_mem_nil, nofun⟩

theorem follows_list {items : List Node} (hk : k ∈ ruleless)
    (h : ∀ n ∈ items, n.All (s.Follows ret)) : Node.AllIn (s.Follows ret) (Node.list k items) :=
  Node.allIn_list h fun _ _ => follows_ruleless hk

theorem isNumeric_iff (t : DataType) : t.isNumeric = true ↔ t = .int ∨ t = .real := by
  cases t <;> simp [DataType.isNumeric]

/-- The node has a type, and not that of nothing. -/
def IsValue (s : Scopes) (n : Node) : Prop := ∃ t, s.Typed n t ∧ t ≠ .void

theorem IsExpression.isValue (h : s.IsExpression names n) : s.IsValue n := by
  obtain ⟨t, ht, hs⟩ := h.typed
  exact ⟨t, ht, hs.ne_void⟩

theorem isValue_one (h : s.IsValue n) : ∀ m ∈ [n], s.IsValue m := by
  intro m hm
  rwa [List.mem_singleton.1 hm]

section Rules

variable {k : Node.Kind} {id : Symbol.Id} {l r : Node} {t u : DataType}

theorem isValue_two (hl : s.IsValue l) (hr : s.IsValue r) : ∀ m ∈ [l, r], s.IsValue m := by
  intro m hm
  fin_cases hm
  · exact hl
  · exact hr

theorem follows_arithmetic (hk : k ∈ Node.Kind.arithmetic) (hm : ∀ m ∈ [l, r], s.IsValue m)
    (tl : s.Typed l t) (tr : s.Typed r u) (nt : t.isNumeric) (nu : u.isNumeric)
    (ht : s.HasType id (t.join u)) :
    s.Follows ret (.mk k none (some id) (some l) none (some r)) := by
  rw [isNumeric_iff] at nt nu
  fin_cases hk <;>
    exact ⟨⟨t, u, ⟨l, r, rfl, rfl, tl, tr⟩, nt, nu, id, rfl, ht⟩, hm, nofun⟩

theorem follows_logical (hk : k ∈ Node.Kind.logical) (hm : ∀ m ∈ [l, r], s.IsValue m)
    (tl : s.Typed l .bool) (tr : s.Typed r .bool) (ht : s.HasType id .bool) :
    s.Follows ret (.mk k none (some id) (some l) none (some r)) := by
  fin_cases hk <;>
    exact ⟨⟨⟨l, r, rfl, rfl, tl, tr⟩, id, rfl, ht⟩, hm, nofun⟩

theorem follows_relation (hk : k ∈ Node.Kind.relations) (hm : ∀ m ∈ [l, r], s.IsValue m)
    (tl : s.Typed l t) (tr : s.Typed r u)
    (hc : t.isNumeric ∧ u.isNumeric ∨ (k = .equal ∨ k = .notEqual) ∧ t = .bool ∧ u = .bool)
    (ht : s.HasType id .bool) :
    s.Follows ret (.mk k none (some id) (some l) none (some r)) := by
  rw [isNumeric_iff, isNumeric_iff] at hc
  have hop : ∀ k, s.Operates (.mk k none (some id) (some l) none (some r)) t u :=
    fun _ => ⟨l, r, rfl, rfl, tl, tr⟩
  have hbool : ∀ k, s.Typed (.mk k none (some id) (some l) none (some r)) .bool :=
    fun _ => ⟨id, rfl, ht⟩
  fin_cases hk
  · exact ⟨⟨t, u, hop _, hbool _, hc.imp_right And.right⟩, hm, nofun⟩
  · exact ⟨⟨t, u, hop _, hbool _, hc.imp_right And.right⟩, hm, nofun⟩
  all_goals
    obtain ⟨nt, nu⟩ := hc.resolve_right fun h => by simp at h
    exact ⟨⟨t, u, hop _, nt, nu, hbool _⟩, hm, nofun⟩

end Rules

theorem listed_arguments (h : ∀ a ∈ args, s.IsExpression names a) :
    listed .expressionList (Node.list .expressionList args) = args :=
  Node.listed_list fun a ha => Node.kind_ne_of_not_list (h a ha).not_list rfl

theorem Takes.calls (h : s.Takes id args) (ha : ∀ a ∈ args, s.IsExpression names a) :
    s.Calls (.mk k (some text) (some id) (Node.list .expressionList args) none none) := by
  obtain ⟨sym, hs, hk, hlen, hargs⟩ := h
  refine ⟨id, sym, rfl, hs, hk, ?_, ?_⟩
  · show (listed .expressionList (Node.list .expressionList args)).length = _
    rw [listed_arguments ha, hlen]
  · intro i arg param harg hparam
    have hl : listed .expressionList (Node.list .expressionList args) = args :=
      listed_arguments ha
    change (listed .expressionList (Node.list .expressionList args))[i]? = some arg at harg
    rw [hl] at harg
    have hzip : (args.zip sym.parameters)[i]? = some (arg, param) := by
      rw [List.getElem?_zip_eq_some]
      exact ⟨harg, hparam⟩
    exact hargs (arg, param) (List.mem_of_getElem? hzip)

theorem IsExpression.follows (h : s.IsExpression names n) : n.All (s.Follows ret) := by
  induction h with
  | integer | real | reference =>
    exact Node.all_leaf (follows_ruleless (by decide))
  | truth hk =>
    refine Node.all_leaf (follows_ruleless ?_)
    rcases hk with rfl | rfl <;> decide
  | @call text id args t hn hc ht hv ha ih =>
    have hm : ∀ m ∈ args, s.IsValue m := fun m hm => (ha m hm).isValue
    have hvoid : ¬ s.Typed (.mk .call (some text) (some id) (Node.list .expressionList args) none
        none) .void := fun h => hv.ne_void (Typed.unique ⟨id, rfl, ht⟩ h)
    refine Node.all_left ⟨⟨hc.calls ha, hvoid⟩, ?_, nofun⟩ ?_
    · intro m hmem
      change m ∈ listed .expressionList (Node.list .expressionList args) at hmem
      rw [listed_arguments ha] at hmem
      exact hm m hmem
    · exact follows_list (by decide) ih
  | @not id n hn hb ht ih =>
    exact Node.all_left ⟨⟨n, rfl, hb, id, rfl, ht⟩, isValue_one hn.isValue, nofun⟩
      (Node.allIn_some ih)
  | logical hk hl hr tl tr ht ihl ihr =>
    exact Node.all_two (follows_logical hk (isValue_two hl.isValue hr.isValue) tl tr ht) ihl ihr
  | arithmetic hk hl hr tl tr nt nu ht ihl ihr =>
    exact Node.all_two (follows_arithmetic hk (isValue_two hl.isValue hr.isValue) tl tr nt nu ht)
      ihl ihr
  | relation hk hl hr tl tr hc ht ihl ihr =>
    exact Node.all_two (follows_relation hk (isValue_two hl.isValue hr.isValue) tl tr hc ht) ihl ihr

/-! ## Statements -/

theorem all_leaf (hk : k ∈ ruleless) : (Node.mk k v sym none none none).All (s.Follows ret) :=
  Node.all_leaf (follows_ruleless hk)

theorem IsVariable.changes {t : DataType} (h : s.IsVariable id t)
    (hm : ∀ sym, s.symbol? id = some sym → sym.isImmutable = false) :
    s.Changes (variableNode text id) := by
  obtain ⟨sym, hs, -⟩ := h
  exact ⟨id, sym, rfl, hs, hm sym hs⟩

theorem IsAssignment.follows (h : s.IsAssignment names n) : n.All (s.Follows ret) := by
  obtain @⟨k, text, id, value, t, hk, hn, hv, hm, he, tv, hc⟩ := h
  have ha : ∀ k, s.Assigns (.mk k none (some id) (some (variableNode text id)) none (some value)) t :=
    fun _ => ⟨_, rfl, hv.changes hm, _, _, rfl, rfl, ⟨id, rfl, hv.hasType⟩, tv⟩
  have hone := isValue_one he.isValue
  refine Node.all_two ?_ (all_leaf (by decide)) he.follows
  rcases hk with rfl | hk
  · exact ⟨⟨t, ha _⟩, hone, nofun⟩
  · have nt := (isNumeric_iff t).1 (hc hk)
    fin_cases hk <;> exact ⟨⟨t, ha _, nt⟩, hone, nofun⟩

theorem IsPrintEntry.isValue (h : s.IsPrintEntry names n) : s.IsValue n := by
  cases h with
  | string hp hs => exact ⟨.string, ⟨_, rfl, hs.hasType nofun rfl⟩, nofun⟩
  | value h => exact h.isValue

theorem IsPrintEntry.follows (h : s.IsPrintEntry names n) : n.All (s.Follows ret) := by
  cases h with
  | string => exact all_leaf (by decide)
  | value h => exact h.follows

theorem IsReturn.follows {value : Option Node} (h : s.IsReturn names ret value) :
    (Node.mk .returns none none value none none).All (s.Follows ret) := by
  cases h with
  | main =>
    exact Node.all_leaf ⟨trivial, fun m hm => absurd hm List.not_mem_nil, fun _ => rfl⟩
  | void =>
    exact Node.all_leaf ⟨trivial, fun m hm => absurd hm List.not_mem_nil, fun _ => rfl⟩
  | @value t value hv he ht =>
    refine Node.all_left ⟨trivial, isValue_one he.isValue, fun _ => ?_⟩ (Node.allIn_some he.follows)
    cases t with
    | void => exact absurd rfl hv
    | _ => exact ⟨value, rfl, ht⟩

theorem IsStatement.follows (h : s.IsStatement names ret n) : n.All (s.Follows ret) := by
  induction h with
  | assignment h => exact h.follows
  | @forLoop scope start body test hs ha he ht hb ih =>
    refine Node.all_mk ⟨⟨test, rfl, ht⟩, isValue_one he.isValue, nofun⟩ ?_
      (Node.allIn_some he.follows) ?_
    · exact follows_list (by decide) fun n hn => (ha n hn).follows
    · exact follows_list (by decide) ih
  | @ifThen scope body test hs he ht hb ih =>
    refine Node.all_mk ⟨⟨test, rfl, ht⟩, isValue_one he.isValue, nofun⟩
      (Node.allIn_some he.follows) ?_ Node.allIn_none
    exact follows_list (by decide) ih
  | @ifElse scope body otherwise test hs he ht hb ho ihb iho =>
    refine Node.all_mk ⟨⟨test, rfl, ht⟩, isValue_one he.isValue, nofun⟩
      (Node.allIn_some he.follows) ?_ ?_
    · exact follows_list (by decide) ihb
    · exact follows_list (by decide) iho
  | @repeatLoop scope start body test hs ha he ht hb ih =>
    refine Node.all_mk ⟨⟨test, rfl, ht⟩, isValue_one he.isValue, nofun⟩ ?_ ?_
      (Node.allIn_some he.follows)
    · exact follows_list (by decide) fun n hn => (ha n hn).follows
    · exact follows_list (by decide) ih
  | @input targets hne ht =>
    have hl : listed .variableList (Node.list .variableList targets) = targets :=
      Node.listed_list fun m hm => (ht m hm).kind_ne
    refine Node.all_left ⟨fun m hm => ?_, fun m hm => absurd hm List.not_mem_nil, nofun⟩ ?_
    · change m ∈ listed .variableList (Node.list .variableList targets) at hm
      rw [hl] at hm
      obtain ⟨hn, hv, hmut, hnum⟩ := ht m hm
      refine ⟨hv.changes hmut, ?_⟩
      rcases (isNumeric_iff _).1 hnum with rfl | rfl
      · exact .inl ⟨_, rfl, hv.hasType⟩
      · exact .inr ⟨_, rfl, hv.hasType⟩
    · refine follows_list (by decide) fun m hm => ?_
      obtain ⟨hn, hv, hmut, hnum⟩ := ht m hm
      exact all_leaf (by decide)
  | @print k entries hk hne he =>
    have hl : listed .printList (Node.list .printList entries) = entries :=
      Node.listed_list fun m hm => Node.kind_ne_of_not_list (he m hm).not_list rfl
    have hy : ∀ m ∈ listed .printList (Node.list .printList entries), s.IsValue m := by
      rw [hl]
      exact fun m hm => (he m hm).isValue
    refine Node.all_left ?_ ?_
    · rcases hk with rfl | rfl <;> exact ⟨trivial, hy, nofun⟩
    · exact follows_list (by decide) fun m hm => (he m hm).follows
  | returns h => exact h.follows
  | @call text id args hn hc ha =>
    refine Node.all_left ⟨hc.calls ha, ?_, nofun⟩ ?_
    · intro m hm
      change m ∈ listed .expressionList (Node.list .expressionList args) at hm
      rw [listed_arguments ha] at hm
      exact (ha m hm).isValue
    · exact follows_list (by decide) fun m hm => (ha m hm).follows

theorem IsBlock.follows {body : Option Node} (h : s.IsBlock names ret body) :
    Node.AllIn (s.Follows ret) body := by
  obtain ⟨ns, rfl, hns⟩ := h
  exact follows_list (by decide) fun m hm => (hns m hm).follows

end Scopes

namespace Outline

open Scopes

variable {o : Outline} {s : Scopes} {ret : Option DataType}

theorem follows_entries (entries : List Entry) {k : Node.Kind} (hk : k ∈ ruleless) :
    Node.AllIn (s.Follows ret) (Node.list k (entries.map Entry.node)) := by
  refine follows_list hk fun n hn => ?_
  obtain ⟨e, -, rfl⟩ := List.mem_map.1 hn
  exact all_leaf (by decide)

theorem IsTypeDefinition.follows {visible : List Entry} {e : Entry} {n : Node}
    (h : IsTypeDefinition s visible e n) : n.All (s.Follows ret) := by
  cases h with
  | @array element length hl ht =>
    exact Node.all_two ⟨⟨length, rfl, ht⟩, isValue_one hl.isValue, nofun⟩ hl.follows
      (all_leaf (by decide))
  | record fields =>
    exact Node.all_left (follows_ruleless (by decide)) (follows_entries fields (by decide))

theorem Valid.follows_globals (h : o.Valid s) : o.globalsNode.All (s.Follows ret) := by
  refine Node.all_mk (follows_ruleless (by decide)) ?_ ?_ ?_
  · refine follows_list (by decide) fun n hn => ?_
    obtain ⟨c, hc, rfl⟩ := List.mem_map.1 hn
    obtain ⟨k, hk⟩ := List.mem_iff_getElem?.1 hc
    obtain ⟨he, t, ht, hv⟩ := h.constants.values k c hk
    exact Node.all_left ⟨⟨c.value, t, rfl, ht, c.id, rfl, hv.hasType⟩, isValue_one he.isValue, nofun⟩
      (Node.allIn_some he.follows)
  · obtain ⟨types, arrays, ns, -, hns, hdefs, -⟩ := h.definitions
    rw [hns]
    refine follows_list (by decide) fun n hn => ?_
    obtain ⟨visible, e, hdef⟩ := hdefs.of_mem hn
    exact hdef.follows
  · obtain ⟨types, arrays, ns, -, -, -, harrays⟩ := h.definitions
    rw [harrays]
    refine follows_list (by decide) fun n hn => ?_
    obtain ⟨e, -, rfl⟩ := List.mem_map.1 hn
    exact all_leaf (by decide)

theorem Function.Valid.follows {f : Function} {visible : List Entry} (h : f.Valid s visible) :
    f.node.All (s.Follows (some f.ret)) :=
  Node.all_mk (follows_ruleless (by decide)) (follows_entries f.params (by decide))
    (follows_entries f.locals (by decide)) h.body.follows

theorem Valid.follows_main (h : o.Valid s) : o.mainNode.All (s.Follows none) :=
  Node.all_mk (follows_ruleless (by decide)) (follows_entries o.vars (by decide))
    Node.allIn_none h.body.follows

theorem Valid.all_root (h : o.Valid s) {P : Node → Prop}
    (hP : ∀ ret n, s.Follows ret n → P n) : o.root.All P := by
  refine Node.all_mk (hP none _ (follows_ruleless (by decide)))
    (Node.allIn_some (h.follows_globals.imp (hP none))) ?_
    (Node.allIn_some (h.follows_main.imp (hP none)))
  refine Node.allIn_list (fun n hn => ?_) fun _ _ => hP none _ (follows_ruleless (by decide))
  obtain ⟨f, hf, rfl⟩ := List.mem_map.1 hn
  obtain ⟨k, hk⟩ := List.mem_iff_getElem?.1 hf
  exact (h.functions k f hk).follows.imp (hP (some f.ret))

theorem Valid.wellTypedTree (h : o.Valid s) : s.WellTypedTree o.root where
  nodes := h.all_root fun _ _ hn => hn.wellTyped
  values := h.all_root fun _ _ hn => hn.yields
  functions f hf := by
    rw [o.functionNodes_root] at hf
    obtain ⟨f, hmem, rfl⟩ := List.mem_map.1 hf
    obtain ⟨k, hk⟩ := List.mem_iff_getElem?.1 hmem
    have hv := h.functions k f hk
    obtain ⟨sym, hs, hkind, -, -, hattr⟩ := hv.symbol
    refine ⟨f.id, sym, f.ret, rfl, hs, hkind, ?_, hv.follows.imp fun _ hn => hn.returns⟩
    have hparams : ∀ ids : List Symbol.Id,
        (ids.map Symbol.Attribute.parameter ++ [Symbol.Attribute.returnType f.ret]).findSome?
          Symbol.Attribute.returnType? = some f.ret := by
      intro ids
      induction ids with
      | nil => rfl
      | cons id ids ih => exact ih
    rw [Symbol.returnType?, hattr]
    exact hparams _
  others :=
    ⟨Node.allIn_some (h.follows_globals.imp fun _ hn => hn.returns),
      Node.allIn_some (h.follows_main.imp fun _ hn => hn.returns)⟩

end Outline

/-- The tree of an accepted source is well typed. -/
theorem parse_wellTyped {source : String} {root : Node}
    (h : (parseSource source .empty).root = some root) :
    (parseSource source .empty).scopes.WellTypedTree root := by
  obtain ⟨o, rfl, ho⟩ := Parser.parseSource_outline h
  exact ho.wellTypedTree

/-- A program with a constant and a function that compares with it. -/
def typedSource : String :=
  "CD20 p constants c = 2 func f(x : int) : bool begin return x > c; end main begin f(1); end CD20 p"

theorem parse_wellTyped_typed : ∃ root, (parseSource typedSource .empty).root = some root ∧
    root.functionNodes.length = 1 ∧ (parseSource typedSource .empty).scopes.WellTypedTree root := by
  have h : ((parseSource typedSource .empty).root.any fun root =>
      root.functionNodes.length = 1) = true := by
    rw [parseSource, tokensOf_chars typedSource rfl]
    decide +kernel
  obtain ⟨root, hr, hf⟩ := (Option.any_eq_true _ _).1 h
  exact ⟨root, hr, of_decide_eq_true hf, parse_wellTyped hr⟩

end StackCompiler
