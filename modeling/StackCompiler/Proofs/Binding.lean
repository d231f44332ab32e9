import StackCompiler.Proofs.Slots
import StackCompiler.Proofs.Subtrees

/-!
# What names stand for

Scoping is lexical. A name in a function stands for what the function declares under it, and
otherwise for what is declared globally before the body of the function; likewise in main. What
comes before the functions can use the named constants declared before it.
-/

namespace StackCompiler

/-- Nodes that use a name: variables, which are also the targets of assignments and input, and
calls. -/
def Node.Kind.uses : List Node.Kind := [.reference, .call, .callStatement]

def Node.Kind.assignments : List Node.Kind := .assign :: Node.Kind.compoundAssignments

/-- The names mean what the symbols of the node say. -/
structure Scopes.Binds (s : Scopes) (names : Names) (n : Node) : Prop where
  use : n.kind ∈ Node.Kind.uses → ∃ text id, n.value = some text ∧ n.symbol = some id ∧
    names text = some id ∧ if n.kind = .reference then ∃ t, s.IsVariable id t else s.IsFunction id
  /-- An assignment goes to the variable that it names. -/
  target : n.kind ∈ Node.Kind.assignments →
    ∃ m, n.left = some m ∧ m.kind = .reference ∧ n.symbol = m.symbol

namespace Scopes

variable {s : Scopes} {names : Names} {ret : Option DataType} {n : Node}

theorem binds_other {k : Node.Kind} {v : Option String} {sym : Option Symbol.Id}
    {l c r : Option Node} (hk : k ∉ Node.Kind.uses ++ Node.Kind.assignments) :
    s.Binds names (.mk k v sym l c r) :=
  ⟨fun h => absurd (List.mem_append_left _ h) hk, fun h => absurd (List.mem_append_right _ h) hk⟩

theorem binds_chain (k : Node.Kind) (a m : Node) (hk : k.isList = true) :
    s.Binds names (.binary k a m) := by
  refine binds_other fun h => ?_
  exact absurd hk ((by decide : ∀ k ∈ Node.Kind.uses ++ Node.Kind.assignments,
    k.isList ≠ true) k h)

theorem IsExpression.binds (h : s.IsExpression names n) : s.Binds names n := by
  cases h with
  | integer | real | not => exact binds_other (by decide)
  | truth hk => rcases hk with rfl | rfl <;> exact binds_other (by decide)
  | reference hn hv => exact ⟨fun _ => ⟨_, _, rfl, rfl, hn, _, hv⟩, nofun⟩
  | call hn hc => exact ⟨fun _ => ⟨_, _, rfl, rfl, hn, hc.isFunction⟩, nofun⟩
  | logical hk | arithmetic hk | relation hk =>
    exact binds_other ((by decide : ∀ k ∈ Node.Kind.logical ++ Node.Kind.arithmetic ++
      Node.Kind.relations, k ∉ Node.Kind.uses ++ Node.Kind.assignments) _ (by simp [hk]))

theorem IsPrintEntry.binds (h : s.IsPrintEntry names n) : s.Binds names n := by
  cases h with
  | string => exact binds_other (by decide)
  | value h => exact h.binds

theorem IsStatement.binds (h : s.IsStatement names ret n) : s.Binds names n := by
  cases h with
  | assignment h =>
    obtain ⟨hk, -, -, -, -, -, -⟩ := h
    refine ⟨fun hu => ?_, fun _ => ⟨_, rfl, rfl, rfl⟩⟩
    exact absurd hu ((by decide : ∀ k ∈ Node.Kind.assignments, k ∉ Node.Kind.uses) _
      (by simpa [Node.Kind.assignments, Node.kind] using hk))
  | print hk => rcases hk with rfl | rfl <;> exact binds_other (by decide)
  | call hn hc =>
    refine ⟨fun _ => ⟨_, _, rfl, rfl, hn, hc.isFunction⟩, fun hk => absurd hk ?_⟩
    show Node.Kind.callStatement ∉ Node.Kind.assignments
    decide
  | _ => exact binds_other (by decide)

theorem namesOf_singleton (l : List Entry) (name : String) : namesOf [l] name = l.lookup name := by
  simp only [namesOf, List.findSome?_cons, List.findSome?_nil]
  cases l.lookup name <;> rfl

theorem IsExpression.all_binds (h : s.IsExpression names n) : n.All (s.Binds names) :=
  h.all (fun _ h => h.binds) binds_chain

theorem IsBlock.all_binds {b : Option Node} (h : s.IsBlock names ret b) :
    Node.AllIn (s.Binds names) b :=
  h.all (fun _ h => h.binds) (fun _ h => h.binds) binds_chain

end Scopes

/-- The parts of a program that use names: the values of named constants, the lengths of arrays,
and the bodies of functions and of main. -/
inductive Site where
  | constant (k : Nat) | length (k : Nat) | function (k : Nat) | main
deriving DecidableEq

namespace Node

def bindings (ns : List Node) : List Entry :=
  ns.filterMap fun n => n.value.bind fun text => n.symbol.map fun id => (text, id)

/-- What is declared globally before the body of the `k`-th function, in order. -/
def globalsBefore (root : Node) (k : Nat) : List Node :=
  root.constantNodes ++ root.typeNodes ++ root.arrayNodes ++ root.functionNodes.take (k + 1)

end Node

namespace Site

def tree (root : Node) : Site → Option Node
  | constant k => root.constantNodes[k]?.bind Node.left
  | length k => (root.typeNodes[k]?.filter fun t => t.kind = .arrayDef).bind Node.left
  | function k => root.functionNodes[k]?.bind Node.right
  | main => root.right.bind Node.right

/-- The names in sight, those of the innermost scope first. -/
def scopes (root : Node) : Site → List (List Entry)
  | constant k => [Node.bindings (root.constantNodes.take k)]
  | length _ => [Node.bindings root.constantNodes]
  | function k =>
    [Node.bindings ((root.functionNodes[k]?.map Node.frameNodes).getD []),
      Node.bindings (root.globalsBefore k)]
  | main =>
    [Node.bindings root.variableNodes, Node.bindings (root.globalsBefore root.functionNodes.length)]

end Site

/-- The scoping of a program is lexical. -/
structure LexicalScoping (s : Scopes) (root : Node) : Prop where
  /-- Every use of a name has the symbol that the names in sight give it. -/
  binds : ∀ site : Site, Node.AllIn (s.Binds (Scopes.namesOf (site.scopes root))) (site.tree root)
  /-- No scope declares a name twice. -/
  unique : ∀ site : Site, ∀ l ∈ site.scopes root, (l.map Prod.fst).Nodup
  /-- Names are used nowhere else. -/
  sites : ∀ n ∈ root.nodes, n.kind ∈ Node.Kind.uses → ∃ (site : Site) (t : Node),
    site.tree root = some t ∧ n ∈ t.nodes
  /-- No use is bound to a field of a record. -/
  fields : ∀ n ∈ root.nodes, n.kind ∈ Node.Kind.uses → ∀ t ∈ root.typeNodes, t.kind = .structDef →
    ∀ d ∈ t.fieldNodes, n.symbol ≠ d.symbol
  /-- No use is bound to a parameter or a local of a function that it does not lie in. -/
  foreign : ∀ (site : Site) (t : Node), site.tree root = some t → ∀ n ∈ t.nodes,
    n.kind ∈ Node.Kind.uses → ∀ (k : Nat) (f : Node), root.functionNodes[k]? = some f →
    site ≠ .function k → ∀ d ∈ f.frameNodes, n.symbol ≠ d.symbol

theorem Node.bindings_eq {ns : List Node} {es : List Entry} (hl : ns.length = es.length)
    (h : ∀ (k : Nat) n e, ns[k]? = some n → es[k]? = some e →
      n.value = some e.1 ∧ n.symbol = some e.2) : bindings ns = es := by
  induction ns generalizing es with
  | nil => exact (List.eq_nil_of_length_eq_zero hl.symm).symm
  | cons n ns ih =>
    cases es with
    | nil => cases hl
    | cons e es =>
      obtain ⟨hv, hs⟩ := h 0 n e rfl rfl
      have hrest := ih (Nat.succ.inj hl) fun k n e hn he => h (k + 1) n e hn he
      rw [bindings] at hrest ⊢
      simp only [List.filterMap_cons, hv, hs, Option.bind_some, Option.map_some, hrest]

theorem Node.bindings_map {γ : Type} {f : γ → Node} {g : γ → Entry} (l : List γ)
    (h : ∀ x, (f x).value = some (g x).1 ∧ (f x).symbol = some (g x).2) :
    bindings (l.map f) = l.map g := by
  refine bindings_eq (by simp) fun k n e hn he => ?_
  rw [List.getElem?_map, Option.map_eq_some_iff] at hn he
  obtain ⟨x, hx, rfl⟩ := hn
  obtain ⟨y, hy, rfl⟩ := he
  obtain rfl := Option.some.inj (hx.symm.trans hy)
  exact h x

theorem Node.bindings_append (ms ns : List Node) :
    bindings (ms ++ ns) = bindings ms ++ bindings ns := List.filterMap_append

namespace Outline

variable {o : Outline} {s : Scopes} {root : Node} {k : Node.Kind} {site : Site}

theorem bindings_constants (k : Nat) : Node.bindings (o.root.constantNodes.take k) =
    (o.constants.take k).map Constant.entry := by
  rw [o.constantNodes_root, ← List.map_take]
  exact Node.bindings_map _ fun c => ⟨rfl, rfl⟩

theorem bindings_entries (entries : List Entry) :
    Node.bindings (entries.map Entry.node) = entries := by
  rw [Node.bindings_map (g := id) entries fun e => ⟨rfl, rfl⟩, List.map_id]

theorem bindings_frame (f : Function) : Node.bindings f.node.frameNodes = f.entries := by
  rw [Node.frameNodes, f.parameterNodes_node, f.localNodes_node, Node.bindings_append,
    bindings_entries, bindings_entries]
  rfl

theorem Valid.bindings_globals (h : o.Valid s) (k : Nat) :
    Node.bindings (o.root.globalsBefore k) = o.globals (k + 1) := by
  obtain ⟨types, arrays, htypes, hdefs, harrays⟩ := h.typeNodes_root
  have hconstants := bindings_constants (o := o) o.root.constantNodes.length
  rw [List.take_length, o.constantNodes_root, List.length_map, List.take_length,
    ← o.constantNodes_root] at hconstants
  have htype : Node.bindings o.root.typeNodes = types := by
    refine Node.bindings_eq hdefs.1 fun k n e hn he => ?_
    cases hdefs.2 k e n he hn <;> exact ⟨rfl, rfl⟩
  have harray : Node.bindings o.root.arrayNodes = arrays := by
    rw [harrays, Node.bindings_map (g := id) arrays fun e => ⟨rfl, rfl⟩, List.map_id]
  have hfunction : Node.bindings (o.root.functionNodes.take (k + 1)) =
      (o.functions.take (k + 1)).map Function.entry := by
    rw [o.functionNodes_root, ← List.map_take]
    exact Node.bindings_map _ fun f => ⟨rfl, rfl⟩
  rw [Node.globalsBefore, Node.bindings_append, Node.bindings_append, Node.bindings_append,
    hconstants, htype, harray, hfunction, globals, htypes, List.append_assoc (o.constants.map _)]

/-! ## Names in sight -/

theorem Valid.names_function (h : o.Valid s) {k : Nat} {f : Function}
    (hk : o.functions[k]? = some f) :
    (Site.function k).scopes o.root = [f.entries, o.globals (k + 1)] := by
  rw [Site.scopes, o.functionNodes_root, List.getElem?_map, hk, h.bindings_globals]
  simp only [Option.map_some, Option.getD_some, bindings_frame]

theorem Valid.names_main (h : o.Valid s) :
    Site.main.scopes o.root = [o.vars, o.globals o.functions.length] := by
  rw [Site.scopes, o.variableNodes_root, bindings_entries, h.bindings_globals, o.functionNodes_root,
    List.length_map, globals, globals, List.take_length, List.take_of_length_le (Nat.le_succ _)]

theorem names_constant (k : Nat) :
    (Site.constant k).scopes o.root = [(o.constants.take k).map Constant.entry] := by
  rw [Site.scopes, bindings_constants]

theorem names_length (k : Nat) :
    (Site.length k).scopes o.root = [o.constants.map Constant.entry] := by
  rw [Site.scopes, o.constantNodes_root,
    Node.bindings_map (g := Constant.entry) _ fun c => ⟨rfl, rfl⟩]

theorem Valid.not_type (h : o.Valid s) {e : Entry} (he : e ∈ o.types) :
    ¬ s.IsFunction e.2 ∧ ∀ t, ¬ s.IsVariable e.2 t := by
  obtain ⟨sym, hs, -, hk, -⟩ := h.types e he
  refine ⟨fun ⟨sym', hs', hf⟩ => ?_, fun t ⟨sym', hs', hv⟩ => ?_⟩
  · obtain rfl := Option.some.inj (hs.symm.trans hs')
    simp [hf] at hk
  · obtain rfl := Option.some.inj (hs.symm.trans hs')
    exact hk.elim hv.not_type hv.not_array

/-- Where named constants and types are in sight, only the constants can be used. -/
theorem Valid.binds_constants (h : o.Valid s) {types : List Entry} (hsub : ∀ e ∈ types, e ∈ o.types)
    {n : Node}
    (hn : s.Binds (Scopes.namesOf [o.constants.map Constant.entry ++ types]) n) :
    s.Binds (Scopes.namesOf [o.constants.map Constant.entry]) n := by
  refine ⟨fun hu => ?_, hn.target⟩
  obtain ⟨text, id, hv, hs, hname, hkind⟩ := hn.use hu
  refine ⟨text, id, hv, hs, ?_, hkind⟩
  rw [Scopes.namesOf_singleton, List.lookup_append] at hname
  rw [Scopes.namesOf_singleton]
  cases hc : (o.constants.map Constant.entry).lookup text with
  | some id' => simpa [hc] using hname
  | none =>
    -- a type of that name would have to be a variable or a function
    have ht : types.lookup text = some id := by simpa [hc] using hname
    obtain ⟨l₁, l₂, rfl, -⟩ := List.lookup_eq_some_iff.1 ht
    obtain ⟨hfun, hvar⟩ := h.not_type (hsub (text, id) (by simp))
    split at hkind
    · obtain ⟨t, ht⟩ := hkind
      exact absurd ht (hvar t)
    · exact absurd hkind hfun

theorem Valid.binds (h : o.Valid s) (site : Site) :
    Node.AllIn (s.Binds (Scopes.namesOf (site.scopes o.root))) (site.tree o.root) := by
  cases site with
  | constant k =>
    rw [names_constant, Site.tree, o.constantNodes_root, List.getElem?_map]
    cases hk : o.constants[k]? with
    | none => exact Node.allIn_none
    | some c => exact Node.allIn_some (h.constants.values k c hk).1.all_binds
  | length k =>
    obtain ⟨types, arrays, htypes, hdefs, -⟩ := h.typeNodes_root
    rw [names_length, Site.tree]
    cases hk : o.root.typeNodes[k]? with
    | none => exact Node.allIn_none
    | some t =>
      have hlt : k < types.length := hdefs.1 ▸ (List.getElem?_eq_some_iff.1 hk).1
      cases hdefs.2 k _ t (List.getElem?_eq_getElem hlt) hk with
      | array element hl ht =>
        refine Node.allIn_some (hl.all_binds.imp fun n => h.binds_constants fun e he => ?_)
        rw [htypes]
        exact List.mem_append_left _ (List.mem_of_mem_take he)
      | record => exact Node.allIn_none
  | function k =>
    cases hk : o.functions[k]? with
    | none =>
      rw [Site.tree, o.functionNodes_root, List.getElem?_map, hk]
      exact Node.allIn_none
    | some f =>
      rw [h.names_function hk, Site.tree, o.functionNodes_root, List.getElem?_map, hk]
      exact (h.functions k f hk).body.all_binds
  | main =>
    rw [h.names_main]
    exact h.body.all_binds

theorem globals_sublist (k : Nat) : (o.globals k).Sublist (o.globals o.functions.length) := by
  rw [globals, globals, List.take_length]
  exact (List.Sublist.refl _).append ((List.take_sublist k o.functions).map _)

/-- A scope in sight at a site is global, or that of the function or of main that it lies in. -/
theorem Valid.scope_of_site (h : o.Valid s) {l : List Entry} (hl : l ∈ site.scopes o.root) :
    (∃ k, l.Sublist (o.globals k)) ∨
      (∃ (k : Nat) (f : Function), site = .function k ∧ o.functions[k]? = some f ∧ l = f.entries) ∨
      l = o.vars := by
  have hconstants : (o.constants.map Constant.entry).Sublist (o.globals 0) := by
    rw [globals, List.append_assoc]
    exact List.sublist_append_left _ _
  cases site with
  | constant k =>
    rw [names_constant, List.mem_singleton] at hl
    rw [hl]
    exact .inl ⟨0, ((List.take_sublist k o.constants).map _).trans hconstants⟩
  | length k =>
    rw [names_length, List.mem_singleton] at hl
    rw [hl]
    exact .inl ⟨0, hconstants⟩
  | function k =>
    cases hk : o.functions[k]? with
    | none =>
      -- there is no such function, so its own scope is empty
      rw [Site.scopes, o.functionNodes_root, List.getElem?_map, hk, h.bindings_globals] at hl
      rcases List.mem_cons.1 hl with rfl | hl
      · exact .inl ⟨0, List.nil_sublist _⟩
      · rw [List.mem_singleton.1 hl]
        exact .inl ⟨k + 1, List.Sublist.refl _⟩
    | some f =>
      rw [h.names_function hk] at hl
      rcases List.mem_cons.1 hl with rfl | hl
      · exact .inr (.inl ⟨k, f, rfl, hk, rfl⟩)
      · rw [List.mem_singleton.1 hl]
        exact .inl ⟨k + 1, List.Sublist.refl _⟩
  | main =>
    rw [h.names_main] at hl
    rcases List.mem_cons.1 hl with rfl | hl
    · exact .inr (.inr rfl)
    · rw [List.mem_singleton.1 hl]
      exact .inl ⟨_, List.Sublist.refl _⟩

theorem Valid.unique (h : o.Valid s) (site : Site) :
    ∀ l ∈ site.scopes o.root, (l.map Prod.fst).Nodup := by
  intro l hl
  rcases h.scope_of_site hl with ⟨k, hsub⟩ | ⟨k, f, -, hk, rfl⟩ | rfl
  · obtain ⟨t, -, -, hlists⟩ := h.global
    exact hlists.nodup.sublist ((hsub.trans (globals_sublist k)).map _)
  · obtain ⟨i, t, -, -, -, hlists⟩ := (h.functions k f hk).scope
    exact hlists.nodup
  · obtain ⟨i, t, -, -, -, hlists⟩ := h.main
    exact hlists.nodup

/-- A node that uses a name lies in one of the sites. -/
def InSite (root n : Node) : Prop :=
  n.kind ∈ Node.Kind.uses → ∃ (site : Site) (t : Node), site.tree root = some t ∧ n ∈ t.nodes

theorem inSite_other {v : Option String} {sym : Option Symbol.Id} {l c r : Option Node}
    (hk : k ∉ Node.Kind.uses) : InSite root (.mk k v sym l c r) :=
  fun h => absurd h hk

theorem inSite_tree {t : Node} (h : site.tree root = some t) : t.All (InSite root) :=
  fun _ hn _ => ⟨site, t, h, hn⟩

theorem inSite_list {items : List Node} (hk : k ∉ Node.Kind.uses)
    (h : ∀ n ∈ items, n.All (InSite root)) : Node.AllIn (InSite root) (Node.list k items) :=
  Node.allIn_list h fun _ _ => inSite_other hk

theorem inSite_entries (hk : k ∉ Node.Kind.uses) (entries : List Entry) :
    Node.AllIn (InSite root) (Node.list k (entries.map Entry.node)) := by
  refine inSite_list hk fun n hn => ?_
  obtain ⟨e, -, rfl⟩ := List.mem_map.1 hn
  exact Node.all_leaf (inSite_other (by decide))

theorem Valid.inSite_globals (h : o.Valid s) : o.globalsNode.All (InSite o.root) := by
  obtain ⟨types, arrays, ns, -, hns, hdefs, harrays⟩ := h.definitions
  refine Node.all_mk (inSite_other (by decide)) ?_ ?_ ?_
  · refine inSite_list (by decide) fun n hn => ?_
    obtain ⟨c, hc, rfl⟩ := List.mem_map.1 hn
    obtain ⟨k, hk⟩ := List.mem_iff_getElem?.1 hc
    have htree : (Site.constant k).tree o.root = some c.value := by
      rw [Site.tree, o.constantNodes_root, List.getElem?_map, hk]
      rfl
    exact Node.all_left (inSite_other (by decide)) (Node.allIn_some (inSite_tree htree))
  · rw [hns]
    refine inSite_list (by decide) fun n hn => ?_
    obtain ⟨k, hk⟩ := List.mem_iff_getElem?.1 hn
    have hnode : o.root.typeNodes[k]? = some n := by
      rw [hdefs.typeNodes hns, hk]
    obtain ⟨visible, e, hdef⟩ := hdefs.of_mem hn
    cases hdef with
    | @array element length hl ht =>
      have htree : (Site.length k).tree o.root = some length := by
        rw [Site.tree, hnode]
        rfl
      exact Node.all_two (inSite_other (by decide)) (inSite_tree htree)
        (Node.all_leaf (inSite_other (by decide)))
    | record fields =>
      exact Node.all_left (inSite_other (by decide)) (inSite_entries (by decide) fields)
  · rw [harrays]
    refine inSite_list (by decide) fun n hn => ?_
    obtain ⟨e, -, rfl⟩ := List.mem_map.1 hn
    exact Node.all_leaf (inSite_other (by decide))

theorem Valid.inSite (h : o.Valid s) : o.root.All (InSite o.root) := by
  have hbody (site : Site) {b : Option Node} (hb : site.tree o.root = b) :
      Node.AllIn (InSite o.root) b := fun t ht => inSite_tree (hb.trans ht)
  refine Node.all_mk (inSite_other (by decide)) (Node.allIn_some h.inSite_globals) ?_ ?_
  · refine inSite_list (by decide) fun n hn => ?_
    obtain ⟨f, hf, rfl⟩ := List.mem_map.1 hn
    obtain ⟨k, hk⟩ := List.mem_iff_getElem?.1 hf
    refine Node.all_mk (inSite_other (by decide)) (inSite_entries (by decide) f.params)
      (inSite_entries (by decide) f.locals) (hbody (.function k) ?_)
    rw [Site.tree, o.functionNodes_root, List.getElem?_map, hk]
    rfl
  · exact Node.allIn_some (Node.all_mk (inSite_other (by decide))
      (inSite_entries (by decide) o.vars) Node.allIn_none (hbody .main rfl))

end Outline

/-! ## Symbols of other scopes -/

theorem Scopes.Valid.scope_eq {s : Scopes} (h : s.Valid) {a b : String} {l m : List Entry}
    {e e' : Entry} (ha : s.HasTable a l) (hb : s.HasTable b m) (he : e ∈ l) (he' : e' ∈ m)
    (hid : e.2 = e'.2) : a = b := by
  obtain ⟨i, t, -, hi, ht, hlt⟩ := ha
  obtain ⟨j, u, -, hj, hu, hmu⟩ := hb
  have hij : i = j := h.disjoint i j t u e.1 e'.1 e.2 ht hu (hlt.resolve_of_mem he)
    (hid ▸ hmu.resolve_of_mem he')
  subst hij
  obtain ⟨t', ht', hscope⟩ := h.indexed a i hi
  obtain ⟨u', hu', hscope'⟩ := h.indexed b i hj
  obtain rfl : t' = u' := Option.some.inj (ht'.symm.trans hu')
  exact hscope.symm.trans hscope'

namespace Outline

variable {o : Outline} {s : Scopes} {n t : Node} {site : Site}

theorem Valid.scope_of_symbol (h : o.Valid s) {a : String} {l m : List Entry} {e e' : Entry}
    (hm : s.HasTable a m) (he : e ∈ m) (hl : l ∈ site.scopes o.root) (he' : e' ∈ l)
    (hid : e.2 = e'.2) :
    (∃ (k : Nat) (f : Function), site = .function k ∧ o.functions[k]? = some f ∧
      a = Parser.functionScope f.name) ∨ a = Parser.mainScope := by
  rcases h.scope_of_site hl with ⟨k, hsub⟩ | ⟨k, f, rfl, hk, rfl⟩ | rfl
  · -- tables share no symbols, and the global one has index 0
    obtain ⟨i, t, hne, -, ht, hlt⟩ := hm
    obtain ⟨u, -, hu, hlu⟩ := h.global
    have hglobal := hlu.resolve_of_mem ((hsub.trans (globals_sublist k)).subset he')
    have hi : i = 0 :=
      h.scopes.disjoint i 0 t u e.1 e'.1 e.2 ht hu (hlt.resolve_of_mem he) (hid ▸ hglobal)
    exact absurd hi hne
  · exact .inl ⟨k, f, rfl, hk, h.scopes.scope_eq hm (h.functions k f hk).scope he he' hid⟩
  · exact .inr (h.scopes.scope_eq hm h.main he he' hid)

theorem Valid.entry_of_use (h : o.Valid s) (ht : site.tree o.root = some t) (hn : n ∈ t.nodes)
    (hu : n.kind ∈ Node.Kind.uses) : ∃ l ∈ site.scopes o.root, ∃ e ∈ l, n.symbol = some e.2 := by
  obtain ⟨text, id, -, hs, hname, -⟩ := (h.binds site t ht n hn).use hu
  obtain ⟨l, hl, he⟩ := Scopes.mem_of_namesOf hname
  exact ⟨l, hl, (text, id), he, hs⟩

theorem Valid.not_field (h : o.Valid s) {d : Node} (hn : n ∈ o.root.nodes)
    (hu : n.kind ∈ Node.Kind.uses) (ht : t ∈ o.root.typeNodes) (hk : t.kind = .structDef)
    (hd : d ∈ t.fieldNodes) : n.symbol ≠ d.symbol := by
  obtain ⟨site, tree, htree, hn⟩ := h.inSite n hn hu
  obtain ⟨l, hl, e', he', hs⟩ := h.entry_of_use htree hn hu
  obtain ⟨types, arrays, -, hdefs, -⟩ := h.typeNodes_root
  obtain ⟨visible, record, hdef⟩ := hdefs.of_mem ht
  cases hdef with
  | array => cases hk
  | record fields htable hf =>
    obtain ⟨e, he, rfl⟩ := List.mem_map.1 (fieldNodes_record fields ▸ hd)
    intro heq
    have hid : e.2 = e'.2 := Option.some.inj (heq.symm.trans hs)
    rcases h.scope_of_symbol htable he hl he' hid with ⟨k, f, -, -, ha⟩ | ha
    · have hlist := congrArg String.toList ha
      simp [Parser.functionScope] at hlist
    · have hlist := congrArg String.toList ha
      simp [Parser.mainScope] at hlist

theorem Valid.not_foreign (h : o.Valid s) {f d : Node} {k : Nat} (ht : site.tree o.root = some t)
    (hn : n ∈ t.nodes) (hu : n.kind ∈ Node.Kind.uses) (hf : o.root.functionNodes[k]? = some f)
    (hne : site ≠ .function k) (hd : d ∈ f.frameNodes) : n.symbol ≠ d.symbol := by
  obtain ⟨l, hl, e', he', hs⟩ := h.entry_of_use ht hn hu
  rw [o.functionNodes_root, List.getElem?_map, Option.map_eq_some_iff] at hf
  obtain ⟨f, hf, rfl⟩ := hf
  have hframe : f.node.frameNodes = f.entries.map Entry.node := by
    rw [Node.frameNodes, f.parameterNodes_node, f.localNodes_node, Function.entries,
      List.map_append]
  rw [hframe] at hd
  obtain ⟨e, he, rfl⟩ := List.mem_map.1 hd
  intro heq
  have hid : e.2 = e'.2 := Option.some.inj (heq.symm.trans hs)
  rcases h.scope_of_symbol (h.functions k f hf).scope he hl he' hid with ⟨j, g, rfl, hj, ha⟩ | ha
  · -- functions with the same scope have the same name, so they are the same
    have hname : f.name = g.name := (String.append_right_inj _).1 ha
    have hlt : k < (o.functions.map Function.name).length := by
      rw [List.length_map]
      exact (List.getElem?_eq_some_iff.1 hf).1
    have hjk : k = j := (List.getElem?_inj hlt h.nodup_names).1 (by simp [hf, hj, hname])
    exact hne (hjk ▸ rfl)
  · have hlist := congrArg String.toList ha
    simp [Parser.functionScope, Parser.mainScope] at hlist

theorem Valid.lexicalScoping (h : o.Valid s) : LexicalScoping s o.root where
  binds := h.binds
  unique := h.unique
  sites := h.inSite
  fields _ hn hu _ ht hk _ hd := h.not_field hn hu ht hk hd
  foreign _ _ ht _ hn hu _ _ hf hne _ hd := h.not_foreign ht hn hu hf hne hd

end Outline

/-! ## Names without a meaning -/

namespace Parser

/-- A run of the parser, started in some state, comes to run `q` in the state `t`. -/
inductive Runs {β : Type} (q : Parser β) (t : State) : {α : Type} → Parser α → State → Prop
  | here : Runs q t q t
  | first {α γ : Type} {p : Parser α} {f : α → Parser γ} {s : State} (h : Runs q t p s) :
      Runs q t (p >>= f) s
  | next {α γ : Type} {p : Parser α} {f : α → Parser γ} {a : α} {s s' : State}
      (hp : p s = .ok a s') (h : Runs q t (f a) s') : Runs q t (p >>= f) s
  | group {α : Type} {p : Parser α} {s : State} (h : Runs q t p { s with depth := s.depth + 1 }) :
      Runs q t (grouped p) s
  | fix {α : Type} {body : Parser α → Parser α} {s : State}
      (h : Runs q t (body fun s' =>
        if s'.stream.remaining < s.stream.remaining then fix body s' else noProgress s') s) :
      Runs q t (fix body) s
  | again {α : Type} {body : Parser α → Parser α} {s : State} {n : Nat}
      (hlt : s.stream.remaining < n) (h : Runs q t (Parser.fix body) s) :
      Runs q t (fun s' => if s'.stream.remaining < n then Parser.fix body s' else noProgress s') s
  | loop {α γ : Type} {step : γ → Parser (γ ⊕ α)} {c : γ} {s : State} (h : Runs q t (step c) s) :
      Runs q t (loop step c) s
  | loopOn {α γ : Type} {step : γ → Parser (γ ⊕ α)} {c c' : γ} {s s' : State}
      (hc : step c s = .ok (.inl c') s') (hlt : s'.stream.remaining < s.stream.remaining)
      (h : Runs q t (Parser.loop step c') s') : Runs q t (Parser.loop step c) s

theorem Runs.error {α β : Type} {q : Parser β} {p : Parser α} {s t t' : State} {e : ParseError}
    (h : Runs q t p s) (hq : q t = .error e t') : ∃ s', p s = .error e s' := by
  induction h with
  | here => exact ⟨t', hq⟩
  | first h ih =>
    obtain ⟨s', hs'⟩ := ih
    exact ⟨s', by simp only [bind, EStateM.bind, hs']⟩
  | next hp h ih =>
    obtain ⟨s'', hs⟩ := ih
    exact ⟨s'', by simp only [bind, EStateM.bind, hp, hs]⟩
  | group h ih =>
    obtain ⟨s', hs'⟩ := ih
    refine ⟨{ s' with depth := s'.depth - 1 }, ?_⟩
    simp only [grouped, hs']
  | fix h ih =>
    obtain ⟨s', hs'⟩ := ih
    exact ⟨s', by rw [Parser.fix, hs']⟩
  | again hlt h ih =>
    obtain ⟨s', hs'⟩ := ih
    exact ⟨s', by simp only [hlt, if_true, hs']⟩
  | loop h ih =>
    obtain ⟨s', hs'⟩ := ih
    exact ⟨s', by rw [Parser.loop, hs']⟩
  | loopOn hc hlt h ih =>
    obtain ⟨s', hs'⟩ := ih
    exact ⟨s', by rw [Parser.loop, hc]; simp only [hlt, if_true, hs']⟩

def State.start (source : String) : State :=
  ⟨.ofSource (tokensOf source), .empty, #[], #[], none, 0⟩

variable {source : String} {e : ParseError} {s t : State}

theorem root_of_error {β : Type} {q : Parser β} (h : Runs q t program (.start source))
    (hq : q t = .error e s) : (parseSource source .empty).root = none := by
  obtain ⟨s', hs'⟩ := h.error hq
  rw [State.start] at hs'
  rw [parseSource, parse, hs']

theorem variableNamed_unbound (name : Token) (h : t.scopes.resolve name.text = none) :
    ∃ e, variableNamed name t = .error e t := by
  have hr : resolve name.text t = .ok none t := congrArg (EStateM.Result.ok · t) h
  have hi : is .leftBracket t = .ok (decide (t.stream.kind = .leftBracket)) t := rfl
  simp only [variableNamed, bind, EStateM.bind, hi]
  split
  · exact ⟨_, rfl⟩
  · exact ⟨_, by simp only [EStateM.bind, hr]; rfl⟩

theorem callNamed_unbound (p : Parser Node) (k : Node.Kind) (name : Token)
    (h : t.scopes.resolve name.text = none) :
    callNamed p name k t = .error ⟨name, .undefinedFunction name.text⟩ t := by
  have hr : resolve name.text t = .ok none t := congrArg (EStateM.Result.ok · t) h
  simp only [callNamed, bind, EStateM.bind, hr]
  rfl

end Parser

/-- Scoping is lexical in an accepted source. A source is not accepted if reading it comes to a use
of a name that has no meaning in the scopes that are open there. -/
theorem parse_lexicalScoping (source : String) :
    (∀ root, (parseSource source .empty).root = some root →
      LexicalScoping (parseSource source .empty).scopes root) ∧
    ∀ (name : Token) (t : Parser.State), t.scopes.resolve name.text = none →
      (Parser.Runs (Parser.variableNamed name) t Parser.program (.start source) ∨
        ∃ p k, Parser.Runs (Parser.callNamed p name k) t Parser.program (.start source)) →
      (parseSource source .empty).root = none := by
  refine ⟨fun root h => ?_, fun name t hn hr => ?_⟩
  · obtain ⟨o, rfl, ho⟩ := Parser.parseSource_outline h
    exact ho.lexicalScoping
  · rcases hr with hr | ⟨p, k, hr⟩
    · obtain ⟨e, he⟩ := Parser.variableNamed_unbound name hn
      exact Parser.root_of_error hr he
    · exact Parser.root_of_error hr (Parser.callNamed_unbound p k name hn)

/-- A program that declares the names of two constants again in inner scopes. -/
def shadowingSource : String :=
  "CD20 p constants n = 2, m = n + 1 " ++
    "func f(n : int) : int k : int begin k = n; return f(m); end " ++
    "func g(m : int) : void begin print m, n; end main m : int begin m = f(n); g(m); end CD20 p"

/-- The symbols of the uses of a name, from first to last. -/
def Node.usesOf (root : Node) (text : String) : List (Option Symbol.Id) :=
  (root.nodes.filter fun n => n.kind ∈ Node.Kind.uses ∧ n.value = some text).map Node.symbol

/-- The value of the constant is a name that nothing is declared under. -/
def unboundSource : String := "CD20 p constants a = b main begin end CD20 p"

namespace Parser

def unboundName : Token := ⟨.ident, some "b", ⟨1, 22⟩⟩

/-- The state of its parser once `k` tokens are consumed. -/
def State.inUnbound (k : Nat) : State where
  stream := ⟨#[⟨.keyword .cd20, none, ⟨1, 1⟩⟩, ⟨.ident, some "p", ⟨1, 6⟩⟩,
    ⟨.keyword .constants, none, ⟨1, 8⟩⟩, ⟨.ident, some "a", ⟨1, 18⟩⟩, ⟨.assign, none, ⟨1, 20⟩⟩,
    unboundName, ⟨.keyword .main, none, ⟨1, 24⟩⟩, ⟨.keyword .begin, none, ⟨1, 29⟩⟩,
    ⟨.keyword .endWord, none, ⟨1, 35⟩⟩, ⟨.keyword .cd20, none, ⟨1, 39⟩⟩, ⟨.ident, some "p", ⟨1, 44⟩⟩,
    .eof ⟨1, 45⟩], ⟨1, 45⟩, k⟩
  scopes := Scopes.empty.create globalScope
  diagnostics := #[]
  log := #[.scopeCreated globalScope]
  function := none
  depth := 0

open Parser.State in
theorem runs_unbound : Runs (variableNamed unboundName) (.inUnbound 6) program
    (.start unboundSource) := by
  have htokens : tokensOf unboundSource = (inUnbound 0).stream.tokens.toList := by decide +kernel
  have hstart : createScope globalScope (start unboundSource) = .ok () (inUnbound 0) := by
    rw [start, htokens]
    rfl
  -- up to the constants
  have hlanguage : expect (.keyword .cd20) (inUnbound 0) = .ok _ (inUnbound 1) := rfl
  have hname : expect .ident (inUnbound 1) = .ok _ (inUnbound 2) := rfl
  have hconstants : accept (.keyword .constants) (inUnbound 2) = .ok true (inUnbound 3) := rfl
  refine .next hstart (.next hlanguage (.next hname (.first (.first (.next hconstants ?_)))))
  -- up to the value of the first one
  have hident : expect .ident (inUnbound 3) = .ok _ (inUnbound 4) := rfl
  have hfresh : checkFresh ⟨.ident, some "a", ⟨1, 18⟩⟩ (inUnbound 4) = .ok () (inUnbound 4) :=
    rfl
  have hassign : expect .assign (inUnbound 4) = .ok _ (inUnbound 5) := rfl
  refine .first (.loop (.first (.next hident (.next hfresh (.next hassign (.first ?_))))))
  -- through the levels of expressions to an operand
  have hpeek : peek (inUnbound 5) = .ok unboundName (inUnbound 5) := rfl
  have hsign : accept .minus (inUnbound 5) = .ok false (inUnbound 5) := rfl
  have hvalue : advance (inUnbound 5) = .ok unboundName (inUnbound 6) := rfl
  have hcall : is .leftParen (inUnbound 6) = .ok false (inUnbound 6) := rfl
  refine .next hpeek (.first (.next hpeek (.first (.fix (.next hpeek (.first ?_))))))
  exact .next hsign (.next hpeek (.next hvalue (.next hcall .here)))

end Parser

/-- Uses of a name mean what is declared in the scopes around them. A use that means nothing is
reached and is the end of the reading. -/
theorem parse_lexicalScoping_shadowing : (∃ root,
    (parseSource shadowingSource .empty).root = some root ∧
    (root.usesOf "n").map (root.usesOf "n").idxOf = [0, 1, 0, 0] ∧
    (root.usesOf "m").map (root.usesOf "m").idxOf = [0, 1, 2, 2] ∧
    LexicalScoping (parseSource shadowingSource .empty).scopes root) ∧
    (Parser.State.inUnbound 6).scopes.resolve Parser.unboundName.text = none ∧
    Parser.Runs (Parser.variableNamed Parser.unboundName) (.inUnbound 6) Parser.program
      (.start unboundSource) ∧
    (parseSource unboundSource .empty).root = none := by
  have h : ((parseSource shadowingSource .empty).root.any fun root =>
      (root.usesOf "n").map (root.usesOf "n").idxOf = [0, 1, 0, 0] ∧
      (root.usesOf "m").map (root.usesOf "m").idxOf = [0, 1, 2, 2]) = true := by
    rw [parseSource,
      tokensOf_chars shadowingSource (append_eq_ofList (append_eq_ofList rfl rfl) rfl)]
    decide +kernel
  obtain ⟨root, hr, huses⟩ := (Option.any_eq_true _ _).1 h
  obtain ⟨hn, hm⟩ := of_decide_eq_true huses
  have hunbound : (Parser.State.inUnbound 6).scopes.resolve Parser.unboundName.text = none := by
    decide +kernel
  refine ⟨⟨root, hr, hn, hm, (parse_lexicalScoping shadowingSource).1 root hr⟩, hunbound,
    Parser.runs_unbound, ?_⟩
  exact (parse_lexicalScoping unboundSource).2 _ _ hunbound (.inl Parser.runs_unbound)

end StackCompiler
