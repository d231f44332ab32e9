import StackCompiler.Proofs.Balance.Placed
import StackCompiler.Proofs.Balance.Programs
import StackCompiler.Proofs.Binding

/-!
# Calls

Callers and functions agree on where arguments are. A call makes room for the result, if there is
to be one, and pushes its arguments from the last to the first. So the first argument lies directly
below the frame of the function, and each other one a word below the one before it, which is where
the function has its parameters.
-/

namespace StackCompiler

def Node.arguments (n : Node) : List Node := listed .expressionList n.left

namespace Calling

variable (types : Symbol.Id → DataType) (id : Symbol.Id) (args : List Node)

def lines : List Line :=
  (if (types id).isVoid then [] else [.op .zero]) ++
    (args.reverse.flatMap (Assembly.values types) ++ [.count args.length, .address id, .op .js2])

/-- The code of a call up to and including that of argument `i`, counted from 0. -/
def head (i : Nat) : List Line :=
  (if (types id).isVoid then [] else [.op .zero]) ++
    (args.drop i).reverse.flatMap (Assembly.values types)

/-- The code behind that, up to the jump into the function. -/
def tail (i : Nat) : List Line :=
  (args.take i).reverse.flatMap (Assembly.values types) ++ [.count args.length, .address id]

variable {types id args} {i : Nat}

theorem lines_eq (i : Nat) :
    lines types id args = head types id args i ++ (tail types id args i ++ [.op .js2]) := by
  have hsplit : args.reverse = (args.drop i).reverse ++ (args.take i).reverse := by
    rw [← List.reverse_append, List.take_append_drop]
  rw [lines, head, tail, hsplit, List.flatMap_append]
  simp only [List.append_assoc, List.cons_append, List.nil_append]

theorem head_eq {a : Node} (h : args[i]? = some a) :
    head types id args i = head types id args (i + 1) ++ Assembly.values types a := by
  obtain ⟨hlt, rfl⟩ := List.getElem?_eq_some_iff.1 h
  rw [head, head, List.drop_eq_getElem_cons hlt, List.reverse_cons, List.flatMap_append,
    List.flatMap_singleton, List.append_assoc]

theorem exec_tail (hn : (Line.count args.length).Fits)
    (h : ∀ a ∈ args, ∀ t, exec (Assembly.values types a) t = some (none :: t))
    (hi : i ≤ args.length) (t : List Slot) : exec (tail types id args i) t =
      some (none :: some (args.length : Int) :: (List.replicate i none ++ t)) := by
  have hargs : exec ((args.take i).reverse.flatMap (Assembly.values types)) t =
      some (List.replicate i none ++ t) := by
    rw [exec_flatMap fun a ha => h a (List.mem_of_mem_take (List.mem_reverse.1 ha)),
      List.length_reverse, List.length_take, Nat.min_eq_left hi]
  exact exec_trans hargs (exec_trans (x := [.count args.length]) (exec_count hn _)
    (exec_address id _))

end Calling

/-! ## Arguments and parameters -/

/-- The slot that a function has at an offset below its frame, given the stack that it is called
with. The call takes the address of the function and the number of arguments off the stack, and the
frame begins on top of the rest. -/
def belowFrame (stack : List Slot) (offset : Int) : Option Slot :=
  if offset ≤ -8 then (stack.drop 2)[(-offset / 8 - 1).toNat]? else none

/-- The value that is on top of the stack at `p` is the one that a function of some arity which is
called at `q` has at the offset. -/
def Code.Passes (c : Code) (p q arity : Nat) (offset : Int) : Prop :=
  ∀ v below, (∃ stack, c.Path p q ⟨p, v :: below⟩ ⟨q, stack⟩) ∧
    ∀ b, c.Path p q ⟨p, v :: below⟩ b → b.position = q →
      b.stack[1]? = some (some (arity : Int)) ∧ belowFrame b.stack offset = some v

/-- The node calls the function of another node, whose symbol is `id`, as functions have to be
called. -/
structure IsCall (s : Scopes) (root : Node) (code : Code) (n f : Node) (id : Symbol.Id) :
    Prop where
  symbols : n.symbol = some id ∧ f.symbol = some id
  function : ∃ sym, s.symbol? id = some sym ∧ sym.kind = .function ∧
    sym.returnType? = some (s.valueType id) ∧
    sym.parameters.map some = f.parameterNodes.map Node.symbol
  arity : n.arguments.length = f.parameterNodes.length
  /-- What is emitted for the node, and for its arguments. -/
  value : n.kind = .call → Emitter.Appends s (Emitter.value n)
    fun _ => Calling.lines s.valueType id n.arguments
  statement : n.kind = .callStatement → ∀ routine, Emitter.Appends s (Emitter.blockCode routine n)
    fun _ => Calling.lines s.valueType id n.arguments
  arguments : ∀ a ∈ n.arguments, Emitter.Appends s (Emitter.value a)
    fun _ => Assembly.values s.valueType a
  stands : ∃ p, Occurs (Assembly.program s.valueType root) p
    (Calling.lines s.valueType id n.arguments)
  /-- The code of each argument pushes one value, which the function has where its parameter is. -/
  passes : ∀ p, Occurs (Assembly.program s.valueType root) p
      (Calling.lines s.valueType id n.arguments) →
    ∀ i < n.arguments.length, ∃ before top jump,
      before = p + span (Calling.head s.valueType id n.arguments (i + 1)) ∧
      top = p + span (Calling.head s.valueType id n.arguments i) ∧
      jump = top + span (Calling.tail s.valueType id n.arguments i) ∧
      code.Raises before top 1 ∧ code.Passes top jump n.arguments.length (-8 * (i + 1)) ∧
      code.at? jump = some (.ofOperation .js2)

/-- Callers and functions agree, where `s` are the scopes that the program was read with, `L` those
with the places of its functions, and `code` is to be built into a module. -/
structure CallingConvention (s : Scopes) (root : Node) (code : Code) (L : Scopes) : Prop where
  listing : code.Is ((Assembly.program s.valueType root).map Line.instruction)
  calls : ∀ n ∈ root.nodes, n.kind = .call ∨ n.kind = .callStatement →
    ∃ f ∈ root.functionNodes, ∃ id, IsCall s root code n f id
  parameters : ∀ f ∈ root.functionNodes, ∀ (i : Nat) n, f.parameterNodes[i]? = some n →
    ∃ id, n.symbol = some id ∧ s.Stores id ⟨.declarations, -8 * (i + 1)⟩ ∧
      L.Stores id ⟨.declarations, -8 * (i + 1)⟩
  /-- In the module, functions are called where they start. -/
  entries : ∀ text, (code.build L).result = .ok text → ∀ (k : Nat) f id,
    root.functionNodes[k]? = some f → f.symbol = some id →
    ∃ entry : Nat, entry = span ((Assembly.segments s.valueType root).take (k + 1)).flatten ∧
      signedValue (bigEndian 4 entry) = entry ∧
      ∀ q, Occurs (Assembly.program s.valueType root) q [.address id] →
        (code.build L).code.at? q = some (.symbolic (.loadAddress .constants) id entry)
  /-- In the module, parameters are loaded from where the arguments are. -/
  loads : ∀ text, (code.build L).result = .ok text → ∀ f ∈ root.functionNodes, ∀ (i : Nat) n id,
    f.parameterNodes[i]? = some n → n.symbol = some id →
    ∀ q, Occurs (Assembly.program s.valueType root) q [.value id] →
      (code.build L).code.at? q = some (.symbolic (.loadValue .declarations) id (-8 * (i + 1)))

section Calls

variable {s : Scopes} {names : Names} {n : Node} {all : List Line} {p : Nat} {id : Symbol.Id}
  {args : List Node} {code : Code}

theorem belowFrame_replicate (a c : Slot) (i : Nat) (v : Slot) (below : List Slot) :
    belowFrame (a :: c :: (List.replicate i none ++ v :: below)) (-8 * (i + 1)) = some v := by
  have hindex : (-(-8 * ((i : Int) + 1)) / 8 - 1).toNat = i := by omega
  rw [belowFrame, if_pos (by omega), hindex]
  simp

theorem Code.Has.stack_eq {c : Code} {lines : List Line} {t u : List Slot} {b : Point}
    (hc : c.Has p lines) (h : exec lines t = some u) (hp : c.Path p (p + span lines) ⟨p, t⟩ b)
    (hb : b.position = p + span lines) : b.stack = u := by
  have hflows : Flows (fun _ => False) [] p lines (t ++ []) (u ++ []) := flows_exec h []
  rw [List.append_nil, List.append_nil] at hflows
  obtain ⟨H, ht, hu, hH⟩ := hflows
  have hstart : Boundary p lines p ∧ t = H p := ⟨⟨[], lines, rfl, rfl⟩, ht.symm⟩
  rw [(hH.path (a := ⟨p, t⟩) hc hstart hp).2, hb, hu]

theorem Calling.passes (hn : (Line.count args.length).Fits)
    (h : ∀ a ∈ args, ∀ t, exec (Assembly.values s.valueType a) t = some (none :: t))
    (hc : code.Has p (lines s.valueType id args)) {i : Nat} (hi : i < args.length) :
    code.Passes (p + span (head s.valueType id args i))
      (p + span (head s.valueType id args i) + span (tail s.valueType id args i)) args.length
      (-8 * (i + 1)) := by
  rw [lines_eq i] at hc
  have htail := hc.right.left
  intro v below
  have hexec : exec (tail s.valueType id args i) (v :: below) = _ :=
    exec_tail hn h (Nat.le_of_lt hi) (v :: below)
  refine ⟨⟨_, htail.path hexec⟩, fun b hb hpos => ?_⟩
  rw [htail.stack_eq hexec hb hpos]
  exact ⟨rfl, belowFrame_replicate _ _ i v below⟩

theorem Calling.raises (h : s.IsExpression names n)
    (hfit : ∀ l ∈ Assembly.values s.valueType n, l.Fits)
    (hc : code.Has p (lines s.valueType id args)) {i : Nat} (hn : args[i]? = some n) :
    code.Raises (p + span (head s.valueType id args (i + 1)))
      (p + span (head s.valueType id args i)) 1 := by
  rw [lines_eq i, head_eq hn] at hc
  have hend : p + span (head s.valueType id args i) =
      p + span (head s.valueType id args (i + 1)) + span (Assembly.values s.valueType n) := by
    rw [head_eq hn, span_append, Nat.add_assoc]
  rw [hend]
  exact hc.left.right.raises [none] fun t =>
    flows_exec (s := []) (t := [none]) (h.exec hfit []) t

theorem Calling.call_eq (ha : ∀ a ∈ args, s.IsExpression names a) :
    Assembly.call s.valueType id (Emitter.argumentItems (Node.list .expressionList args)).length
      (Assembly.valuesOf s.valueType (Node.list .expressionList args)) =
      lines s.valueType id args := by
  rw [Assembly.call, Scopes.length_arguments ha, Assembly.valuesOf_list, lines, List.append_assoc]

end Calls

namespace Outline

variable {o : Outline} {s : Scopes} {n : Node} {code : Code}

theorem Valid.function_of_call (h : o.Valid s) (hn : n ∈ o.root.nodes)
    (hk : n.kind = .call ∨ n.kind = .callStatement) :
    ∃ (k : Nat) (f : Function), o.functions[k]? = some f ∧ n.symbol = some f.id := by
  have hu : n.kind ∈ Node.Kind.uses := by
    rcases hk with hk | hk <;> simp [hk, Node.Kind.uses]
  have hr : n.kind ≠ .reference := by
    rcases hk with hk | hk <;> simp [hk]
  obtain ⟨site, t, ht, hn⟩ := h.inSite n hn hu
  obtain ⟨text, id, -, hs, hname, hfun⟩ := (h.binds site t ht n hn).use hu
  rw [if_neg hr] at hfun
  obtain ⟨l, hl, he⟩ := Scopes.mem_of_namesOf hname
  have hid : id ∈ l.map Prod.snd := List.mem_map.2 ⟨_, he, rfl⟩
  -- parameters, locals and variables of main are no functions
  rcases h.scope_of_site hl with ⟨j, hsub⟩ | ⟨k, f, -, hk, rfl⟩ | rfl
  · obtain ⟨f, hf, rfl⟩ := h.function_of_global (List.mem_map.2 ⟨_, hsub.subset he, rfl⟩) hfun
    obtain ⟨k, hk⟩ := List.mem_iff_getElem?.1 (List.mem_of_mem_take hf)
    exact ⟨k, f, hk, hs⟩
  · have hf := h.functions k f hk
    rw [Function.entries, List.map_append, List.mem_append] at hid
    rcases hid with hid | hid
    · exact absurd hfun (hf.params.not_function hid)
    · exact absurd hfun (hf.locals.not_function hid)
  · exact absurd hfun (h.vars.not_function hid)

theorem Function.Valid.signature {f : Function} {visible : List Entry} (h : f.Valid s visible) :
    ∃ sym, s.symbol? f.id = some sym ∧ sym.kind = .function ∧
      sym.returnType? = some (s.valueType f.id) ∧
      sym.parameters.map some = f.node.parameterNodes.map Node.symbol := by
  obtain ⟨sym, hs, hk, -, -, ha⟩ := h.symbol
  have hret : sym.returnType? = some f.ret := by
    rw [Symbol.returnType?, ha, List.findSome?_append, Parser.returnType?_parameters]
    rfl
  refine ⟨sym, hs, hk, ?_, ?_⟩
  · simp [Scopes.valueType, hs, Symbol.valueType, hk, Symbol.Kind.isFunction, hret]
  · rw [Symbol.parameters, ha, f.parameterNodes_node]
    simp [Symbol.Attribute.parameter?, List.filterMap_map, Function.comp_def, Entry.node,
      Node.symbol]

theorem Valid.isCall_of {names : Names} {args : List Node} {k : Nat} {f : Function} (h : o.Valid s)
    (hc : code.Is ((Assembly.program s.valueType o.root).map Line.instruction))
    (hfit : ∀ l ∈ Assembly.program s.valueType o.root, l.Fits) (hf : o.functions[k]? = some f)
    (hargs : n.arguments = args) (hsym : n.symbol = some f.id) (ht : s.Takes f.id args)
    (ha : ∀ a ∈ args, s.IsExpression names a)
    (hvalue : n.kind = .call → Emitter.Appends s (Emitter.value n)
      fun _ => Calling.lines s.valueType f.id args)
    (hstatement : n.kind = .callStatement → ∀ routine, Emitter.Appends s
      (Emitter.blockCode routine n) fun _ => Calling.lines s.valueType f.id args)
    (hstands : ∃ p, Occurs (Assembly.program s.valueType o.root) p
      (Calling.lines s.valueType f.id args)) : IsCall s o.root code n f.node f.id := by
  subst hargs
  have hsig := (h.functions k f hf).signature
  refine ⟨⟨hsym, rfl⟩, hsig, ?_, hvalue, hstatement, fun a hm => ?_, hstands, fun p ho i hi => ?_⟩
  · obtain ⟨sym, hs, -, -, hparams⟩ := hsig
    obtain ⟨sym', hs', -, hlen, -⟩ := ht
    obtain rfl := Option.some.inj (hs.symm.trans hs')
    have hlen' := congrArg List.length hparams
    rw [List.length_map, List.length_map] at hlen'
    rw [← hlen, hlen']
  · exact Emitter.Emits.appends fun S literals hS => Emitter.emits_expression hS (ha a hm)
  · -- all lines of the program fit, so those of the arguments do
    have hcode := ho.has hc
    have hlines : ∀ l ∈ Calling.lines s.valueType f.id n.arguments, l.Fits :=
      fun l hl => hfit l (ho.mem l hl)
    have hfits : ∀ a ∈ n.arguments, ∀ l ∈ Assembly.values s.valueType a, l.Fits := by
      intro a hm l hl
      refine hlines l ?_
      simp only [Calling.lines, List.mem_append, List.mem_flatMap, List.mem_reverse]
      exact .inr (.inl ⟨a, hm, hl⟩)
    have hcount : (Line.count n.arguments.length).Fits := hlines _ (by simp [Calling.lines])
    have hget := List.getElem?_eq_getElem hi
    have hmem := List.mem_of_getElem? hget
    refine ⟨_, _, _, rfl, rfl, rfl, Calling.raises (ha _ hmem) (hfits _ hmem) hcode hget,
      Calling.passes hcount (fun a hm => (ha a hm).exec (hfits a hm)) hcode hi, ?_⟩
    rw [Calling.lines_eq i, ← List.append_assoc] at hcode
    rw [Nat.add_assoc, ← span_append]
    exact hcode.at?

theorem Valid.isCall (h : o.Valid s)
    (hc : code.Is ((Assembly.program s.valueType o.root).map Line.instruction))
    (hfit : ∀ l ∈ Assembly.program s.valueType o.root, l.Fits) (hn : n ∈ o.root.nodes)
    (hk : n.kind = .call ∨ n.kind = .callStatement) :
    ∃ f ∈ o.root.functionNodes, ∃ id, IsCall s o.root code n f id := by
  obtain ⟨k, f, hf, hsym⟩ := h.function_of_call hn hk
  have hmem : f.node ∈ o.root.functionNodes := by
    rw [o.functionNodes_root]
    exact List.mem_map.2 ⟨f, List.mem_of_getElem? hf, rfl⟩
  refine ⟨f.node, hmem, f.id, ?_⟩
  rcases hk with hk | hk
  · obtain ⟨names, p, he, ho⟩ := (h.located n hn).call hk
    have hemits : Emitter.Appends s (Emitter.value n) fun _ => Assembly.values s.valueType n :=
      Emitter.Emits.appends fun S literals hS => Emitter.emits_expression hS he
    obtain ⟨text, id, args, rfl, -, ht, ha⟩ := he.call_of_kind hk
    obtain rfl : id = f.id := Option.some.inj hsym
    rw [Assembly.values_call, Option.getD_some, Calling.call_eq ha] at hemits ho
    exact h.isCall_of hc hfit hf (Scopes.listed_arguments ha) hsym ht ha (fun _ => hemits) nofun
      ⟨p, ho⟩
  · obtain ⟨names, ret, routine, p, hst, -, ho⟩ := (h.located n hn).statement (by rw [hk]; decide)
    have hemits : ∀ routine, Emitter.Appends s (Emitter.blockCode routine n)
        (Assembly.block s.valueType routine n) := fun routine =>
      Emitter.Emits.appends fun S literals hS => Emitter.emits_statement hS hst
    obtain ⟨text, id, args, rfl, -, ht, ha⟩ := hst.call_of_kind hk
    obtain rfl : id = f.id := Option.some.inj hsym
    -- the lines of a call are the same wherever they stand
    have hblock : ∀ routine, Assembly.block s.valueType routine (.mk .callStatement (some text)
        (some f.id) (Node.list .expressionList args) none none) =
        fun _ => Calling.lines s.valueType f.id args := by
      intro routine
      funext q
      rw [Assembly.block_callStatement, Option.getD_some, Calling.call_eq ha]
    rw [hblock] at ho
    exact h.isCall_of hc hfit hf (Scopes.listed_arguments ha) hsym ht ha nofun
      (fun _ routine => hblock routine ▸ hemits routine) ⟨p, ho⟩

theorem Valid.parameter_storage (h : o.Valid s) {f p : Node} {i : Nat}
    (hf : f ∈ o.root.functionNodes) (hp : f.parameterNodes[i]? = some p) :
    ∃ id, p.symbol = some id ∧ s.Stores id ⟨.declarations, -8 * (i + 1)⟩ := by
  obtain ⟨k, g, hk, rfl, hv⟩ := h.function_of_node hf
  rw [g.parameterNodes_node] at hp
  obtain ⟨id, sym, hid, hs, hst⟩ := hv.params.places hp
  have hplace : Storage.ofParameter i = ⟨.declarations, -8 * (i + 1)⟩ := by
    rw [Storage.ofParameter]
    congr 1
    omega
  exact ⟨id, hid, sym, hs, hplace ▸ hst⟩

theorem Valid.builds (h : o.Valid s) {text : String} (hg : (generate o.root s).code = .ok code)
    (hr : (code.build (generate o.root s).scopes).result = .ok text) :
    o.Builds s (code.build (generate o.root s).scopes) := by
  rcases h.build_cases with ⟨code', hg', hb⟩ | ⟨code', p, hg', he, -⟩ | ⟨d, hg', -⟩
  · obtain rfl : code = code' := Except.ok.inj (hg.symm.trans hg')
    exact hb
  · obtain rfl : code = code' := Except.ok.inj (hg.symm.trans hg')
    cases hr.symm.trans he
  · cases hg.symm.trans hg'

theorem Builds.at? {built : Code.Build} {q : Nat} {l : Line} (hb : o.Builds s built)
    (ho : Occurs (Assembly.program s.valueType o.root) q [l]) :
    built.code.at? q = some (l.placed built.scopes) := by
  obtain ⟨as, bs, hlines, rfl⟩ := ho
  have hc := hb.code
  rw [hlines, List.singleton_append] at hc
  exact hc.at?_placed

theorem Valid.callingConvention (h : o.Valid s) (hg : (generate o.root s).code = .ok code) :
    CallingConvention s o.root code (generate o.root s).scopes := by
  obtain ⟨hc, hfit, -⟩ := h.listing hg
  have hstores : ∀ {id st}, s.Stores id st → (generate o.root s).scopes.Stores id st := by
    rintro id st ⟨sym, hs, hst⟩
    refine ⟨sym, ?_, hst⟩
    rw [symbol?_generate (h.not_function_of_storage hs (.inl (by simp [hst]))), hs]
  refine ⟨hc, fun n hn hk => h.isCall hc hfit hn hk, fun f hf i p hp => ?_,
    fun text hr k f id hf hid => ?_, fun text hr f hf i p id hp hid q ho => ?_⟩
  · obtain ⟨id, hid, hst⟩ := h.parameter_storage hf hp
    exact ⟨id, hid, hst, hstores hst⟩
  · have hb := h.builds hg hr
    rw [o.functionNodes_root, List.getElem?_map, Option.map_eq_some_iff] at hf
    obtain ⟨g, hk, rfl⟩ := hf
    obtain rfl : g.id = id := Option.some.inj hid
    have hfar := hb.entries k (List.getElem?_eq_some_iff.1 hk).1
    rw [maxOffset] at hfar
    refine ⟨_, rfl, signedValue_bigEndian (by omega) (by omega), fun q ho => ?_⟩
    rw [hb.at? ho, Line.placed_address (hb.loaded.function hk)]
  · have hb := h.builds hg hr
    obtain ⟨id', hid', sym, hs, hst⟩ := h.parameter_storage hf hp
    obtain rfl : id' = id := Option.some.inj (hid'.symm.trans hid)
    rw [hb.at? ho, Line.placed_value ⟨sym, hb.loaded.vars id' sym _ hs hst, hst⟩]

end Outline

/-- In the code of an accepted source, every call passes its arguments to where the function that it
calls has its parameters. -/
theorem generate_callingConvention {source : String} {root : Node} {code : Code}
    (h : (parseSource source .empty).root = some root)
    (hg : (generate root (parseSource source .empty).scopes).code = .ok code) :
    CallingConvention (parseSource source .empty).scopes root code
      (generate root (parseSource source .empty).scopes).scopes := by
  obtain ⟨o, rfl, hv⟩ := Parser.parseSource_outline h
  exact hv.callingConvention hg

/-- A program with calls for a value and for an effect, some of them in arguments. -/
def callingSource : String :=
  "CD20 p func f(a : int, b : bool) : int begin return a; end func g(x : int) : void begin " ++
    "print x; end main y : int begin y = f(f(1, true), 2 > 3); g(f(y, false)); end CD20 p"

theorem generate_callingConvention_nested : ∃ root code text,
    (parseSource callingSource .empty).root = some root ∧
    (generate root (parseSource callingSource .empty).scopes).code = .ok code ∧
    (code.build (generate root (parseSource callingSource .empty).scopes).scopes).result =
      .ok text ∧
    ((root.nodes.filter fun n => n.kind = .call ∨ n.kind = .callStatement).map fun n =>
      n.arguments.length) = [2, 2, 1, 2] ∧
    CallingConvention (parseSource callingSource .empty).scopes root code
      (generate root (parseSource callingSource .empty).scopes).scopes := by
  have h : ((parseSource callingSource .empty).root.any fun root =>
      ((generate root (parseSource callingSource .empty).scopes).code.toOption.any fun code =>
        (code.build (generate root (parseSource callingSource .empty).scopes).scopes).result.isOk) &&
      decide (((root.nodes.filter fun n => n.kind = .call ∨ n.kind = .callStatement).map fun n =>
        n.arguments.length) = [2, 2, 1, 2])) = true := by
    rw [parseSource, tokensOf_chars callingSource (append_eq_ofList rfl rfl)]
    decide +kernel
  obtain ⟨root, hr, h⟩ := (Option.any_eq_true _ _).1 h
  rw [Bool.and_eq_true] at h
  obtain ⟨hok, hcalls⟩ := h
  cases hg : (generate root (parseSource callingSource .empty).scopes).code with
  | error d =>
    rw [hg] at hok
    cases hok
  | ok code =>
    rw [hg] at hok
    obtain ⟨text, ht⟩ := exists_of_isOk (x := (code.build _).result) hok
    exact ⟨root, code, text, hr, hg, ht, of_decide_eq_true hcalls, generate_callingConvention hr hg⟩

end StackCompiler
