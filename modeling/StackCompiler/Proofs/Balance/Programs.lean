import StackCompiler.Proofs.Balance.Occurrences
import StackCompiler.Proofs.Balance.Statements
import StackCompiler.Proofs.Compiling

/-!
# The height of the stack in programs

In the code of every program, expressions raise the height of the stack by one. Statements leave it
as it was, and all paths arrive at a position with one height, exactly if no statement calls a
function that yields a value: such a call leaves the value behind.
-/

namespace StackCompiler

theorem Node.All.of_mem {P : Node → Prop} {n m : Node} (h : n.All P) (hm : m ∈ n.nodes) :
    m.All P := by
  induction hn : sizeOf n using Nat.strongRecOn generalizing n with
  | ind size ih =>
    obtain ⟨k, v, sym, l, c, r⟩ := n
    rw [nodes_mk] at hm
    have hchild : ∀ child : Option Node, AllIn P child → sizeOf child < size →
        m ∈ child.elim [] nodes → m.All P := by
      intro child hall hlt hmem
      cases child with
      | none => simp at hmem
      | some d =>
        refine ih (sizeOf d) ?_ (hall d rfl) hmem rfl
        simp only [Option.some.sizeOf_spec] at hlt
        omega
    simp only [Node.mk.sizeOf_spec] at hn
    rcases List.mem_cons.1 hm with rfl | hm
    · exact h
    rcases List.mem_append.1 hm with hm | hm
    · rcases List.mem_append.1 hm with hm | hm
      · exact hchild l h.left (by omega) hm
      · exact hchild c h.centre (by omega) hm
    · exact hchild r h.right (by omega) hm

theorem Occurs.has {c : Code} {all lines : List Line} {p : Nat} (h : Occurs all p lines)
    (hc : c.Is (all.map Line.instruction)) : c.Has p lines := by
  obtain ⟨as, bs, rfl, hp⟩ := h
  exact ⟨as, bs, hc, hp⟩

namespace Outline

variable {o : Outline} {s : Scopes} {exits : Point → Prop} {p : Nat}

theorem exec_alloc {slots : Nat} (hfit : ∀ l ∈ Assembly.alloc slots, l.Fits) (t : List Slot) :
    exec (Assembly.alloc slots) t = some t := by
  unfold Assembly.alloc at hfit ⊢
  split at hfit
  · next h => rw [if_pos h]; rfl
  · next h =>
    rw [if_neg h]
    exact exec_trans (x := [.count slots]) (exec_count (hfit _ (by simp)) t) rfl

theorem Valid.exec_constants (h : o.Valid s)
    (hfit : ∀ l ∈ o.root.constantNodes.flatMap (Assembly.constant s.valueType), l.Fits)
    (t : List Slot) :
    exec (o.root.constantNodes.flatMap (Assembly.constant s.valueType)) t = some t := by
  refine exec_flatMap_self (fun n hn => ?_) t
  have hn' := hn
  rw [o.constantNodes_root] at hn
  obtain ⟨c, hc, rfl⟩ := List.mem_map.1 hn
  obtain ⟨k, hk⟩ := List.mem_iff_getElem?.1 hc
  obtain ⟨he, -⟩ := h.constants.values k c hk
  have hvalue := he.exec fun l hl => hfit l (List.mem_flatMap.2 ⟨_, hn', by
    simp [Assembly.constant, Assembly.valuesOf, Constant.node, Node.left, hl]⟩)
  intro t
  exact exec_trans (x := [.address c.id]) (exec_address c.id t) (exec_trans (hvalue _) rfl)

theorem flows_block {names : Names} {ret : Option DataType} {routine : Emitter.Routine}
    {b : Option Node} {base : List Slot} (h : s.IsBlock names ret b)
    (hn : Node.AllIn s.LeavesNothing b)
    (hfit : ∀ l ∈ Assembly.blockOf s.valueType routine b p, l.Fits) :
    Flows exits base p (Assembly.blockOf s.valueType routine b p) base base := by
  obtain ⟨body, rfl, hb⟩ := h
  exact Scopes.flows_blockOf
    (fun m hm q hf => (hb m hm).flows (Node.all_of_list hn m hm) q hf) p hfit

theorem Valid.flows_main (h : o.Valid s) (hn : o.root.All s.LeavesNothing)
    (hfit : ∀ l ∈ Assembly.main s.valueType o.root, l.Fits) :
    Flows exits [] 0 (Assembly.main s.valueType o.root) [] [] := by
  have hmain : Assembly.main s.valueType o.root = Assembly.prologue s.valueType o.root ++
      (Assembly.blockOf s.valueType .main o.body (span (Assembly.prologue s.valueType o.root)) ++
        [.op .halt]) := List.append_assoc _ _ _
  rw [hmain] at hfit ⊢
  have hpro : ∀ l ∈ Assembly.prologue s.valueType o.root, l.Fits :=
    fun l hl => hfit l (List.mem_append_left _ hl)
  rw [Assembly.prologue] at hpro
  have hexec : exec (Assembly.prologue s.valueType o.root) [] = some [] :=
    exec_trans (exec_alloc (fun l hl => hpro l (List.mem_append_left _ hl)) [])
      (h.exec_constants (fun l hl => hpro l (List.mem_append_right _ hl)) [])
  refine (flows_exec (s := []) (t := []) hexec []).append ?_
  rw [Nat.zero_add]
  have hbody : Node.AllIn s.LeavesNothing o.body := (hn.right o.mainNode rfl).right
  refine (flows_block h.body hbody fun l hl => hfit l (by simp [hl])).append ?_
  exact Scopes.flows_end (.inl rfl)

theorem Function.Valid.flows {f : Function} {visible : List Entry} (h : f.Valid s visible)
    (hn : f.node.All s.LeavesNothing)
    (hfit : ∀ l ∈ Assembly.function s.valueType f.node p, l.Fits) :
    Flows exits [] p (Assembly.function s.valueType f.node p) [] [] := by
  have hf : Assembly.function s.valueType f.node p = Assembly.alloc f.locals.length ++
      (Assembly.blockOf s.valueType .function f.body
        (p + span (Assembly.alloc f.locals.length)) ++
        if Emitter.endsWithReturn f.body then [] else [.op .retn]) := by
    rw [Assembly.function, f.localNodes_node, List.length_map, List.append_assoc]
    rfl
  rw [hf] at hfit ⊢
  have hexec : exec (Assembly.alloc f.locals.length) [] = some [] :=
    exec_alloc (fun l hl => hfit l (List.mem_append_left _ hl)) []
  refine (flows_exec (s := []) (t := []) hexec []).append ?_
  refine (flows_block h.body hn.right fun l hl => hfit l (by simp [hl])).append ?_
  split
  · exact flows_nil
  · exact Scopes.flows_end (.inr rfl)

theorem Valid.all_functions {P : Node → Prop} {k : Nat} {f : Function} (hn : o.root.All P)
    (hf : o.functions[k]? = some f) : f.node.All P :=
  Node.all_of_list hn.centre f.node (List.mem_map.2 ⟨f, List.mem_of_getElem? hf, rfl⟩)

theorem Valid.charted (h : o.Valid s) (hn : o.root.All s.LeavesNothing)
    (hfit : ∀ l ∈ Assembly.program s.valueType o.root, l.Fits) :
    ∃ H, Charted (fun _ => False) [] 0 (Assembly.program s.valueType o.root) H ∧
      ∀ k ≤ o.functions.length,
        H (span ((Assembly.segments s.valueType o.root).take k).flatten) = [] := by
  have hflows : ∀ k lines, (Assembly.segments s.valueType o.root)[k]? = some lines →
      Flows (fun _ => False) [] (0 + span ((Assembly.segments s.valueType o.root).take k).flatten)
        lines [] [] := by
    intro k lines hk
    rw [Nat.zero_add]
    have hf : ∀ l ∈ lines, l.Fits := fun l hl =>
      hfit l (List.mem_flatten.2 ⟨lines, List.mem_of_getElem? hk, hl⟩)
    cases k with
    | zero =>
      obtain rfl : Assembly.main s.valueType o.root = lines := Option.some.inj hk
      exact h.flows_main hn hf
    | succ j =>
      rw [Assembly.segments_succ, o.functionNodes_root, List.getElem?_map, Option.map_map,
        Option.map_eq_some_iff] at hk
      obtain ⟨f, hj, rfl⟩ := hk
      exact (h.functions j f hj).flows (Valid.all_functions hn hj) hf
  obtain ⟨H, hH, hstarts⟩ := charted_flatten hflows
  refine ⟨H, hH, fun k hk => ?_⟩
  have hlen : (Assembly.segments s.valueType o.root).length = o.functions.length + 1 := by
    simp [Assembly.segments, Assembly.length_functions, o.functionNodes_root]
  simpa using hstarts k (by omega)

/-! ## Where parts of the program are -/

theorem Valid.occurs_segment {k : Nat} {lines : List Line}
    (hk : (Assembly.segments s.valueType o.root)[k]? = some lines) :
    Occurs (Assembly.program s.valueType o.root)
      (span ((Assembly.segments s.valueType o.root).take k).flatten) lines := by
  refine ⟨_, ((Assembly.segments s.valueType o.root).drop (k + 1)).flatten, ?_, rfl⟩
  obtain ⟨hlt, rfl⟩ := List.getElem?_eq_some_iff.1 hk
  rw [← List.flatten_cons, ← List.flatten_append, ← List.drop_eq_getElem_cons hlt,
    List.take_append_drop]
  rfl

theorem located_entries {all : List Line} (entries : List Entry) {k : Node.Kind}
    (hk : k ∉ .call :: .init :: Node.Kind.statementKinds) :
    Node.AllIn (Located s all) (Node.list k (entries.map Entry.node)) := by
  refine located_list hk fun n hn => ?_
  obtain ⟨e, -, rfl⟩ := List.mem_map.1 hn
  exact located_leaf (by decide)

theorem Valid.not_call (h : o.Valid s) {visible : List Entry} {n : Node}
    (hn : s.IsExpression (Scopes.namesOf [visible]) n) (hv : ∀ e ∈ visible, e ∈ o.globals 0) :
    n.All fun m => m.kind ≠ .call := by
  refine hn.all (fun m hm hk => ?_) fun k a m hk hc => ?_
  · obtain ⟨text, id, args, -, hname, hc, -⟩ := hm.call_of_kind hk
    obtain ⟨l, hl, he⟩ := Scopes.mem_of_namesOf hname
    obtain ⟨f, hf, -⟩ := h.function_of_global (k := 0)
      (List.mem_map.2 ⟨_, hv _ (List.mem_singleton.1 hl ▸ he), rfl⟩) hc.isFunction
    simp at hf
  · cases hc
    cases hk

theorem Valid.located_globals (h : o.Valid s) :
    o.globalsNode.All (Located s (Assembly.program s.valueType o.root)) := by
  have hmain : Occurs (Assembly.program s.valueType o.root) 0 (Assembly.main s.valueType o.root) :=
    Valid.occurs_segment (Assembly.segments_zero o.root)
  refine Node.all_mk (located_other (by decide)) ?_ ?_ ?_
  · refine located_list (by decide) fun n hn => ?_
    have hmem := hn
    obtain ⟨c, hc, rfl⟩ := List.mem_map.1 hn
    obtain ⟨k, hk⟩ := List.mem_iff_getElem?.1 hc
    obtain ⟨he, -⟩ := h.constants.values k c hk
    have hconstants : Occurs (Assembly.program s.valueType o.root)
        (0 + span (Assembly.alloc (o.root.constantNodes.length + o.root.variableNodes.length)))
        (o.root.constantNodes.flatMap (Assembly.constant s.valueType)) := by
      refine hmain.part (Assembly.alloc _) (Assembly.blockOf s.valueType .main o.body
        (span (Assembly.prologue s.valueType o.root)) ++ [.op .halt]) ?_ rfl
      rw [Assembly.main, Assembly.prologue, List.append_assoc, List.append_assoc]
      rfl
    rw [← o.constantNodes_root] at hmem
    obtain ⟨q, hq⟩ := hconstants.flatMap hmem
    have hvalue : Occurs (Assembly.program s.valueType o.root) (q + span [.address c.id])
        (Assembly.values s.valueType c.value) := hq.part [.address c.id] [.op .st] rfl rfl
    refine Node.all_left ⟨fun hk => absurd hk ?_, fun _ => ⟨_, c.value, _, rfl, he, hvalue⟩, ?_⟩
      (Node.allIn_some (Scopes.Stands.located ⟨_, _, he, hvalue⟩))
    · show Node.Kind.init ∉ Node.Kind.statementKinds
      decide
    · rintro ⟨⟩
  · obtain ⟨types, arrays, ns, hsplit, hns, hdefs, -⟩ := h.definitions
    rw [hns]
    refine located_list (by decide) fun n hn => ?_
    obtain ⟨k, hk⟩ := List.mem_iff_getElem?.1 hn
    have hlt : k < types.length := hdefs.1 ▸ (List.getElem?_eq_some_iff.1 hk).1
    cases hdefs.2 k _ n (List.getElem?_eq_getElem hlt) hk with
    | array element hl ht =>
      have hcalls := h.not_call hl fun e he => by
        rw [List.mem_append] at he
        have htypes := he.imp_right List.mem_of_mem_take
        simpa [globals, hsplit, or_assoc] using htypes.imp_right Or.inl
      exact Node.all_two (located_other (by decide))
        (hl.located_of_calls (hcalls.imp fun m hm hk => absurd hk hm)) (located_leaf (by decide))
    | record fields =>
      exact Node.all_left (located_other (by decide)) (located_entries fields (by decide))
  · obtain ⟨types, arrays, ns, -, -, -, harrays⟩ := h.definitions
    rw [harrays]
    refine located_list (by decide) fun n hn => ?_
    obtain ⟨e, -, rfl⟩ := List.mem_map.1 hn
    exact located_leaf (by decide)

theorem Valid.located (h : o.Valid s) :
    o.root.All (Located s (Assembly.program s.valueType o.root)) := by
  refine Node.all_mk (located_other (by decide)) (Node.allIn_some h.located_globals) ?_ ?_
  · refine located_list (by decide) fun n hn => ?_
    obtain ⟨f, hf, rfl⟩ := List.mem_map.1 hn
    obtain ⟨k, hk⟩ := List.mem_iff_getElem?.1 hf
    have hv := h.functions k f hk
    have hseg : (Assembly.segments s.valueType o.root)[k + 1]? = _ :=
      Assembly.segments_succ o.root k
    rw [o.functionNodes_root, List.getElem?_map, hk, Option.map_some, Option.map_some] at hseg
    have ho := Valid.occurs_segment hseg
    generalize span ((Assembly.segments s.valueType o.root).take (k + 1)).flatten = p at ho
    have hbody : Occurs (Assembly.program s.valueType o.root)
        (p + span (Assembly.alloc f.node.localNodes.length))
        (Assembly.blockOf s.valueType .function f.body
          (p + span (Assembly.alloc f.node.localNodes.length))) :=
      ho.part _ _ (List.append_assoc _ _ _) rfl
    have hmain : Emitter.Routine.function = .main → some f.ret = none := nofun
    exact Node.all_mk (located_other (by decide)) (located_entries f.params (by decide))
      (located_entries f.locals (by decide)) (hv.body.located hmain hbody)
  · have ho : Occurs (Assembly.program s.valueType o.root) 0 (Assembly.main s.valueType o.root) :=
      Valid.occurs_segment (Assembly.segments_zero o.root)
    have hbody : Occurs (Assembly.program s.valueType o.root)
        (span (Assembly.prologue s.valueType o.root))
        (Assembly.blockOf s.valueType .main o.body (span (Assembly.prologue s.valueType o.root))) :=
      ho.part _ [.op .halt] (List.append_assoc _ _ _) (by simp)
    exact Node.allIn_some (Node.all_mk (located_other (by decide))
      (located_entries o.vars (by decide)) Node.allIn_none
      (h.body.located (fun _ => rfl) hbody))

theorem Valid.stands (h : o.Valid s) {n m : Node} (hn : n ∈ o.root.nodes)
    (hk : n.kind ∈ Node.Kind.statementKinds ∨ n.kind = .init) (hm : n.Evaluates m)
    (hs : m.kind ≠ .string) : s.Stands (Assembly.program s.valueType o.root) m := by
  have hloc := h.located n hn
  induction hm with
  | @operand m hm =>
    rcases hk with hk | hk
    · obtain ⟨names, ret, routine, p, hst, hr, ho⟩ := hloc.statement hk
      exact hst.stands hr ho hm hs
    · obtain ⟨names, value, p, hl, he, ho⟩ := hloc.constant hk
      obtain rfl : m = value := by simpa [Node.operands, hk, hl] using hm
      exact ⟨names, p, he, ho⟩
  | @within m k hm hk' ih =>
    have hs' : m.kind ≠ .string := by
      intro hs'
      simp [Node.operands, hs'] at hk'
    obtain ⟨names, p, he, ho⟩ := ih hs'
    exact he.stands ho hk'

end Outline

/-! ## Programs -/

/-- The emitter appends the lines for the position where it starts, if it succeeds. -/
def Emitter.Appends (s : Scopes) (x : Emitter Unit) (lines : Nat → List Line) : Prop :=
  ∀ S literals is st st', s.Alike S → State.At S literals is st → x st = .ok () st' →
    State.At S literals (is ++ lines (span is)) st'

theorem Emitter.Emits.appends {s : Scopes} {x : Emitter Unit} {lines : Nat → List Line}
    {fits : Prop} (h : ∀ S literals, s.Alike S → Emits S literals fits x lines) :
    Appends s x lines :=
  fun S literals is st _ hS ha hx =>
    wp_of_ok (Q := fun _ st' => State.At S literals (is ++ lines (span is)) st')
      (h S literals hS is st ha) hx

def IsEntry (root : Node) (L : Scopes) (e : Nat) : Prop :=
  e = 0 ∨ ∃ f ∈ root.functionNodes, ∃ id, f.symbol = some id ∧ L.Stores id ⟨.constants, e⟩

/-- What the code of a program does to the height of the stack, where `s` are the scopes that it was
read with and `L` those with the places of its functions. -/
structure Balance (s : Scopes) (root : Node) (code : Code) (L : Scopes) : Prop where
  listing : code.Is ((Assembly.program s.valueType root).map Line.instruction)
  /-- What statements and named constants evaluate raises the height by one. -/
  expressions : ∀ n ∈ root.nodes, n.kind ∈ Node.Kind.statementKinds ∨ n.kind = .init →
    ∀ m, n.Evaluates m → m.kind ≠ .string →
      Emitter.Appends s (Emitter.value m) (fun _ => Assembly.values s.valueType m) ∧
      (∃ p, Occurs (Assembly.program s.valueType root) p (Assembly.values s.valueType m)) ∧
      ∀ p, Occurs (Assembly.program s.valueType root) p (Assembly.values s.valueType m) →
        code.Raises p (p + span (Assembly.values s.valueType m)) 1
  /-- Where the code of statements is. -/
  statements : ∀ n ∈ root.nodes, n.kind ∈ Node.Kind.statementKinds →
    (∀ routine, Emitter.Appends s (Emitter.blockCode routine n)
      (Assembly.block s.valueType routine n)) ∧
    ∃ routine p, Occurs (Assembly.program s.valueType root) p
      (Assembly.block s.valueType routine n p)
  /-- A statement leaves the height as it was if nothing in it leaves a value behind. -/
  balanced : ∀ n ∈ root.nodes, n.kind ∈ Node.Kind.statementKinds → n.All s.LeavesNothing →
    ∀ routine p, Occurs (Assembly.program s.valueType root) p
      (Assembly.block s.valueType routine n p) →
      code.Raises p (p + span (Assembly.block s.valueType routine n p)) 0
  /-- All statements leave the height as it was only if nothing leaves a value behind. -/
  exact : (∀ n ∈ root.nodes, n.kind ∈ Node.Kind.statementKinds →
    ∀ routine p, Occurs (Assembly.program s.valueType root) p
      (Assembly.block s.valueType routine n p) →
      code.Raises p (p + span (Assembly.block s.valueType routine n p)) 0) ↔
    root.All s.LeavesNothing
  /-- All paths from where main and the functions start arrive at a position with one height, and
  the instruction there finds what it takes. -/
  heights : root.All s.LeavesNothing → ∃ height : Nat → Nat, ∀ e, IsEntry root L e →
    ∀ b, code.Path 0 code.size ⟨e, []⟩ b → b.stack.length = height b.position ∧
      (b.position < code.size → ∃ i points, code.at? b.position = some i ∧ i.flow b = some points)

/-- A call of a function that yields a value, as a statement, leaves the value behind. -/
theorem Scopes.IsStatement.not_raises {s : Scopes} {names : Names} {ret : Option DataType}
    {n : Node} {routine : Emitter.Routine} {p : Nat} {c : Code} {id : Symbol.Id}
    (h : s.IsStatement names ret n) (hk : n.kind = .callStatement) (hid : n.symbol = some id)
    (hv : (s.valueType id).isVoid = false)
    (hfit : ∀ l ∈ Assembly.block s.valueType routine n p, l.Fits)
    (hc : c.Has p (Assembly.block s.valueType routine n p)) :
    ¬ c.Raises p (p + span (Assembly.block s.valueType routine n p)) 0 := by
  cases h with
  | @call text id' args hname hcall ha =>
    obtain rfl : id' = id := Option.some.inj hid
    rw [Assembly.block_callStatement] at hfit hc ⊢
    have hexec := exec_takes ha (fun a hmem hf t => (ha a hmem).exec hf t) hfit []
    rw [Option.getD_some, hv, if_neg (by simp)] at hexec
    intro hraises
    obtain ⟨-, -, -, hend, -⟩ := hraises [] _ (hc.path hexec)
    exact absurd (hend rfl) (by simp)
  | assignment h =>
    obtain ⟨hk', -⟩ := h
    rw [Node.kind] at hk
    simp [hk, Node.Kind.compoundAssignments] at hk'
  | print hp =>
    rcases hp with rfl | rfl <;> cases hk
  | _ => cases hk

namespace Outline

variable {o : Outline} {s L : Scopes} {code : Code}

theorem Valid.entries (h : o.Valid s) (hL : L.symbols = (Assembly.enter s.valueType s
      (span (Assembly.main s.valueType o.root)) o.root.functionNodes).symbols) {e : Nat}
    (he : IsEntry o.root L e) : ∃ k ≤ o.functions.length,
      e = span ((Assembly.segments s.valueType o.root).take k).flatten := by
  rcases he with rfl | ⟨n, hn, id, hid, hst⟩
  · exact ⟨0, Nat.zero_le _, rfl⟩
  · rw [o.functionNodes_root] at hn hL
    obtain ⟨f, hf, rfl⟩ := List.mem_map.1 hn
    obtain ⟨k, hk⟩ := List.mem_iff_getElem?.1 hf
    obtain rfl : f.id = id := Option.some.inj hid
    obtain ⟨sym, hsym, -⟩ := (h.functions k f hk).symbol
    obtain ⟨sym', hs', hst'⟩ := hst
    rw [Scopes.symbol?, hL, ← Scopes.symbol?, Assembly.symbol?_enter hk hsym h.nodup_functions] at hs'
    obtain rfl := Option.some.inj hs'
    have hoffset := congrArg Storage.offset (Option.some.inj hst')
    refine ⟨k + 1, ?_, ?_⟩
    · have := (List.getElem?_eq_some_iff.1 hk).1
      omega
    · rw [Assembly.segments, o.functionNodes_root, List.take_succ_cons, List.flatten_cons,
        span_append]
      exact (Int.ofNat.inj hoffset).symm

theorem Valid.balance (h : o.Valid s)
    (hc : code.Is ((Assembly.program s.valueType o.root).map Line.instruction))
    (hfit : ∀ l ∈ Assembly.program s.valueType o.root, l.Fits)
    (hL : L.symbols = (Assembly.enter s.valueType s
      (span (Assembly.main s.valueType o.root)) o.root.functionNodes).symbols) :
    Balance s o.root code L := by
  have hfits : ∀ {p lines}, Occurs (Assembly.program s.valueType o.root) p lines →
      ∀ l ∈ lines, l.Fits := fun ho l hl => hfit l (ho.mem l hl)
  have hbalanced : ∀ n ∈ o.root.nodes, n.kind ∈ Node.Kind.statementKinds →
      n.All s.LeavesNothing → ∀ routine p, Occurs (Assembly.program s.valueType o.root) p
        (Assembly.block s.valueType routine n p) →
        code.Raises p (p + span (Assembly.block s.valueType routine n p)) 0 := by
    intro n hn hk hall routine p ho
    obtain ⟨names, ret, -, -, hst, -⟩ := (h.located n hn).statement hk
    exact (ho.has hc).raises [] fun t => hst.flows hall p (hfits ho)
  refine ⟨hc, fun n hn hk m hm hs => ?_, fun n hn hk => ?_, hbalanced, ⟨?_, ?_⟩, fun hall => ?_⟩
  · obtain ⟨names, p, he, ho⟩ := h.stands hn hk hm hs
    refine ⟨Emitter.Emits.appends fun S literals hS => Emitter.emits_expression hS he, ⟨p, ho⟩, ?_⟩
    intro q hq
    exact (hq.has hc).raises [none] fun t =>
      flows_exec (s := []) (t := [none]) (he.exec (hfits hq) []) t
  · obtain ⟨names, ret, routine, p, hst, -, ho⟩ := (h.located n hn).statement hk
    exact ⟨fun routine => Emitter.Emits.appends fun S literals hS =>
      Emitter.emits_statement hS hst, routine, p, ho⟩
  · intro hraises n hn hk id hid
    have hmem : n.kind ∈ Node.Kind.statementKinds := by
      rw [hk]
      decide
    obtain ⟨names, ret, routine, p, hst, -, ho⟩ := (h.located n hn).statement hmem
    -- what the function returns would stay on the stack
    cases hv : (s.valueType id).isVoid with
    | true => rfl
    | false =>
      exact absurd (hraises n hn hmem routine p ho)
        (hst.not_raises hk hid hv (hfits ho) (ho.has hc))
  · intro hall n hn hk
    exact hbalanced n hn hk (hall.of_mem hn)
  · -- one chart for all segments, each of which begins with an empty stack
    obtain ⟨H, hH, hstarts⟩ := h.charted hall hfit
    have hhas := (Occurs.refl (Assembly.program s.valueType o.root)).has hc
    have hsize : code.size = 0 + span (Assembly.program s.valueType o.root) := by
      rw [hc.size, Nat.zero_add]
      rfl
    refine ⟨fun p => (H p).length, fun e he b hb => ?_⟩
    obtain ⟨k, hk, rfl⟩ := h.entries hL he
    have hentry : Boundary 0 (Assembly.program s.valueType o.root)
        (span ((Assembly.segments s.valueType o.root).take k).flatten) := by
      refine ⟨_, ((Assembly.segments s.valueType o.root).drop k).flatten, ?_,
        (Nat.zero_add _).symm⟩
      rw [← List.flatten_append, List.take_append_drop]
      rfl
    rw [hsize] at hb ⊢
    obtain ⟨hbound, hstack⟩ := hH.path hhas ⟨hentry, (hstarts k hk).symm⟩ hb
    exact ⟨congrArg List.length hstack, fun hlt => (hH.goes hhas hbound hstack hlt).2⟩

end Outline

theorem Outline.Valid.listing {o : Outline} {s : Scopes} {code : Code} (h : o.Valid s)
    (hg : (generate o.root s).code = .ok code) :
    code.Is ((Assembly.program s.valueType o.root).map Line.instruction) ∧
      (∀ l ∈ Assembly.program s.valueType o.root, l.Fits) ∧
      (generate o.root s).scopes.symbols = (Assembly.enter s.valueType s
        (span (Assembly.main s.valueType o.root)) o.root.functionNodes).symbols := by
  rcases h.generate_cases with ⟨code', hg', hc, -, hL, hfit, -⟩ | ⟨d, hg', -⟩
  · obtain rfl : code' = code := Except.ok.inj (hg'.symm.trans hg)
    exact ⟨hc, hfit, hL⟩
  · rw [hg'] at hg
    cases hg

/-- The code of an accepted source raises the height of the stack by one for every expression. It
keeps the height in every statement, and has one height at every position, exactly if no statement
calls a function that yields a value. -/
theorem generate_balance {source : String} {root : Node} {code : Code}
    (h : (parseSource source .empty).root = some root)
    (hg : (generate root (parseSource source .empty).scopes).code = .ok code) :
    Balance (parseSource source .empty).scopes root code
      (generate root (parseSource source .empty).scopes).scopes := by
  obtain ⟨o, rfl, hv⟩ := Parser.parseSource_outline h
  obtain ⟨hc, hfit, hL⟩ := hv.listing hg
  exact hv.balance hc hfit hL

/-- A program with all sorts of branches, and with calls for a value and for an effect. -/
def balancedSource : String :=
  "CD20 p constants c = 2 func f(a : int) : int begin return a ^ c; end " ++
  "func g() : void begin print c; end main x : int begin for (x = 1; x < c) " ++
  "if (true) x += f(x); else g(); end end repeat () x = 1; until x > 0; end CD20 p"

theorem generate_balance_balanced : ∃ root code, ∃ height : Nat → Nat,
    (parseSource balancedSource .empty).root = some root ∧
      (generate root (parseSource balancedSource .empty).scopes).code = .ok code ∧
      root.All (parseSource balancedSource .empty).scopes.LeavesNothing ∧
      ∀ b, code.Path 0 code.size ⟨0, []⟩ b → b.stack.length = height b.position := by
  have h : ((parseSource balancedSource .empty).root.any fun root =>
      (generate root (parseSource balancedSource .empty).scopes).code.isOk &&
        decide (root.All (parseSource balancedSource .empty).scopes.LeavesNothing)) = true := by
    rw [parseSource,
      tokensOf_chars balancedSource (append_eq_ofList (append_eq_ofList rfl rfl) rfl)]
    decide +kernel
  obtain ⟨root, hr, h⟩ := (Option.any_eq_true _ _).1 h
  rw [Bool.and_eq_true] at h
  obtain ⟨hok, hall⟩ := h
  obtain ⟨code, hg⟩ := exists_of_isOk hok
  have hall := of_decide_eq_true hall
  obtain ⟨height, hheight⟩ := (generate_balance hr hg).heights hall
  exact ⟨root, code, height, hr, hg, hall, fun b hb => (hheight 0 (.inl rfl) b hb).1⟩

/-- A program that calls a function which yields a value for its effect. -/
def leftoverSource : String :=
  "CD20 p func f() : int begin return 1; end main begin if (true) f(); end end CD20 p"

/-- What the call yields is left behind, so that the height at the end of the `if` depends on
the path. -/
theorem generate_leftover : ∃ root code n,
    (parseSource leftoverSource .empty).root = some root ∧
      (parseSource leftoverSource .empty).diagnostics = [] ∧
      (generate root (parseSource leftoverSource .empty).scopes).code = .ok code ∧
      n ∈ root.nodes ∧ n.kind = .callStatement ∧
      Occurs (Assembly.program (parseSource leftoverSource .empty).scopes.valueType root) 7
        (Assembly.block (parseSource leftoverSource .empty).scopes.valueType .main n 7) ∧
      ¬ code.Raises 7 16 0 ∧
      code.Path 0 16 ⟨0, []⟩ ⟨16, []⟩ ∧ code.Path 0 16 ⟨0, []⟩ ⟨16, [none]⟩ := by
  let test : List Line := [.jump 16, .op .pushTrue]
  let call : List Line := [.op .zero, .count 0, .address 0, .op .js2]
  let rest : List Line := [.op .halt, .value 1, .op .rval, .op .retn]
  have h : ((parseSource leftoverSource .empty).root.any fun root =>
      (generate root (parseSource leftoverSource .empty).scopes).code.isOk &&
        (Assembly.program (parseSource leftoverSource .empty).scopes.valueType root =
          test ++ .op .bf :: (call ++ rest)) &&
        root.nodes.any fun n => n.kind = .callStatement &&
          Assembly.block (parseSource leftoverSource .empty).scopes.valueType .main n 7 = call) =
      true := by
    rw [parseSource, tokensOf_chars leftoverSource rfl]
    decide +kernel
  obtain ⟨root, hr, h⟩ := (Option.any_eq_true _ _).1 h
  simp only [Bool.and_eq_true, decide_eq_true_eq, List.any_eq_true] at h
  obtain ⟨⟨hok, hlines⟩, n, hn, hk, hcall⟩ := h
  obtain ⟨code, hg⟩ := exists_of_isOk hok
  obtain ⟨o, rfl, hv⟩ := Parser.parseSource_outline hr
  obtain ⟨hc, -⟩ := hv.listing hg
  have hat : Occurs (test ++ .op .bf :: (call ++ rest)) 7 call :=
    ⟨test ++ [.op .bf], rest, by simp, rfl⟩
  rw [hlines] at hc
  have htest : code.Path 0 6 ⟨0, []⟩ ⟨6, [none, some 16]⟩ := by
    have hhas : code.Has 0 test := ⟨[], _, hc, rfl⟩
    have hexec : exec test [] = some [none, some 16] := by decide
    exact hhas.path hexec
  have hbf : code.at? 6 = some (.ofOperation .bf) := by
    have hhas : code.Has 0 (test ++ .op .bf :: (call ++ rest)) := (Occurs.refl _).has hc
    exact hhas.at?
  have hleft : code.Path 7 16 ⟨7, []⟩ ⟨16, [none]⟩ := by
    have hexec : exec call [] = some [none] := by decide
    exact (hat.has hc).path hexec
  have hbranch : ∀ b, b ∈ [(⟨7, []⟩ : Point), ⟨16, []⟩] → code.Path 0 16 ⟨0, []⟩ b :=
    fun b hb => .step (htest.mono (Nat.le_refl _) (by decide)) (Nat.zero_le _) (by decide)
      ⟨_, _, hbf, rfl, hb⟩
  refine ⟨o.root, code, n, hr, by decide +kernel, hg, hn, hk, ?_, fun hraises => ?_,
    hbranch _ (by simp), (hbranch _ (by simp)).trans (hleft.mono (by decide) (Nat.le_refl _))⟩
  · rw [hlines, hcall]
    exact hat
  · exact absurd ((hraises [] _ hleft).2.2.2.1 rfl) (by decide)

end StackCompiler
