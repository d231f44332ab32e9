import StackCompiler.Proofs.Compiling
import StackCompiler.Proofs.Simulation.Statements

/-!
# Programs on the machine

The machine with the module of a program finds the code of main at its start, the literals at their
addresses and a slot for every named constant and variable. So it ends if the program does, with the
output and the values of the program.
-/

namespace StackCompiler

theorem find?_literal {γ : Type} {items : List (Constant γ)} {L : Scopes} {id : Symbol.Id} {v : γ}
    {st : Storage} (hmem : ⟨v, id⟩ ∈ items) (hst : L.Stores id st)
    (hunique : ∀ k ∈ items, L.Stores k.symbol st → k.value = v) :
    (items.find? fun k => (L.symbol? k.symbol).bind Symbol.storage = some st).map (·.value) =
      some v := by
  have hstores {id : Symbol.Id} :
      (L.symbol? id).bind Symbol.storage = some st ↔ L.Stores id st := Option.bind_eq_some_iff
  cases hf : items.find? fun k => (L.symbol? k.symbol).bind Symbol.storage = some st with
  | none =>
    have hnone := List.find?_eq_none.1 hf ⟨v, id⟩ hmem
    exact absurd (decide_eq_true (hstores.2 hst)) hnone
  | some k =>
    have hk : (L.symbol? k.symbol).bind Symbol.storage = some st := by
      simpa using List.find?_some hf
    rw [Option.map_some, hunique k (List.mem_of_find?_eq_some hf) (hstores.1 hk)]

namespace Outline

variable {o : Outline} {s : Scopes} {built : Code.Build} {A : Arithmetic}
  {fresh : Nat → Option Value} {id : Symbol.Id} {k : Nat}

theorem declared_root (o : Outline) :
    o.root.declared = (o.constants.map Constant.entry ++ o.vars).map Prod.snd := by
  rw [Node.declared, o.constantNodes_root, o.variableNodes_root, List.filterMap_append,
    List.map_append, List.map_map]
  congr 1
  · rw [List.filterMap_map, ← List.filterMap_eq_map]
    rfl
  · rw [List.filterMap_map, ← List.filterMap_eq_map]
    rfl

theorem length_declared (o : Outline) :
    o.root.declared.length = o.constants.length + o.vars.length := by
  simp [o.declared_root]

/-- The slots of named constants and variables follow the order of their declarations. -/
theorem Valid.of_declared (h : o.Valid s) (hk : o.root.declared[k]? = some id) :
    ∃ sym t, s.symbol? id = some sym ∧ sym.IsVariable t ∧ sym.storage = some (.ofGlobal k) := by
  rw [o.declared_root, List.getElem?_map, Option.map_eq_some_iff] at hk
  obtain ⟨e, hk, rfl⟩ := hk
  rw [List.getElem?_append] at hk
  split at hk
  · obtain ⟨sym, t, hs, -, hv, -, hst⟩ := h.constants.holds k e hk
    exact ⟨sym, t, hs, hv, hst⟩
  · next hle =>
    obtain ⟨sym, t, hs, -, hv, -, hst⟩ := h.vars _ e hk
    rw [List.length_map] at hle hst
    refine ⟨sym, t, hs, hv, ?_⟩
    simp only [hst, Nat.add_sub_cancel' (Nat.le_of_not_lt hle)]

theorem Valid.nodup_declared (h : o.Valid s) : o.root.declared.Nodup := by
  refine List.pairwise_iff_getElem.2 fun i j hi hj hij heq => ?_
  obtain ⟨sym, -, hs, -, hst⟩ := h.of_declared (List.getElem?_eq_getElem hi)
  obtain ⟨sym', -, hs', -, hst'⟩ := h.of_declared (List.getElem?_eq_getElem hj)
  rw [heq, hs'] at hs
  obtain rfl := Option.some.inj hs
  have hplace := hst.symm.trans hst'
  simp only [Storage.ofGlobal, Option.some.injEq, Storage.mk.injEq] at hplace
  omega

theorem Builds.stores_declared (hb : o.Builds s built) (h : o.Valid s)
    (hk : o.root.declared[k]? = some id) : built.scopes.Stores id (.ofGlobal k) := by
  obtain ⟨sym, -, hs, -, hst⟩ := h.of_declared hk
  exact ⟨sym, hb.loaded.vars id sym _ hs hst, hst⟩

theorem Builds.find?_literal {γ : Type} {items : List (StackCompiler.Constant γ)}
    {value? : Symbol.Attribute → Option γ} {sym : Symbol} {v : γ} (hb : o.Builds s built)
    (h : o.Valid s)
    (hmem : ∀ k, k ∈ items ↔ k.symbol ∈ s.constants.symbols ∧ ∃ sym,
      s.symbol? k.symbol = some sym ∧ sym.attributes.findSome? value? = some k.value)
    (hid : id ∈ s.constants.symbols) (hs : s.symbol? id = some sym)
    (hv : sym.attributes.findSome? value? = some v) :
    ∃ a ≤ maxOffset, built.scopes.Stores id ⟨.constants, (a : Nat)⟩ ∧
      (items.find? fun k => (built.scopes.symbol? k.symbol).bind Symbol.storage =
        some ⟨.constants, a⟩).map (·.value) = some v := by
  obtain ⟨a, hle, hst⟩ := hb.addresses id hid
  refine ⟨a, hle, hst, StackCompiler.find?_literal ((hmem ⟨v, id⟩).2 ⟨hid, sym, hs, hv⟩) hst ?_⟩
  intro k hk hst'
  obtain ⟨hid', sym', hs', hv'⟩ := (hmem k).1 hk
  obtain rfl := hb.loaded.literal_inj h.scopes hid hid' hst hst'
  obtain rfl := Option.some.inj (hs.symm.trans hs')
  exact Option.some.inj (hv'.symm.trans hv)

theorem Builds.serves (hb : o.Builds s built) (h : o.Valid s) :
    (built.machine A fresh).Serves s built.scopes o.root.declared := by
  have hlit := hb.literals
  simp only [Code.literals, Prod.mk.injEq] at hlit
  refine ⟨h.nodup_declared, ?few, fun k id hk => hb.stores_declared h hk, ?integers, ?strings⟩
  case few =>
    rw [o.length_declared]
    exact hb.slots_le h.isSegment_main List.mem_cons_self
  case integers =>
    rintro text id n hr ⟨sym, hs, -, ha⟩
    refine hb.find?_literal h (hlit.1 ▸ Emitter.mem_integers h.scopes)
      (h.scopes.mem_literals hr) hs ?_
    rw [ha]
    rfl
  case strings =>
    rintro text id t hr ⟨sym, hs, -, ha⟩
    refine hb.find?_literal h (hlit.2.2 ▸ Emitter.mem_strings h.scopes)
      (h.scopes.mem_literals hr) hs ?_
    rw [ha]
    rfl

theorem Valid.within_main (h : o.Valid s) (hf : o.functions = []) :
    (Scopes.namesOf [o.vars, o.globals o.functions.length]).Within s o.root.declared := by
  have hsees {text : String} {id : Symbol.Id}
      (hn : Scopes.namesOf [o.vars, o.globals o.functions.length] text = some id) :
      o.MainSees id := by
    simpa [MainSees] using Names.Sees.of_namesOf ⟨text, hn⟩
  refine ⟨fun text id t hn hv => ?_, fun text id hn hfun => ?_⟩
  · rw [o.declared_root, List.map_append, List.mem_append]
    have hid := hsees hn
    rw [MainSees, Entry.Sees, List.map_append, List.mem_append] at hid
    rcases hid with hid | hid
    · exact .inr hid
    · exact .inl (h.constant_of_global hid hv)
  · obtain ⟨f, hmem, -⟩ := h.function_of_main (hsees hn) hfun
    simp [hf] at hmem

theorem Valid.within_constants (h : o.Valid s) (k : Nat) :
    (Scopes.namesOf [(o.constants.take k).map Constant.entry]).Within s o.root.declared := by
  have hsees {text : String} {id : Symbol.Id}
      (hn : Scopes.namesOf [(o.constants.take k).map Constant.entry] text = some id) :
      Entry.Sees (o.constants.map Constant.entry) id := by
    obtain ⟨e, he, rfl⟩ := List.mem_map.1 (Names.Sees.of_namesOf ⟨text, hn⟩)
    rw [List.flatten_cons, List.flatten_nil, List.append_nil] at he
    obtain ⟨c, hc, rfl⟩ := List.mem_map.1 he
    exact List.mem_map.2 ⟨_, List.mem_map.2 ⟨c, List.mem_of_mem_take hc, rfl⟩, rfl⟩
  refine ⟨fun text id t hn hv => ?_, fun text id hn => ?_⟩
  · rw [o.declared_root, List.map_append, List.mem_append]
    exact .inl (hsees hn)
  · exact h.constants.holds.not_function (hsees hn)

section Constants

variable {M : Machine} {L : Scopes} {st : State} {σ σ' : Store} {stack : List Cell} {p k : Nat}
  {c : Constant}

theorem Valid.yields_constant (h : o.Valid s) (hM : M.Serves s L o.root.declared)
    (hk : o.constants[k]? = some c) (hp : c.node.All (Node.IsPlain s.valueType))
    (hσ : st.store.Typed s o.root.declared)
    (hc : M.Holds L p (Assembly.constant s.valueType c.node)) :
    M.Yields (st.config o.root.declared p stack) (c.node.initConstant M.arithmetic st.store)
      fun σ => State.config ⟨σ, st.output⟩ o.root.declared
        (p + span (Assembly.constant s.valueType c.node)) stack := by
  obtain ⟨he, -, -, -⟩ := h.constants.values k c hk
  have hid : c.id ∈ o.root.declared := by
    rw [o.declared_root, List.map_append, List.mem_append]
    exact .inl (List.mem_map.2 ⟨c.entry, List.mem_map.2 ⟨c, List.mem_of_getElem? hk, rfl⟩, rfl⟩)
  exact (hM.pushes (h.within_constants k) hσ he (hp.left _ rfl)).yields_store hM hid hc

theorem Valid.initConstant_typed (h : o.Valid s) (hk : o.constants[k]? = some c)
    (hp : c.node.All (Node.IsPlain s.valueType)) (hσ : σ.Typed s o.root.declared)
    (hi : c.node.initConstant A σ = some σ') : σ'.Typed s o.root.declared := by
  obtain ⟨he, t, tv, hv⟩ := h.constants.values k c hk
  obtain ⟨v, hval, rfl⟩ := Option.map_eq_some_iff.1 hi
  refine hσ.set ?_
  rw [hv.hasType.valueType]
  exact he.eval_type (h.within_constants k) (hp.left _ rfl) hσ tv hval

theorem Valid.implements_constants (h : o.Valid s) (hM : M.Serves s L o.root.declared)
    (hp : o.root.All (Node.IsPlain s.valueType))
    (hc : M.Holds L p (o.root.constantNodes.flatMap (Assembly.constant s.valueType))) :
    M.Implements s o.root.declared p
      (p + span (o.root.constantNodes.flatMap (Assembly.constant s.valueType)))
      (.update (Node.onStore (Node.initAll M.arithmetic o.root))) := by
  have hplain : ∀ n ∈ o.constants.map Constant.node, n.All (Node.IsPlain s.valueType) :=
    Node.all_of_list (hp.left _ rfl).left
  have hitem : ∀ n ∈ o.root.constantNodes, n.All (Node.IsPlain s.valueType) ∧
      ∃ (k : Nat) (c : Constant), o.constants[k]? = some c ∧ c.node = n := by
    rw [o.constantNodes_root]
    intro n hn
    obtain ⟨c, hc, rfl⟩ := List.mem_map.1 hn
    obtain ⟨k, hk⟩ := List.mem_iff_getElem?.1 hc
    exact ⟨hplain _ hn, k, c, hk, rfl⟩
  have htyped : ∀ n ∈ o.root.constantNodes, ∀ σ σ', Store.Typed σ s o.root.declared →
      n.initConstant M.arithmetic σ = some σ' → σ'.Typed s o.root.declared := by
    intro n hn σ σ' hσ hi
    obtain ⟨hp, k, c, hk, rfl⟩ := hitem n hn
    exact h.initConstant_typed hk hp hσ hi
  refine Machine.implements_update (fun st hσ => ?_) fun st st' hσ hf => ?_
  · have hy : M.Yields (st.config o.root.declared p [])
        (Node.initAll M.arithmetic o.root st.store)
        fun σ => State.config ⟨σ, st.output⟩ o.root.declared
          (p + span (o.root.constantNodes.flatMap (Assembly.constant s.valueType))) [] := by
      refine hc.yields_foldlM (fun σ => σ.Typed s o.root.declared)
        (fun σ p => State.config ⟨σ, st.output⟩ o.root.declared p []) hσ ?_ htyped
      intro n hn σ p hσ hc
      obtain ⟨hp, k, c, hk, rfl⟩ := hitem n hn
      exact h.yields_constant hM hk hp hσ hc
    exact hy.map fun σ _ => .refl _
  · obtain ⟨σ, hi, rfl⟩ := Option.map_eq_some_iff.1 hf
    exact foldlM_induct (fun σ => σ.Typed s o.root.declared) hσ hi htyped

end Constants

/-! ## Main -/

theorem Builds.holds_main (hb : o.Builds s built) :
    (built.machine A fresh).Holds built.scopes 0 (Assembly.main s.valueType o.root) := by
  have hprogram : (built.machine A fresh).Holds built.scopes 0
      (Assembly.program s.valueType o.root) := by
    refine ⟨⟨[], [], ?_, rfl⟩, hb.fit⟩
    rw [List.nil_append, List.append_nil, bytesOf, ← List.flatMap_map]
    exact hb.code.codeBytes
  rw [Assembly.program, Assembly.segments, List.flatten_cons] at hprogram
  exact hprogram.left

theorem Builds.slot?_declared (hb : o.Builds s built) (h : o.Valid s)
    (hk : o.root.declared[k]? = some id) : built.slot? id = some k := by
  obtain ⟨sym, hs, hst⟩ := hb.stores_declared h hk
  rw [Code.Build.slot?, hs, Option.bind_some, hst]
  exact Machine.slot?_mul k

theorem Builds.map_initial (hb : o.Builds s built) (h : o.Valid s) :
    o.root.declared.map (built.initial fresh) =
      (List.range o.root.declared.length).map fresh := by
  refine List.ext_getElem? fun k => ?_
  rw [List.getElem?_map, List.getElem?_map]
  cases hk : o.root.declared[k]? with
  | none =>
    have hle := List.getElem?_eq_none_iff.1 hk
    rw [List.getElem?_eq_none (by simpa using hle)]
    rfl
  | some id =>
    have hlt := (List.getElem?_eq_some_iff.1 hk).1
    rw [List.getElem?_range hlt, Option.map_some, Option.map_some, Code.Build.initial,
      hb.slot?_declared h hk]
    rfl

theorem Builds.map_final (hb : o.Builds s built) (h : o.Valid s) (σ : Store) :
    o.root.declared.map (built.final (o.root.declared.map σ)) = o.root.declared.map σ := by
  refine List.map_congr_left fun id hid => ?_
  obtain ⟨k, hk⟩ := List.mem_iff_getElem?.1 hid
  rw [Code.Build.final, hb.slot?_declared h hk, Option.bind_some, List.getElem?_map, hk]
  rfl

theorem leads_alloc {M : Machine} {L : Scopes} {n : Nat} {ys : List Line}
    (hc : M.Holds L 0 (Assembly.alloc n ++ ys)) :
    M.Leads ⟨0, [], [], []⟩ ⟨span (Assembly.alloc n), [], (List.range n).map M.fresh, []⟩ := by
  unfold Assembly.alloc at hc ⊢
  by_cases hn : n = 0
  · subst hn
    exact .refl _
  · rw [if_neg hn] at hc ⊢
    have hspan : span [.count n, .op .alloc] = 0 + (Line.count n).instruction.size + 1 := by
      simp only [span_cons, size_op, span_nil]
      omega
    have hreserve : M.execute .alloc 0
        ⟨0 + (Line.count n).instruction.size + 1, [.value (.int n)], [], []⟩ =
          some ⟨0 + (Line.count n).instruction.size + 1, [], (List.range n).map M.fresh, []⟩ := by
      show (if 0 ≤ (n : Int) then some _ else none) = _
      rw [if_pos (Int.natCast_nonneg n), Int.toNat_natCast, Machine.reserve]
      simp
    rw [hspan]
    exact hc.left.leads_count.trans (hc.left.tail.leads_op rfl hreserve)

theorem length_nodes (o : Outline) :
    o.root.constantNodes.length + o.root.variableNodes.length = o.root.declared.length := by
  rw [o.length_declared, o.constantNodes_root, o.variableNodes_root, List.length_map,
    List.length_map]

theorem Builds.leads_start (hb : o.Builds s built) (h : o.Valid s) :
    (built.machine A fresh).Leads ⟨0, [], [], []⟩
      (State.config ⟨built.initial fresh, []⟩ o.root.declared
        (span (Assembly.alloc o.root.declared.length)) []) := by
  have hc : (built.machine A fresh).Holds built.scopes 0 (Assembly.main s.valueType o.root) :=
    hb.holds_main
  rw [Assembly.main, Assembly.prologue, o.length_nodes, List.append_assoc, List.append_assoc] at hc
  have hl := leads_alloc hc
  rwa [show (built.machine A fresh).fresh = fresh from rfl, ← hb.map_initial h] at hl

theorem Builds.implements_main (hb : o.Builds s built) (h : o.Valid s) (hf : o.functions = [])
    (hp : o.root.All (Node.IsPlain s.valueType)) :
    ∃ q, (built.machine A fresh).Holds built.scopes q [.op .halt] ∧
      (built.machine A fresh).Implements s o.root.declared
        (span (Assembly.alloc o.root.declared.length)) q
        (.andThen (.update (Node.onStore (Node.initAll A o.root))) (Node.execOf A o.body)) := by
  have hM : (built.machine A fresh).Serves s built.scopes o.root.declared := hb.serves h
  have hc : (built.machine A fresh).Holds built.scopes 0 (Assembly.main s.valueType o.root) :=
    hb.holds_main
  obtain ⟨body, hbody, hstatements⟩ := h.body
  have hplain : Node.AllIn (Node.IsPlain s.valueType) (Node.list .statements body) := by
    rw [← hbody]
    exact (hp.right _ rfl).right
  have hnode : o.root.right.bind Node.right = Node.list .statements body := hbody
  rw [Assembly.main, hnode] at hc
  have hconstants := hc.left.left
  rw [Assembly.prologue, o.length_nodes] at hconstants
  have hblock := hc.left.right
  rw [Nat.zero_add] at hblock
  have hhalt := hc.right
  refine ⟨_, hhalt, ?_⟩
  have hinit := h.implements_constants hM hp hconstants.right
  have hexec := Machine.implements_execOf
    (fun n hn p hp hc => hM.implements (h.within_main hf) (hstatements n hn) hp hc)
    (Node.all_of_list hplain) hblock
  rw [hbody]
  simp only [Assembly.prologue, o.length_nodes, span_append, Nat.zero_add] at hinit hexec ⊢
  exact hinit.andThen hexec

/-- The machine halts exactly if the program ends, and then with what the program leaves. -/
theorem Builds.ends_iff (hb : o.Builds s built) (h : o.Valid s) (hf : o.functions = [])
    (hp : o.root.All (Node.IsPlain s.valueType))
    (hσ : (built.initial fresh).Typed s o.root.declared)
    {r : List (Option Value) × List Output} :
    (built.machine A fresh).Ends ⟨0, [], [], []⟩ r ↔
      ∃ output σ, o.root.Runs A (built.initial fresh) output σ ∧
        r = (o.root.declared.map σ, output) := by
  have hmain : ∃ q, (built.machine A fresh).Holds built.scopes q [.op .halt] ∧
      (built.machine A fresh).Implements s o.root.declared
        (span (Assembly.alloc o.root.declared.length)) q
        (.andThen (.update (Node.onStore (Node.initAll A o.root))) (Node.execOf A o.body)) :=
    hb.implements_main h hf hp
  obtain ⟨q, hhalt, himp⟩ := hmain
  rw [(hb.leads_start h).ends_iff, himp.ends_iff hhalt hσ]
  constructor
  · rintro ⟨flow, ⟨σ, output⟩, hm, rfl⟩
    rcases hm with ⟨-, hr, -⟩ | ⟨st, ⟨-, hi⟩, hx⟩
    · cases hr
    · obtain ⟨σ₁, hσ₁, rfl⟩ := Option.map_eq_some_iff.1 hi
      exact ⟨output, σ, ⟨σ₁, hσ₁, flow, hx⟩, rfl⟩
  · rintro ⟨output, σ, ⟨σ₁, hi, flow, hx⟩, rfl⟩
    refine ⟨flow, ⟨σ, output⟩, .inr ⟨⟨σ₁, []⟩, ⟨rfl, ?_⟩, hx⟩, rfl⟩
    rw [Node.onStore, hi]
    rfl

end Outline

/-- The module of a program without functions, input and real numbers does what the program means:
the machine that runs its code from the start halts with some output and values of the variables
exactly if the program ends with them. -/
theorem compile_meaning {source : String} {dumps : Dumps} {m : Compiled}
    (h : (compile source dumps).1 = .ok m) :
    ∃ root built, CompilesTo source root built ∧ built.result = .ok m.moduleText ∧
      (root.functionNodes = [] →
        root.All (Node.IsPlain (parseSource source .empty).scopes.valueType) →
        ∀ (A : Arithmetic) (fresh : Nat → Option Value),
          (built.initial fresh).Typed (parseSource source .empty).scopes root.declared →
          ∀ output values,
            (∃ slots, (built.machine A fresh).Ends ⟨0, [], [], []⟩ (slots, output) ∧
              root.declared.map (built.final slots) = values) ↔
            ∃ σ, root.Runs A (built.initial fresh) output σ ∧ root.declared.map σ = values) := by
  obtain ⟨o, built, hc, hr, hv, hb⟩ := exists_builds h
  refine ⟨o.root, built, hc, hr, fun hf hp A fresh hσ output values => ?_⟩
  have hf : o.functions = [] := by
    rw [o.functionNodes_root] at hf
    exact List.map_eq_nil_iff.1 hf
  constructor
  · rintro ⟨slots, he, rfl⟩
    obtain ⟨output', σ, hrun, heq⟩ := (hb.ends_iff hv hf hp hσ).1 he
    obtain ⟨rfl, rfl⟩ := Prod.mk.inj heq
    exact ⟨σ, hrun, (hb.map_final hv σ).symm⟩
  · rintro ⟨σ, hrun, rfl⟩
    refine ⟨o.root.declared.map σ, ?_, hb.map_final hv σ⟩
    exact (hb.ends_iff hv hf hp hσ).2 ⟨output, σ, hrun, rfl⟩

/-- A program that gives a variable a value and prints it. -/
def printingSource : String := "CD20 p main x : int begin x = 7; println x; end CD20 p"

def printingRoot : Node :=
  .mk .program (some "p") none (some (.leaf .globals)) none
    (some (.mk .main (some "main") none (some (Entry.node ("x", 0))) none
      (some (.binary .statements
        (.mk .assign none (some 0) (some (Scopes.variableNode "x" 0)) none
          (some (.mk .intLiteral (some "7") (some 1) none none none)))
        (.unary .println (Scopes.variableNode "x" 0))))))

theorem compile_meaning_printing : ∃ m built, (compile printingSource .none).1 = .ok m ∧
    CompilesTo printingSource printingRoot built ∧ printingRoot.functionNodes = [] ∧
    printingRoot.All (Node.IsPlain (parseSource printingSource .empty).scopes.valueType) ∧
    ∀ A, ∃ slots, (built.machine A fun _ => none).Ends ⟨0, [], [], []⟩
        (slots, [.value (.int 7), .newLine]) ∧
      printingRoot.declared.map (built.final slots) = [some (.int 7)] := by
  have htree : (parseSource printingSource .empty).root = some printingRoot := by decide +kernel
  have hplain : printingRoot.All
      (Node.IsPlain (parseSource printingSource .empty).scopes.valueType) := by decide +kernel
  obtain ⟨m, hm⟩ := exists_of_isOk (x := (compile printingSource .none).1) (by decide +kernel)
  obtain ⟨root, built, hc, -, hiff⟩ := compile_meaning hm
  obtain rfl := Option.some.inj (htree.symm.trans hc.tree)
  refine ⟨m, built, hm, hc, rfl, hplain, fun A => ?_⟩
  have hσ : (built.initial fun _ => none).Typed (parseSource printingSource .empty).scopes
      printingRoot.declared := by
    intro id _ v hv
    simp [Code.Build.initial] at hv
  refine (hiff rfl hplain A _ hσ _ _).2 ⟨(built.initial fun _ => none).set 0 (.int 7), ?_, rfl⟩
  refine ⟨_, rfl, .running, .inr ⟨⟨_, []⟩, ⟨rfl, rfl⟩, rfl, rfl⟩⟩

end StackCompiler
