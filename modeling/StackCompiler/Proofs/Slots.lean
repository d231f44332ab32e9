import StackCompiler.Proofs.Emission.Frame
import StackCompiler.Proofs.Frames

/-!
# Slots of variables

Variables get their slots in the order of their declarations, and keep them. Two variables that can
be seen from the same point never overlap: what is global lies in one region, each word behind the
other, and a frame holds parameters below its base and locals above it.
-/

namespace StackCompiler

namespace Node

def typeNodes (root : Node) : List Node := listed .typeList (root.left.bind centre)

def arrayNodes (root : Node) : List Node := listed .arrayDecls (root.left.bind right)

def fieldNodes (type : Node) : List Node := listed .structFields type.left

def frameNodes (function : Node) : List Node := function.parameterNodes ++ function.localNodes

/-- What can be seen in main and has a slot: the named constants and the variables of main. -/
def globalNodes (root : Node) : List Node := root.constantNodes ++ root.variableNodes

end Node

namespace Outline

variable {o : Outline} {s : Scopes}

theorem Defines.typeNodes {l types : List Entry} {ns : List Node} (h : Defines s l types ns)
    (hns : o.typesNode = Node.list .typeList ns) : o.root.typeNodes = ns := by
  show Node.listed .typeList o.typesNode = ns
  rw [hns]
  refine Node.listed_list fun n hn => ?_
  obtain ⟨visible, e, hdef⟩ := h.of_mem hn
  cases hdef <;> exact nofun

theorem Valid.typeNodes_root (h : o.Valid s) : ∃ types arrays, o.types = types ++ arrays ∧
    Defines s (o.constants.map Constant.entry) types o.root.typeNodes ∧
    o.root.arrayNodes = arrays.map Entry.arrayNode := by
  obtain ⟨types, arrays, ns, htypes, hns, hdefs, harrays⟩ := h.definitions
  refine ⟨types, arrays, htypes, by rwa [hdefs.typeNodes hns], ?_⟩
  show Node.listed .arrayDecls o.arraysNode = _
  rw [harrays]
  refine Node.listed_list fun n hn => ?_
  obtain ⟨e, -, rfl⟩ := List.mem_map.1 hn
  exact nofun

end Outline

/-- The symbol that the node declares has this place, or has none. -/
def Scopes.Places (s : Scopes) (n : Node) (place : Option Storage) : Prop :=
  ∃ id sym, n.symbol = some id ∧ s.symbol? id = some sym ∧ sym.storage = place

/-- The words at the two places do not overlap. -/
def Storage.Apart (a b : Storage) : Prop :=
  a.region ≠ b.region ∨ a.offset + 8 ≤ b.offset ∨ b.offset + 8 ≤ a.offset

/-- The symbols that the nodes declare have words of their own. -/
def Scopes.Apart (s : Scopes) (m n : Node) : Prop :=
  ∃ a b, s.Places m (some a) ∧ s.Places n (some b) ∧ a.Apart b

/-- Where the variables of a program are when it was read with the scopes `s`, and what becomes of
them. -/
structure SlotLayout (s : Scopes) (root : Node) : Prop where
  globals : ∀ (k : Nat) n, root.globalNodes[k]? = some n → s.Places n (some ⟨.globals, 8 * k⟩)
  parameters : ∀ f ∈ root.functionNodes, ∀ (i : Nat) n, f.parameterNodes[i]? = some n →
    s.Places n (some ⟨.declarations, -8 - 8 * i⟩)
  locals : ∀ f ∈ root.functionNodes, ∀ (j : Nat) n, f.localNodes[j]? = some n →
    s.Places n (some ⟨.declarations, 16 + 8 * j⟩)
  /-- Nothing else has a place before code is generated. -/
  others : ∀ n ∈ root.typeNodes ++ root.arrayNodes ++ root.functionNodes, s.Places n none
  fields : ∀ t ∈ root.typeNodes, t.kind = .structDef → ∀ n ∈ t.fieldNodes, s.Places n none
  /-- Neither generating the code nor building the module changes a variable, even if it fails. -/
  kept : ∀ n ∈ root.globalNodes ++ root.functionNodes.flatMap Node.frameNodes,
    ∀ id, n.symbol = some id →
      (generate root s).scopes.symbol? id = s.symbol? id ∧
      ∀ code, (generate root s).code = .ok code →
        (code.build (generate root s).scopes).scopes.symbol? id = s.symbol? id
  main : root.globalNodes.Pairwise s.Apart
  functions : ∀ f ∈ root.functionNodes, (root.constantNodes ++ f.frameNodes).Pairwise s.Apart

theorem Scopes.Holds.places {s : Scopes} {entries : List Entry} {k : Nat} {n : Node}
    {attributes : DataType → List Symbol.Attribute} {place : Nat → Option Storage}
    (h : s.Holds entries attributes place) (hk : (entries.map Entry.node)[k]? = some n) :
    s.Places n (place k) := by
  rw [List.getElem?_map, Option.map_eq_some_iff] at hk
  obtain ⟨e, he, rfl⟩ := hk
  obtain ⟨sym, t, hs, -, -, -, hp⟩ := h k e he
  exact ⟨e.2, sym, rfl, hs, hp⟩

/-- Nodes whose places advance by a word, upward or downward, have words of their own. -/
theorem Scopes.pairwise_apart {s : Scopes} {ns : List Node} {place : Nat → Storage}
    (h : ∀ (k : Nat) n, ns[k]? = some n → s.Places n (some (place k)))
    (hp : ∀ i j, i < j → (place i).Apart (place j)) : ns.Pairwise s.Apart := by
  rw [List.pairwise_iff_getElem]
  intro i j hi hj hij
  exact ⟨_, _, h i _ (List.getElem?_eq_getElem hi), h j _ (List.getElem?_eq_getElem hj), hp i j hij⟩

theorem Scopes.pairwise_append {s : Scopes} {ms ns : List Node} {P Q : Storage → Prop}
    (hm : ms.Pairwise s.Apart) (hn : ns.Pairwise s.Apart)
    (hP : ∀ m ∈ ms, ∃ a, s.Places m (some a) ∧ P a) (hQ : ∀ n ∈ ns, ∃ b, s.Places n (some b) ∧ Q b)
    (h : ∀ a b, P a → Q b → a.Apart b) : (ms ++ ns).Pairwise s.Apart := by
  refine List.pairwise_append.2 ⟨hm, hn, fun m hmem n hnem => ?_⟩
  obtain ⟨a, ha, hPa⟩ := hP m hmem
  obtain ⟨b, hb, hQb⟩ := hQ n hnem
  exact ⟨a, b, ha, hb, h a b hPa hQb⟩

namespace Storage

variable {i j : Nat}

theorem apart_ofGlobal (h : i < j) : (ofGlobal i).Apart (ofGlobal j) := by
  simp only [Apart, ofGlobal]
  omega

theorem apart_ofParameter (h : i < j) : (ofParameter i).Apart (ofParameter j) := by
  simp only [Apart, ofParameter]
  omega

theorem apart_ofLocal (h : i < j) : (ofLocal i).Apart (ofLocal j) := by
  simp only [Apart, ofLocal]
  omega

end Storage

namespace Outline

variable {o : Outline} {s : Scopes} {n : Node}

theorem ValidConstants.places {constants : List Constant} {k : Nat} (h : ValidConstants constants s)
    (hk : (constants.map Constant.node)[k]? = some n) : s.Places n (some (.ofGlobal k)) := by
  rw [List.getElem?_map, Option.map_eq_some_iff] at hk
  obtain ⟨c, hc, rfl⟩ := hk
  obtain ⟨sym, t, hs, -, -, -, hp⟩ := h.holds k c.entry (by rw [List.getElem?_map, hc]; rfl)
  exact ⟨c.id, sym, rfl, hs, hp⟩

theorem Valid.places_global (h : o.Valid s) {k : Nat} (hk : o.root.globalNodes[k]? = some n) :
    s.Places n (some (.ofGlobal k)) := by
  rw [Node.globalNodes, o.constantNodes_root, o.variableNodes_root, List.getElem?_append] at hk
  split at hk
  · exact h.constants.places hk
  · next hle =>
    rw [List.length_map] at hk hle
    have hplace := h.vars.places hk
    rwa [Nat.add_sub_cancel' (Nat.le_of_not_lt hle)] at hplace

theorem Valid.function_of_node (h : o.Valid s) (hn : n ∈ o.root.functionNodes) :
    ∃ (k : Nat) (f : Function), o.functions[k]? = some f ∧ n = f.node ∧
      f.Valid s (o.globals (k + 1)) := by
  rw [o.functionNodes_root] at hn
  obtain ⟨f, hf, rfl⟩ := List.mem_map.1 hn
  obtain ⟨k, hk⟩ := List.mem_iff_getElem?.1 hf
  exact ⟨k, f, hk, rfl, h.functions k f hk⟩

theorem ValidTypes.places {types : List Entry} (h : ValidTypes types s) {e : Entry} (he : e ∈ types)
    (hn : n.symbol = some e.2) : s.Places n none := by
  obtain ⟨sym, hs, -, -, hst⟩ := h e he
  exact ⟨e.2, sym, hn, hs, hst⟩

theorem Valid.places_none (h : o.Valid s)
    (hn : n ∈ o.root.typeNodes ++ o.root.arrayNodes ++ o.root.functionNodes) : s.Places n none := by
  obtain ⟨types, arrays, htypes, hdefs, harrays⟩ := h.typeNodes_root
  have hplaces := h.types
  rw [htypes] at hplaces
  rw [List.mem_append, List.mem_append] at hn
  rcases hn with (hn | hn) | hn
  · obtain ⟨k, hk⟩ := List.mem_iff_getElem?.1 hn
    have hlt : k < types.length := hdefs.1 ▸ (List.getElem?_eq_some_iff.1 hk).1
    have hdef := hdefs.2 k _ n (List.getElem?_eq_getElem hlt) hk
    refine hplaces.places (List.mem_append_left _ (List.getElem_mem hlt)) ?_
    cases hdef <;> rfl
  · rw [harrays] at hn
    obtain ⟨e, he, rfl⟩ := List.mem_map.1 hn
    exact hplaces.places (List.mem_append_right _ he) rfl
  · obtain ⟨k, f, -, rfl, hf⟩ := h.function_of_node hn
    obtain ⟨sym, hs, -, -, hst, -⟩ := hf.symbol
    exact ⟨f.id, sym, rfl, hs, hst⟩

theorem fieldNodes_record {v : Option String} {sym : Option Symbol.Id} (fields : List Entry) :
    (Node.mk .structDef v sym (Node.list .structFields (fields.map Entry.node)) none
      none).fieldNodes = fields.map Entry.node := by
  refine Node.listed_list fun m hm => ?_
  obtain ⟨e, -, rfl⟩ := List.mem_map.1 hm
  exact nofun

theorem Valid.places_field (h : o.Valid s) {t : Node} (ht : t ∈ o.root.typeNodes)
    (hk : t.kind = .structDef) (hn : n ∈ t.fieldNodes) : s.Places n none := by
  obtain ⟨types, arrays, -, hdefs, -⟩ := h.typeNodes_root
  obtain ⟨visible, e, hdef⟩ := hdefs.of_mem ht
  cases hdef with
  | array => cases hk
  | record fields hs hf =>
    obtain ⟨k, hk⟩ := List.mem_iff_getElem?.1 (fieldNodes_record fields ▸ hn)
    exact hf.places hk

theorem Valid.keeps_placed (h : o.Valid s) {st : Storage} {id : Symbol.Id}
    (hp : s.Places n (some st)) (hid : n.symbol = some id) :
    (generate o.root s).scopes.symbol? id = s.symbol? id ∧
      ∀ code, (generate o.root s).code = .ok code →
        (code.build (generate o.root s).scopes).scopes.symbol? id = s.symbol? id := by
  obtain ⟨id', sym, hid', hs, hst⟩ := hp
  obtain rfl : id' = id := Option.some.inj (hid'.symm.trans hid)
  have hgen : (generate o.root s).scopes.symbol? id' = s.symbol? id' :=
    symbol?_generate (h.not_function_of_storage hs (.inl (by simp [hst])))
  refine ⟨hgen, fun code hcode => ?_⟩
  rw [Code.symbol?_build, hgen]
  intro hmem
  -- literals have no place when the code is generated
  rcases h.generate_cases with ⟨code', hcode', -, hl, -⟩ | ⟨d, hd, -⟩
  · obtain rfl : code = code' := Except.ok.inj (hcode.symm.trans hcode')
    rw [((Emitter.pool_of_literals h.scopes hl).map Prod.fst).mem_iff,
      s.map_fst_literalSizes] at hmem
    obtain ⟨sym', key, hs', -, hst'⟩ := h.scopes.of_literal hmem
    obtain rfl := Option.some.inj (hs.symm.trans hs')
    simp [hst] at hst'
  · simp [hd] at hcode

theorem Function.Valid.pairwise_frame {f : Function} {visible : List Entry}
    (h : f.Valid s visible) : f.node.frameNodes.Pairwise s.Apart ∧
      ∀ n ∈ f.node.frameNodes, ∃ b, s.Places n (some b) ∧ b.region = .declarations := by
  rw [Node.frameNodes, f.parameterNodes_node, f.localNodes_node]
  have hparams : ∀ n ∈ f.params.map Entry.node, ∃ b, s.Places n (some b) ∧
      b.region = .declarations ∧ b.offset < 0 := by
    intro n hn
    obtain ⟨k, hk⟩ := List.mem_iff_getElem?.1 hn
    exact ⟨_, h.params.places hk, rfl, by simp only [Storage.ofParameter]; omega⟩
  have hlocals : ∀ n ∈ f.locals.map Entry.node, ∃ b, s.Places n (some b) ∧
      b.region = .declarations ∧ 16 ≤ b.offset := by
    intro n hn
    obtain ⟨k, hk⟩ := List.mem_iff_getElem?.1 hn
    exact ⟨_, h.locals.places hk, rfl, by simp only [Storage.ofLocal]; omega⟩
  refine ⟨Scopes.pairwise_append ?_ ?_ hparams hlocals ?_, fun n hn => ?_⟩
  · exact Scopes.pairwise_apart (fun k n => h.params.places) fun i j => Storage.apart_ofParameter
  · exact Scopes.pairwise_apart (fun k n => h.locals.places) fun i j => Storage.apart_ofLocal
  · rintro a b ⟨-, ha⟩ ⟨-, hb⟩
    exact .inr (.inl (by omega))
  · rcases List.mem_append.1 hn with hn | hn
    · obtain ⟨b, hb, hr, -⟩ := hparams n hn
      exact ⟨b, hb, hr⟩
    · obtain ⟨b, hb, hr, -⟩ := hlocals n hn
      exact ⟨b, hb, hr⟩

theorem Valid.slotLayout (h : o.Valid s) : SlotLayout s o.root where
  globals k n hn := h.places_global hn
  parameters m hm i n hn := by
    obtain ⟨k, f, -, rfl, hf⟩ := h.function_of_node hm
    exact hf.params.places (f.parameterNodes_node ▸ hn)
  locals m hm j n hn := by
    obtain ⟨k, f, -, rfl, hf⟩ := h.function_of_node hm
    exact hf.locals.places (f.localNodes_node ▸ hn)
  others n hn := h.places_none hn
  fields t ht hk n hn := h.places_field ht hk hn
  kept n hn id hid := by
    rcases List.mem_append.1 hn with hn | hn
    · obtain ⟨k, hk⟩ := List.mem_iff_getElem?.1 hn
      exact h.keeps_placed (h.places_global hk) hid
    · obtain ⟨m, hm, hn⟩ := List.mem_flatMap.1 hn
      obtain ⟨k, f, -, rfl, hf⟩ := h.function_of_node hm
      obtain ⟨b, hb, -⟩ := hf.pairwise_frame.2 n hn
      exact h.keeps_placed hb hid
  main := Scopes.pairwise_apart (fun k n => h.places_global) fun i j => Storage.apart_ofGlobal
  functions m hm := by
    obtain ⟨k, f, -, rfl, hf⟩ := h.function_of_node hm
    have hglobals := Scopes.pairwise_apart (fun k n => h.places_global (k := k) (n := n))
      fun i j => Storage.apart_ofGlobal
    refine Scopes.pairwise_append (P := fun a => a.region = .globals) ?_ hf.pairwise_frame.1
      (fun n hn => ?_) hf.pairwise_frame.2 fun a b ha hb => .inl (by simp [ha, hb])
    · exact (List.pairwise_append.1 hglobals).1
    · obtain ⟨j, hj⟩ := List.mem_iff_getElem?.1 (List.mem_append_left o.root.variableNodes hn)
      exact ⟨_, h.places_global hj, rfl⟩

end Outline

/-- The variables of an accepted source have slots in the order of their declarations, and no two
that can be seen from the same point overlap. -/
theorem parse_slotLayout {source : String} {root : Node}
    (h : (parseSource source .empty).root = some root) :
    SlotLayout (parseSource source .empty).scopes root := by
  obtain ⟨o, rfl, ho⟩ := Parser.parseSource_outline h
  exact ho.slotLayout

/-- A program with variables of all sorts, some of which share a name. -/
def slotsSource : String :=
  "CD20 p constants a = 1, b = a * 2 types r is x : int, y : real end t is array [b] of r " ++
    "arrays u : t func f(a : int, x : bool) : int y : int, b : bool begin return a; end " ++
    "main a : int, z : int begin z = f(a, true); end CD20 p"

theorem parse_slotLayout_slots : ∃ root, (parseSource slotsSource .empty).root = some root ∧
    (root.constantNodes.length, root.variableNodes.length) = (2, 2) ∧
    root.typeNodes.length = 2 ∧ root.arrayNodes.length = 1 ∧
    (root.functionNodes.map fun f => (f.parameterNodes.length, f.localNodes.length)) = [(2, 2)] ∧
    SlotLayout (parseSource slotsSource .empty).scopes root := by
  have h : ((parseSource slotsSource .empty).root.any fun root =>
      (root.constantNodes.length, root.variableNodes.length) = (2, 2) ∧
      root.typeNodes.length = 2 ∧ root.arrayNodes.length = 1 ∧
      (root.functionNodes.map fun f => (f.parameterNodes.length, f.localNodes.length)) =
        [(2, 2)]) = true := by
    rw [parseSource, tokensOf_chars slotsSource (append_eq_ofList (append_eq_ofList rfl rfl) rfl)]
    decide +kernel
  obtain ⟨root, hr, hshape⟩ := (Option.any_eq_true _ _).1 h
  obtain ⟨hglobals, htypes, harrays, hfunctions⟩ := of_decide_eq_true hshape
  exact ⟨root, hr, hglobals, htypes, harrays, hfunctions, parse_slotLayout hr⟩

end StackCompiler
