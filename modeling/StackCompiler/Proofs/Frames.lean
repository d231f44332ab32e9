import StackCompiler.Proofs.ControlFlow

/-!
# Frames

Main and each function reserve the slots of their variables before anything else. Every load of a
variable reaches a slot that was reserved, or a parameter of the function that it stands in.
-/

namespace StackCompiler

def reserved : List Instruction → Int
  | .plain .lb bytes :: .plain .alloc _ :: _ => signedValue bytes
  | .plain .lh bytes :: .plain .alloc _ :: _ => signedValue bytes
  | _ => 0

/-- The instruction loads a value or an address from a region. -/
def Instruction.Loads (i : Instruction) (r : Region) : Prop :=
  i.operation = .loadValue r ∨ i.operation = .loadAddress r

theorem reserved_eq_zero {is : List Instruction} (h : ∀ i ∈ is, i.operation ≠ .alloc) :
    reserved is = 0 := by
  unfold reserved
  split
  · next bytes bs is =>
    exact absurd rfl (h (.plain .alloc bs) (by simp))
  · next bytes bs is =>
    exact absurd rfl (h (.plain .alloc bs) (by simp))
  · rfl

section Segments

variable {s L : Scopes} {visible : Symbol.Id → Prop} {last : Operation} {slots p : Nat}
  {lines : List Line}

theorem Scopes.Admits.operation_ne_alloc {jumps : Bool} {l : Line}
    (h : s.Admits visible jumps l) : (l.placed L).operation ≠ .alloc := by
  intro he
  cases h with
  | @op o ho =>
    have hoa : o = .alloc := he
    rw [hoa] at ho
    cases ho
  | count n =>
    rw [Line.placed_count] at he
    rcases Line.operation_count n with ⟨hi, -⟩ | hi <;> simp [hi, Instruction.operation] at he
  | jump => cases he
  | @value id _ | @address id _ | @function id _ _ =>
    rcases placed_pending_cases L _ id with hi | ⟨st, -, hi⟩
    all_goals
      rw [Line.placed, Line.instruction, hi] at he
      cases he

theorem Scopes.IsSegment.reserved (h : s.IsSegment visible last slots p lines)
    (hfit : ∀ l ∈ lines, l.Fits) : reserved (lines.map (Line.placed L)) = slots := by
  obtain ⟨body, rfl, hb⟩ := h.linked
  by_cases hs : slots = 0
  · rw [Assembly.alloc, if_pos hs, List.nil_append, hs]
    refine reserved_eq_zero fun i hi => ?_
    obtain ⟨l, hl, rfl⟩ := List.mem_map.1 hi
    exact (hb.admits l hl).operation_ne_alloc
  · rw [Assembly.alloc, if_neg hs] at hfit ⊢
    have hop := Line.operand_count (hfit (.count slots) (by simp))
    simp only [List.cons_append, List.nil_append, List.map_cons, Line.placed_count]
    rcases Line.operation_count slots with ⟨hi, -⟩ | hi
    all_goals
      rw [hi] at hop ⊢
      exact hop

theorem Scopes.Stores.unique {id : Symbol.Id} {st st' : Storage} (h : L.Stores id st)
    (h' : L.Stores id st') : st = st' := by
  obtain ⟨sym, hs, hst⟩ := h
  obtain ⟨sym', hs', hst'⟩ := h'
  obtain rfl := Option.some.inj (hs.symm.trans hs')
  exact Option.some.inj (hst.symm.trans hst')

theorem Instruction.Loads.stores {op : Operation} {id : Symbol.Id} {r : Region}
    (h : ((Instruction.pending op id).placed L).Loads r) (hop : op.isPending = true) :
    ∃ st, L.Stores id st ∧ st.region = r ∧
      ∃ op', (Instruction.pending op id).placed L = .symbolic op' id st.offset := by
  rcases placed_pending_cases L op id with hi | ⟨st, hst, hi⟩
  · rw [hi] at h
    have ho : op = .loadValue r ∨ op = .loadAddress r := h
    rcases ho with rfl | rfl <;> cases hop
  · rw [hi] at h
    refine ⟨st, hst, ?_, _, hi⟩
    have ho : op.inRegion st.region = .loadValue r ∨ op.inRegion st.region = .loadAddress r := h
    rw [Operation.inRegion] at ho
    split at ho <;> simpa using ho

theorem Scopes.IsSegment.loads_variable (h : s.IsSegment visible last slots p lines) {l : Line}
    {r : Region} (hl : l ∈ lines) (hload : (l.placed L).Loads r) (hr : r ≠ .constants)
    (hlit : ∀ text id, s.resolveConstant text = some id →
      ∃ offset, L.Stores id ⟨.constants, offset⟩)
    (hfun : ∀ id, visible id → s.IsFunction id → ∃ offset, L.Stores id ⟨.constants, offset⟩) :
    ∃ op id st, l.placed L = .symbolic op id st.offset ∧ L.Stores id st ∧ st.region = r ∧
      visible id ∧ ∃ t, s.IsVariable id t := by
  have hcount (n : Nat) : ¬ ((Line.count n).placed L).Loads r := by
    rw [Line.placed_count]
    rcases Line.operation_count n with ⟨hi, -⟩ | hi <;>
      simp [hi, Instruction.Loads, Instruction.operation]
  have hstored {op : Operation} {id : Symbol.Id} (hid : s.IsStored visible id)
      (hop : op.isPending = true) (hload : ((Instruction.pending op id).placed L).Loads r) :
      ∃ op' id' st, (Instruction.pending op id).placed L = .symbolic op' id' st.offset ∧
        L.Stores id' st ∧ st.region = r ∧ visible id' ∧ ∃ t, s.IsVariable id' t := by
    obtain ⟨st, hst, hreg, op', hi⟩ := hload.stores hop
    rcases hid with hv | ⟨text, ht⟩
    · exact ⟨op', id, st, hi, hst, hreg, hv⟩
    · obtain ⟨offset, hc⟩ := hlit text id ht
      obtain rfl := hst.unique hc
      exact absurd hreg.symm hr
  rcases h.admits hl with rfl | rfl | ha
  · exact absurd hload (hcount slots)
  · rcases hload with hload | hload <;> cases hload
  · cases ha with
    | @op o ho =>
      have hload : o = .loadValue r ∨ o = .loadAddress r := hload
      rcases hload with rfl | rfl <;> cases ho
    | count n => exact absurd hload (hcount n)
    -- a target is loaded as a constant
    | jump =>
      rcases hload with hload | hload
      · cases hload
      · cases hload
        exact absurd rfl hr
    | value hid => exact hstored hid rfl hload
    | address hid => exact hstored hid rfl hload
    | @function id hv hf =>
      obtain ⟨st, hst, hreg, -⟩ := Instruction.Loads.stores hload rfl
      obtain ⟨offset, hc⟩ := hfun id hv hf
      obtain rfl := hst.unique hc
      exact absurd hreg.symm hr

end Segments

/-! ## Frames of a module -/

/-- The instruction loads a parameter of the function, or one of its locals that has one of the
slots. -/
def Instruction.LoadsOwn (function : Node) (slots : Int) (i : Instruction) : Prop :=
  ∃ op id offset, i = .symbolic op id offset ∧
    ((∃ n ∈ function.parameterNodes, n.symbol = some id) ∧
        (∃ k < function.parameterNodes.length, offset = -8 - 8 * k) ∧
        (function.parameterNodes.length ≤ 2 ^ 28 → i.operand = offset) ∨
      (∃ n ∈ function.localNodes, n.symbol = some id) ∧
        (∃ k : Nat, k < slots ∧ offset = 16 + 8 * k) ∧ i.operand = offset)

/-- The slots that segments reserve are those of their variables, and loads of variables stay
within them: named constants and variables of main are loaded from the slots of main, and a function
loads what is its own from its own frame. -/
structure FrameSafe (root : Node) (segments : List (List Instruction)) : Prop where
  main_slots : ∀ main, segments[0]? = some main → reserved main =
    root.constantNodes.length + root.variableNodes.length
  function_slots : ∀ k seg n, segments[k + 1]? = some seg →
    root.functionNodes[k]? = some n → reserved seg = n.localNodes.length
  globals : ∀ main, segments[0]? = some main → ∀ i ∈ segments.flatten, i.Loads .globals →
    ∃ slot : Nat, i.operand = 8 * slot ∧ slot < reserved main
  main : ∀ main, segments[0]? = some main → ∀ i ∈ main, ¬ i.Loads .declarations
  functions : ∀ k seg n, segments[k + 1]? = some seg → root.functionNodes[k]? = some n →
    ∀ i ∈ seg, i.Loads .declarations → i.LoadsOwn n (reserved seg)

namespace Outline

variable {o : Outline} {s : Scopes} {built : Code.Build} {p k : Nat} {l : Line} {r : Region}
  {f : Function}

theorem Function.parameterNodes_node (f : Function) :
    f.node.parameterNodes = f.params.map Entry.node := by
  refine Node.listed_list fun n hn => ?_
  obtain ⟨e, -, rfl⟩ := List.mem_map.1 hn
  exact nofun

theorem exists_node_of_sees {entries : List Entry} {id : Symbol.Id} (h : Entry.Sees entries id) :
    ∃ n ∈ entries.map Entry.node, n.symbol = some id := by
  obtain ⟨e, he, rfl⟩ := List.mem_map.1 h
  exact ⟨Entry.node e, List.mem_map.2 ⟨e, he, rfl⟩, rfl⟩

section

variable (hb : o.Builds s built) (h : o.Valid s)
include hb h

theorem Builds.loads_variable {visible : Symbol.Id → Prop} {last : Operation} {slots : Nat}
    {lines : List Line} (hs : s.IsSegment visible last slots p lines)
    (hfun : ∀ id, visible id → s.IsFunction id → ∃ f ∈ o.functions, f.id = id) (hl : l ∈ lines)
    (hload : (l.placed built.scopes).Loads r) (hr : r ≠ .constants) :
    ∃ op id st, l.placed built.scopes = .symbolic op id st.offset ∧ built.scopes.Stores id st ∧
      st.region = r ∧ visible id ∧ ∃ t, s.IsVariable id t := by
  refine hs.loads_variable hl hload hr (fun text id hid => ?_) fun id hid hf => ?_
  · obtain ⟨offset, hst⟩ := hb.loaded.literal (h.scopes.mem_literals hid)
    exact ⟨_, hst⟩
  · obtain ⟨f, hmem, rfl⟩ := hfun id hid hf
    obtain ⟨k, hk⟩ := List.mem_iff_getElem?.1 hmem
    exact ⟨_, hb.loaded.function hk⟩

theorem Builds.main_load (hl : l ∈ Assembly.main s.valueType o.root)
    (hload : (l.placed built.scopes).Loads r) (hr : r ≠ .constants) :
    ∃ op id, ∃ k < o.constants.length + o.vars.length, r = .globals ∧
      l.placed built.scopes = .symbolic op id (8 * k) := by
  obtain ⟨op, id, st, hi, hst, hreg, hv, t, ht⟩ := hb.loads_variable h h.isSegment_main
    (fun id hid hf => h.function_of_main hid hf) hl hload hr
  obtain ⟨k, hk, hst'⟩ := hb.loaded.main_variable h hv ht
  obtain rfl := hst.unique hst'
  exact ⟨op, id, k, hk, hreg.symm, hi⟩

theorem Builds.function_load {j : Nat} (hj : o.functions[j]? = some f)
    (hl : l ∈ Assembly.function s.valueType f.node p) (hload : (l.placed built.scopes).Loads r)
    (hr : r ≠ .constants) :
    ∃ op id offset, l.placed built.scopes = .symbolic op id offset ∧
      ((r = .globals ∧ ∃ k < o.constants.length, offset = 8 * k) ∨
        (r = .declarations ∧ Entry.Sees f.params id ∧
          ∃ k < f.params.length, offset = -8 - 8 * k) ∨
        (r = .declarations ∧ Entry.Sees f.locals id ∧
          ∃ k < f.locals.length, offset = 16 + 8 * k)) := by
  have hf := h.functions j f hj
  obtain ⟨op, id, st, hi, hst, hreg, hv, t, ht⟩ := hb.loads_variable h (hf.isSegment p)
    (fun id hid hg => h.function_of_function hf hid hg) hl hload hr
  refine ⟨op, id, st.offset, hi, ?_⟩
  rcases hb.loaded.function_variable h hf hv ht with ⟨k, hk, hst'⟩ | ⟨he, k, hk, hst'⟩ |
    ⟨he, k, hk, hst'⟩
  all_goals obtain rfl := hst.unique hst'
  · exact .inl ⟨hreg.symm, k, hk, rfl⟩
  · exact .inr (.inl ⟨hreg.symm, he, k, hk, rfl⟩)
  · exact .inr (.inr ⟨hreg.symm, he, k, hk, rfl⟩)

end

theorem exists_function_of_placed {types : Symbol.Id → DataType} {L : Scopes}
    {seg : List Instruction} (hk : (Assembly.placed types L o.root)[k + 1]? = some seg) :
    ∃ f p, o.functions[k]? = some f ∧ o.root.functionNodes[k]? = some f.node ∧
      (Assembly.segments types o.root)[k + 1]? = some (Assembly.function types f.node p) ∧
      (Assembly.function types f.node p).map (Line.placed L) = seg := by
  obtain ⟨lines, hlines, rfl⟩ := getElem?_placed.1 hk
  have hsucc := hlines
  rw [Assembly.segments_succ, o.functionNodes_root, List.getElem?_map, Option.map_map,
    Option.map_eq_some_iff] at hsucc
  obtain ⟨f, hf, rfl⟩ := hsucc
  refine ⟨f, _, hf, ?_, hlines, rfl⟩
  rw [o.functionNodes_root, List.getElem?_map, hf, Option.map_some]

variable (hb : o.Builds s built) (h : o.Valid s)
include hb h

theorem Builds.reserved_main :
    reserved ((Assembly.main s.valueType o.root).map (Line.placed built.scopes)) =
      (o.constants.length + o.vars.length : Nat) := by
  refine h.isSegment_main.reserved fun l hl => hb.fit l ?_
  exact List.mem_flatten.2 ⟨_, List.mem_cons_self, hl⟩

theorem Builds.reserved_function (hf : o.functions[k]? = some f)
    (hk : (Assembly.segments s.valueType o.root)[k + 1]? =
      some (Assembly.function s.valueType f.node p)) :
    reserved ((Assembly.function s.valueType f.node p).map (Line.placed built.scopes)) =
      f.locals.length := by
  refine ((h.functions k f hf).isSegment p).reserved fun l hl => hb.fit l ?_
  exact List.mem_flatten.2 ⟨_, List.mem_of_getElem? hk, hl⟩

theorem Builds.globals_safe {i : Instruction}
    (hi : i ∈ (Assembly.placed s.valueType built.scopes o.root).flatten)
    (hload : i.Loads .globals) :
    ∃ slot < o.constants.length + o.vars.length, i.operand = 8 * slot := by
  have hle := hb.slots_le h.isSegment_main List.mem_cons_self
  rw [Emitter.maxHalf] at hle
  obtain ⟨seg, hseg, hmem⟩ := List.mem_flatten.1 hi
  obtain ⟨k, hk⟩ := List.mem_iff_getElem?.1 hseg
  have hsymbolic : ∃ op id, ∃ slot < o.constants.length + o.vars.length,
      i = .symbolic op id (8 * slot) := by
    cases k with
    | zero =>
      obtain ⟨lines, hlines, rfl⟩ := getElem?_placed.1 hk
      obtain ⟨l, hl, rfl⟩ := List.mem_map.1 hmem
      obtain rfl : Assembly.main s.valueType o.root = lines := Option.some.inj hlines
      obtain ⟨op, id, k, hk, -, hi⟩ := hb.main_load h hl hload (by decide)
      exact ⟨op, id, k, hk, hi⟩
    | succ k =>
      obtain ⟨f, p, hf, -, -, rfl⟩ := exists_function_of_placed hk
      obtain ⟨l, hl, rfl⟩ := List.mem_map.1 hmem
      obtain ⟨op, id, offset, hi, hcases⟩ := hb.function_load h hf hl hload (by decide)
      rcases hcases with ⟨-, k, hk, rfl⟩ | ⟨hr, -⟩ | ⟨hr, -⟩
      · exact ⟨op, id, k, by omega, hi⟩
      · cases hr
      · cases hr
  obtain ⟨op, id, slot, hslot, rfl⟩ := hsymbolic
  exact ⟨slot, hslot, signedValue_bigEndian (by omega) (by omega)⟩

theorem Builds.function_safe (hf : o.functions[k]? = some f)
    (hk : (Assembly.segments s.valueType o.root)[k + 1]? =
      some (Assembly.function s.valueType f.node p))
    (hl : l ∈ Assembly.function s.valueType f.node p)
    (hload : (l.placed built.scopes).Loads .declarations) :
    (l.placed built.scopes).LoadsOwn f.node f.locals.length := by
  have hle := hb.slots_le ((h.functions k f hf).isSegment p) (List.mem_of_getElem? hk)
  rw [Emitter.maxHalf] at hle
  obtain ⟨op, id, offset, hi, hcases⟩ := hb.function_load h hf hl hload (by decide)
  rw [hi]
  refine ⟨op, id, offset, rfl, ?_⟩
  rw [f.parameterNodes_node, f.localNodes_node, List.length_map]
  rcases hcases with ⟨hr, -⟩ | ⟨-, he, j, hj, rfl⟩ | ⟨-, he, j, hj, rfl⟩
  · cases hr
  · exact .inl ⟨exists_node_of_sees he, ⟨j, hj, rfl⟩, fun hp =>
      signedValue_bigEndian (by omega) (by omega)⟩
  · exact .inr ⟨exists_node_of_sees he, ⟨j, by omega, rfl⟩,
      signedValue_bigEndian (by omega) (by omega)⟩

theorem Builds.frameSafe : FrameSafe o.root (Assembly.placed s.valueType built.scopes o.root) := by
  have hmain {main : List Instruction}
      (hz : (Assembly.placed s.valueType built.scopes o.root)[0]? = some main) :
      (Assembly.main s.valueType o.root).map (Line.placed built.scopes) = main := Option.some.inj hz
  refine ⟨?main_slots, ?function_slots, ?globals, ?main, ?functions⟩
  case main_slots =>
    intro main hz
    rw [← hmain hz, hb.reserved_main h, o.constantNodes_root, o.variableNodes_root, List.length_map,
      List.length_map]
    omega
  case function_slots =>
    intro k seg n hk hn
    obtain ⟨f, p, hf, hnode, hlines, rfl⟩ := exists_function_of_placed hk
    obtain rfl : f.node = n := Option.some.inj (hnode.symm.trans hn)
    rw [hb.reserved_function h hf hlines, f.localNodes_node, List.length_map]
  case globals =>
    intro main hz i hi hload
    obtain ⟨slot, hslot, hop⟩ := hb.globals_safe h hi hload
    rw [← hmain hz, hb.reserved_main h]
    exact ⟨slot, hop, by omega⟩
  case main =>
    intro main hz i hi hload
    rw [← hmain hz] at hi
    obtain ⟨l, hl, rfl⟩ := List.mem_map.1 hi
    obtain ⟨-, -, -, -, hr, -⟩ := hb.main_load h hl hload (by decide)
    cases hr
  case functions =>
    intro k seg n hk hn i hi hload
    obtain ⟨f, p, hf, hnode, hlines, rfl⟩ := exists_function_of_placed hk
    obtain rfl : f.node = n := Option.some.inj (hnode.symm.trans hn)
    obtain ⟨l, hl, rfl⟩ := List.mem_map.1 hi
    rw [hb.reserved_function h hf hlines]
    exact hb.function_safe h hf hlines hl hload

end Outline

/-- In the code of every module main and the functions reserve the slots of their variables, loads
of global variables stay within the slots of main, main loads nothing from a frame, and a function
loads only its own parameters and locals from its frame. -/
theorem compile_frameSafe {source : String} {dumps : Dumps} {m : Compiled}
    (h : (compile source dumps).1 = .ok m) :
    ∃ root built segments, CompilesTo source root built ∧ built.result = .ok m.moduleText ∧
      Segmented root built segments ∧ FrameSafe root segments := by
  obtain ⟨o, built, hc, hr, hv, hb⟩ := exists_builds h
  exact ⟨o.root, built, _, hc, hr, hb.segmented, hb.frameSafe hv⟩

/-- A program with a named constant, a variable of main, a parameter and a local. -/
def framedSource : String :=
  "CD20 p constants c = 1 func f(x : int) : void y : int begin y = x + c; end " ++
    "main z : int begin z = c; f(z); end CD20 p"

theorem compile_frameSafe_framed : ∃ m root built segments,
    (compile framedSource .none).1 = .ok m ∧ CompilesTo framedSource root built ∧
      built.result = .ok m.moduleText ∧ Segmented root built segments ∧
      FrameSafe root segments := by
  have hok : (compile framedSource .none).1.isOk = true := by
    rw [compile, parseSource, tokensOf_chars framedSource (append_eq_ofList rfl rfl)]
    decide +kernel
  obtain ⟨m, hm⟩ := exists_of_isOk hok
  obtain ⟨root, built, segments, hs⟩ := compile_frameSafe hm
  exact ⟨m, root, built, segments, hm, hs⟩

end StackCompiler
