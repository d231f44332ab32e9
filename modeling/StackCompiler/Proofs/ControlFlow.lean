import StackCompiler.Proofs.Compiling

/-!
# Control flow

The code of a module consists of the segments of main and of the functions. No segment runs on into
the next one, jumps stay within their segment, and calls enter functions where they start.
-/

namespace StackCompiler

def startOf (segments : List (List Instruction)) (k : Nat) : Nat :=
  sizeOfAll (segments.take k).flatten

/-- The code of a module in segments, one behind the other: that of main, and then those of the
functions in the order of their definitions, each where the symbol of its function says. -/
structure Segmented (root : Node) (built : Code.Build) (segments : List (List Instruction)) :
    Prop where
  code : built.code.Is segments.flatten
  length : segments.length = root.functionNodes.length + 1
  entries : ∀ k n, root.functionNodes[k]? = some n → ∃ id, n.symbol = some id ∧
    built.scopes.Stores id ⟨.constants, startOf segments (k + 1)⟩

def Assembly.placed (types : Symbol.Id → DataType) (L : Scopes) (root : Node) :
    List (List Instruction) :=
  (segments types root).map (List.map (Line.placed L))

section Segments

variable {types : Symbol.Id → DataType} {L : Scopes} {root : Node}

theorem startOf_placed (k : Nat) : startOf (Assembly.placed types L root) k =
    span ((Assembly.segments types root).take k).flatten := by
  rw [startOf, Assembly.placed, ← List.map_take, ← List.map_flatten, sizeOfAll_placed]

theorem getElem?_placed {k : Nat} {seg : List Instruction} :
    (Assembly.placed types L root)[k]? = some seg ↔
      ∃ lines, (Assembly.segments types root)[k]? = some lines ∧
        lines.map (Line.placed L) = seg := by
  rw [Assembly.placed, List.getElem?_map, Option.map_eq_some_iff]

theorem Outline.Builds.segmented {o : Outline} {s : Scopes} {built : Code.Build}
    (h : o.Builds s built) :
    Segmented o.root built (Assembly.placed s.valueType built.scopes o.root) := by
  refine ⟨?_, ?_, fun k n hn => ?_⟩
  · have hc := h.code
    rwa [Assembly.program, List.map_flatten] at hc
  · simp [Assembly.placed, Assembly.segments, Assembly.length_functions]
  · rw [o.functionNodes_root, List.getElem?_map, Option.map_eq_some_iff] at hn
    obtain ⟨f, hf, rfl⟩ := hn
    rw [startOf_placed]
    exact ⟨f.id, rfl, h.loaded.function hf⟩

end Segments

/-- How control moves between the segments of a module: each ends by leaving it, jumps lead to
instructions of their own segment, and calls to where functions start. -/
structure ControlFlow (root : Node) (segments : List (List Instruction)) : Prop where
  halts : ∃ is, segments[0]? = some (is ++ [.ofOperation .halt])
  returns : ∀ k seg, segments[k + 1]? = some seg → ∃ is, seg = is ++ [.ofOperation .retn]
  jumps : ∀ k seg bytes, segments[k]? = some seg → .plain (.loadAddress .constants) bytes ∈ seg →
    ∃ x ∈ Code.place (startOf segments k) seg, signedValue bytes = x.position
  calls : ∀ (k : Nat) (as bs : List Instruction) (i : Instruction),
    segments[k]? = some (as ++ i :: bs) → i.operation = .js2 →
    ∃ as' id offset j n, as = as' ++ [.symbolic (.loadAddress .constants) id offset] ∧
      root.functionNodes[j]? = some n ∧ n.symbol = some id ∧
        signedValue (bigEndian 4 offset) = startOf segments (j + 1)

namespace Line

variable {L : Scopes} {l : Line}

theorem placed_pending_ne_plain {op op' : Operation} {id : Symbol.Id} {bytes : List UInt8} :
    (Instruction.pending op id).placed L ≠ .plain op' bytes := by
  intro h
  rcases placed_pending_cases L op id with hi | ⟨st, -, hi⟩
  all_goals
    rw [hi] at h
    cases h

theorem eq_js2 (h : (l.placed L).operation = .js2) : l = .op .js2 := by
  cases l with
  | op o => exact congrArg op h
  | count n =>
    rw [placed_count] at h
    rcases operation_count n with ⟨hi, -⟩ | hi <;> simp [hi, Instruction.operation] at h
  | jump target => cases h
  | value id | address id =>
    rcases placed_pending_cases L _ id with hi | ⟨st, -, hi⟩
    all_goals
      rw [placed, instruction, hi] at h
      cases h

theorem eq_jump {s : Scopes} {visible : Symbol.Id → Prop} {last : Operation} {slots p : Nat}
    {lines : List Line} {bytes : List UInt8} (hs : s.IsSegment visible last slots p lines)
    (hl : l ∈ lines) (h : l.placed L = .plain (.loadAddress .constants) bytes) :
    ∃ target, l = .jump target ∧ bytes = bigEndian 4 target := by
  rcases hs.admits hl with rfl | rfl | ha
  · rw [placed_count] at h
    rcases operation_count slots with ⟨hi, -⟩ | hi <;> simp [hi] at h
  · cases h
  · cases ha with
    | op ho =>
      cases h
      cases ho
    | count n =>
      rw [placed_count] at h
      rcases operation_count n with ⟨hi, -⟩ | hi <;> simp [hi] at h
    | jump _ target =>
      cases h
      exact ⟨target, rfl, rfl⟩
    | value | address | function => exact absurd h placed_pending_ne_plain

end Line

theorem StartsAt.placed {L : Scopes} {p target : Nat} {lines : List Line}
    (h : StartsAt p lines target) :
    ∃ x ∈ Code.place p (lines.map (Line.placed L)), x.position = target := by
  obtain ⟨as, l, bs, rfl, rfl⟩ := h
  refine ⟨⟨p + span as, l.placed L⟩, Code.mem_place.2 ?_, rfl⟩
  exact ⟨as.map (Line.placed L), bs.map (Line.placed L), by simp, by rw [sizeOfAll_placed]⟩

namespace Outline

variable {o : Outline} {s : Scopes} {built : Code.Build} {k : Nat} {lines : List Line}

theorem Valid.exists_isSegment (h : o.Valid s)
    (hk : (Assembly.segments s.valueType o.root)[k]? = some lines) :
    ∃ visible last slots, s.IsSegment visible last slots
        (span ((Assembly.segments s.valueType o.root).take k).flatten) lines ∧
      ∀ id, visible id → s.IsFunction id → ∃ f ∈ o.functions, f.id = id := by
  rcases h.isSegment hk with ⟨rfl, hs⟩ | ⟨j, f, rfl, hf, hs⟩
  · exact ⟨_, _, _, hs, fun id hid hf => h.function_of_main hid hf⟩
  · exact ⟨_, _, _, hs, fun id hid hg => h.function_of_function (h.functions j f hf) hid hg⟩

theorem Builds.jump_target (hb : o.Builds s built) (h : o.Valid s) {bytes : List UInt8}
    (hk : (Assembly.segments s.valueType o.root)[k]? = some lines)
    (hmem : .plain (.loadAddress .constants) bytes ∈ lines.map (Line.placed built.scopes)) :
    ∃ x ∈ Code.place (span ((Assembly.segments s.valueType o.root).take k).flatten)
      (lines.map (Line.placed built.scopes)), signedValue bytes = x.position := by
  obtain ⟨visible, last, slots, hs, -⟩ := h.exists_isSegment hk
  obtain ⟨l, hl, hp⟩ := List.mem_map.1 hmem
  obtain ⟨target, rfl, rfl⟩ := Line.eq_jump hs hl hp
  obtain ⟨x, hx, rfl⟩ := (hs.jumps target hl).placed (L := built.scopes)
  have hfit := hb.fit _ (List.mem_flatten.2 ⟨lines, List.mem_of_getElem? hk, hl⟩)
  exact ⟨x, hx, Line.operand_jump hfit⟩

/-- What stands before a call is the load of the address where a function starts. -/
theorem Builds.call_entry (hb : o.Builds s built) (h : o.Valid s) {as bs : List Line}
    (hk : (Assembly.segments s.valueType o.root)[k]? = some (as ++ .op .js2 :: bs)) :
    ∃ as' f j, ∃ entry : Nat, as = as' ++ [.address f.id] ∧ o.functions[j]? = some f ∧
      entry = span ((Assembly.segments s.valueType o.root).take (j + 1)).flatten ∧
      (Line.address f.id).placed built.scopes =
        .symbolic (.loadAddress .constants) f.id entry ∧
      signedValue (bigEndian 4 entry) = entry := by
  obtain ⟨visible, last, slots, hs, hfun⟩ := h.exists_isSegment hk
  obtain ⟨as', id, rfl, hid, hf⟩ := hs.calls rfl
  obtain ⟨f, hmem, rfl⟩ := hfun id hid hf
  obtain ⟨j, hj⟩ := List.mem_iff_getElem?.1 hmem
  have hfar := hb.entries j (List.getElem?_eq_some_iff.1 hj).1
  rw [maxOffset] at hfar
  refine ⟨as', f, j, _, rfl, hj, rfl, Line.placed_address (hb.loaded.function hj), ?_⟩
  exact signedValue_bigEndian (by omega) (by omega)

theorem Builds.controlFlow (hb : o.Builds s built) (h : o.Valid s) :
    ControlFlow o.root (Assembly.placed s.valueType built.scopes o.root) := by
  refine ⟨?_, fun k seg hk => ?_, fun k seg bytes hk hmem => ?_, fun k as bs i hk hi => ?_⟩
  · have hseg : s.IsSegment o.MainSees .halt _ 0 (Assembly.main s.valueType o.root) :=
      h.isSegment_main
    obtain ⟨as, hmain⟩ := hseg.ends
    refine ⟨as.map (Line.placed built.scopes), getElem?_placed.2 ⟨_, rfl, ?_⟩⟩
    rw [hmain, List.map_append]
    rfl
  · obtain ⟨lines, hlines, rfl⟩ := getElem?_placed.1 hk
    rcases h.isSegment hlines with ⟨hz, -⟩ | ⟨j, f, -, -, hs⟩
    · cases hz
    · obtain ⟨as, rfl⟩ := hs.ends
      exact ⟨as.map (Line.placed built.scopes), by rw [List.map_append]; rfl⟩
  · obtain ⟨lines, hlines, rfl⟩ := getElem?_placed.1 hk
    rw [startOf_placed]
    exact hb.jump_target h hlines hmem
  · obtain ⟨lines, hlines, hsplit⟩ := getElem?_placed.1 hk
    obtain ⟨xs, ys', rfl, rfl, hcons⟩ := List.map_eq_append_iff.1 hsplit
    obtain ⟨l, ys, rfl, rfl, -⟩ := List.map_eq_cons_iff.1 hcons
    obtain rfl := Line.eq_js2 hi
    obtain ⟨xs', f, j, entry, rfl, hj, he, hp, hv⟩ := hb.call_entry h hlines
    refine ⟨xs'.map (Line.placed built.scopes), f.id, entry, j, f.node, ?_, ?_, rfl, ?_⟩
    · rw [List.map_append, List.map_cons, hp, List.map_nil]
    · rw [o.functionNodes_root, List.getElem?_map, hj, Option.map_some]
    · rw [startOf_placed, hv, he]

end Outline

/-- The code of every module splits into a segment for main and one for each function. Main ends
with a halt and each function with a return, jumps lead to instructions of their own segment, and
each call follows the load of the address where a function starts. -/
theorem compile_controlFlow {source : String} {dumps : Dumps} {m : Compiled}
    (h : (compile source dumps).1 = .ok m) :
    ∃ root built segments, CompilesTo source root built ∧ built.result = .ok m.moduleText ∧
      Segmented root built segments ∧ ControlFlow root segments := by
  obtain ⟨o, built, hc, hr, hv, hb⟩ := exists_builds h
  exact ⟨o.root, built, _, hc, hr, hb.segmented, hb.controlFlow hv⟩

/-- A program with jumps in main and in a function whose last statement is not a return. -/
def branchingSource : String :=
  "CD20 p func f() : void begin if (true) return; end end main begin if (true) f(); end end CD20 p"

theorem compile_controlFlow_branching : ∃ m root built segments,
    (compile branchingSource .none).1 = .ok m ∧ CompilesTo branchingSource root built ∧
      built.result = .ok m.moduleText ∧ Segmented root built segments ∧
      ControlFlow root segments := by
  have hok : (compile branchingSource .none).1.isOk = true := by
    rw [compile, parseSource, tokensOf_chars branchingSource rfl]
    decide +kernel
  obtain ⟨m, hm⟩ := exists_of_isOk hok
  obtain ⟨root, built, segments, hs⟩ := compile_controlFlow hm
  exact ⟨m, root, built, segments, hm, hs⟩

end StackCompiler
