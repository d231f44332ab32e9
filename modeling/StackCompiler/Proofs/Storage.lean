import StackCompiler.Proofs.Loading
import StackCompiler.Proofs.Segments

/-!
# Where symbols are stored

Every symbol that the code of a program loads has a place of its own: variables have theirs since
they were declared, functions where their code starts, literals behind the code.
-/

namespace StackCompiler

variable {L s : Scopes} {id : Symbol.Id} {l : Line}

theorem Scopes.Holds.storage {entries : List Entry} {attributes : DataType → List Symbol.Attribute}
    {place : Nat → Storage} (h : s.Holds entries attributes fun k => some (place k))
    (hid : Entry.Sees entries id) :
    ∃ k < entries.length, ∃ sym, s.symbol? id = some sym ∧ sym.storage = some (place k) := by
  obtain ⟨e, he, rfl⟩ := List.mem_map.1 hid
  obtain ⟨k, hk⟩ := List.mem_iff_getElem?.1 he
  obtain ⟨sym, t, hs, -, -, -, hp⟩ := h k e hk
  exact ⟨k, (List.getElem?_eq_some_iff.1 hk).1, sym, hs, hp⟩

theorem Scopes.Holds.not_function {entries : List Entry}
    {attributes : DataType → List Symbol.Attribute} {place : Nat → Option Storage}
    (h : s.Holds entries attributes place) (hid : Entry.Sees entries id) : ¬ s.IsFunction id := by
  rintro ⟨sym, hs, hk⟩
  obtain ⟨e, he, rfl⟩ := List.mem_map.1 hid
  obtain ⟨j, hj⟩ := List.mem_iff_getElem?.1 he
  obtain ⟨sym', t, hs', -, hv, -⟩ := h j e hj
  obtain rfl := Option.some.inj (hs.symm.trans hs')
  exact hv.not_function hk

namespace Outline

variable {o : Outline} {s : Scopes} {id : Symbol.Id} {t : DataType}

theorem Valid.constant_of_global {k : Nat} (h : o.Valid s) (hid : Entry.Sees (o.globals k) id)
    (ht : s.IsVariable id t) : Entry.Sees (o.constants.map Constant.entry) id := by
  obtain ⟨sym, hs, hv⟩ := ht
  rw [Entry.Sees, globals, List.map_append, List.map_append, List.mem_append, List.mem_append] at hid
  rcases hid with (hid | hid) | hid
  · exact hid
  · obtain ⟨e, he, rfl⟩ := List.mem_map.1 hid
    obtain ⟨sym', hs', -, hk, -⟩ := h.types e he
    obtain rfl := Option.some.inj (hs.symm.trans hs')
    rcases hk with hk | hk
    · exact absurd hk hv.not_type
    · exact absurd hk hv.not_array
  · obtain ⟨e, he, rfl⟩ := List.mem_map.1 hid
    obtain ⟨f, hf, rfl⟩ := List.mem_map.1 he
    obtain ⟨j, hj⟩ := List.mem_iff_getElem?.1 (List.mem_of_mem_take hf)
    obtain ⟨sym', hs', hk, -⟩ := (h.functions j f hj).symbol
    obtain rfl := Option.some.inj (hs.symm.trans hs')
    exact absurd hk hv.not_function

theorem Valid.main_storage (h : o.Valid s) (hid : o.MainSees id) (ht : s.IsVariable id t) :
    ∃ k < o.constants.length + o.vars.length, ∃ sym, s.symbol? id = some sym ∧
      sym.storage = some (.ofGlobal k) := by
  rw [MainSees, Entry.Sees, List.map_append, List.mem_append] at hid
  rcases hid with hid | hid
  · obtain ⟨k, hk, sym, hs, hp⟩ := h.vars.storage hid
    exact ⟨o.constants.length + k, by omega, sym, hs, hp⟩
  · obtain ⟨k, hk, sym, hs, hp⟩ := h.constants.holds.storage (h.constant_of_global hid ht)
    rw [List.length_map] at hk
    exact ⟨k, by omega, sym, hs, hp⟩

theorem Valid.function_storage {f : Function} {j : Nat} (h : o.Valid s)
    (hf : f.Valid s (o.globals j)) (hid : f.Sees (o.globals j) id) (ht : s.IsVariable id t) :
    ∃ sym, s.symbol? id = some sym ∧
      ((∃ k < o.constants.length, sym.storage = some (.ofGlobal k)) ∨
        (Entry.Sees f.params id ∧ ∃ k < f.params.length, sym.storage = some (.ofParameter k)) ∨
        (Entry.Sees f.locals id ∧ ∃ k < f.locals.length, sym.storage = some (.ofLocal k))) := by
  rw [Function.Sees, Entry.Sees, Function.entries, List.map_append, List.map_append,
    List.mem_append, List.mem_append] at hid
  rcases hid with (hid | hid) | hid
  · obtain ⟨k, hk, sym, hs, hp⟩ := hf.params.storage hid
    exact ⟨sym, hs, .inr (.inl ⟨hid, k, hk, hp⟩)⟩
  · obtain ⟨k, hk, sym, hs, hp⟩ := hf.locals.storage hid
    exact ⟨sym, hs, .inr (.inr ⟨hid, k, hk, hp⟩)⟩
  · obtain ⟨k, hk, sym, hs, hp⟩ := h.constants.holds.storage (h.constant_of_global hid ht)
    rw [List.length_map] at hk
    exact ⟨sym, hs, .inl ⟨k, hk, hp⟩⟩

theorem Valid.function_of_global {k : Nat} (h : o.Valid s) (hid : Entry.Sees (o.globals k) id)
    (hf : s.IsFunction id) : ∃ f ∈ o.functions.take k, f.id = id := by
  obtain ⟨sym, hs, hk⟩ := hf
  rw [Entry.Sees, globals, List.map_append, List.map_append, List.mem_append, List.mem_append] at hid
  rcases hid with (hid | hid) | hid
  · obtain ⟨e, he, rfl⟩ := List.mem_map.1 hid
    obtain ⟨j, hj⟩ := List.mem_iff_getElem?.1 he
    obtain ⟨sym', t, hs', -, hv, -⟩ := h.constants.holds j e hj
    obtain rfl := Option.some.inj (hs.symm.trans hs')
    exact absurd hk hv.not_function
  · obtain ⟨e, he, rfl⟩ := List.mem_map.1 hid
    obtain ⟨sym', hs', -, hk', -⟩ := h.types e he
    obtain rfl := Option.some.inj (hs.symm.trans hs')
    simp [hk] at hk'
  · obtain ⟨e, he, rfl⟩ := List.mem_map.1 hid
    obtain ⟨f, hf, rfl⟩ := List.mem_map.1 he
    exact ⟨f, hf, rfl⟩

theorem Valid.nodup_names (h : o.Valid s) : (o.functions.map Function.name).Nodup := by
  obtain ⟨t, -, -, hl⟩ := h.global
  have hnames := hl.nodup
  rw [globals, List.take_length, List.map_append, List.map_map] at hnames
  exact (List.nodup_append.1 hnames).2.1

theorem Valid.nodup_functions (h : o.Valid s) : (o.functions.map Function.id).Nodup := by
  have hnames := h.nodup_names
  rw [List.Nodup, List.pairwise_map] at hnames ⊢
  refine hnames.imp_of_mem fun {f g} hf hg hne heq => hne ?_
  obtain ⟨j, hj⟩ := List.mem_iff_getElem?.1 hf
  obtain ⟨k, hk⟩ := List.mem_iff_getElem?.1 hg
  obtain ⟨sym, hs, -, hn, -⟩ := (h.functions j f hj).symbol
  obtain ⟨sym', hs', -, hn', -⟩ := (h.functions k g hk).symbol
  rw [heq, hs', Option.some.injEq] at hs
  rw [← hn, ← hn', hs]

end Outline

namespace Assembly

variable {types : Symbol.Id → DataType} {S : Scopes} {p : Nat} {fs : List Outline.Function}

theorem symbol?_enter_of_not_mem (h : id ∉ fs.map Outline.Function.id) :
    (enter types S p (fs.map Outline.Function.node)).symbol? id = S.symbol? id := by
  induction fs generalizing S p with
  | nil => rfl
  | cons f fs ih =>
    simp only [List.map_cons, List.mem_cons, not_or] at h
    rw [List.map_cons, enter, ih h.2, Scopes.symbol?_setStorage, if_neg]
    exact fun he => h.1 he.symm

theorem symbol?_enter {f : Outline.Function} {k : Nat} {sym : Symbol} (hk : fs[k]? = some f)
    (hs : S.symbol? f.id = some sym) (hnd : (fs.map Outline.Function.id).Nodup) :
    (enter types S p (fs.map Outline.Function.node)).symbol? f.id = some (sym.setStorage
      ⟨.constants, (p + span ((functions types p (fs.map Outline.Function.node)).take k).flatten :
        Nat)⟩) := by
  induction fs generalizing S p k with
  | nil => simp at hk
  | cons g fs ih =>
    simp only [List.map_cons, List.nodup_cons] at hnd
    rw [List.map_cons, enter, functions]
    cases k with
    | zero =>
      obtain rfl : g = f := by simpa using hk
      have hg : g.node.symbol.getD 0 = g.id := rfl
      rw [symbol?_enter_of_not_mem hnd.1, Scopes.symbol?_setStorage, if_pos hg, hs]
      simp
    | succ k =>
      have hk : fs[k]? = some f := by simpa using hk
      have hne : g.id ≠ f.id := fun he =>
        hnd.1 (he ▸ List.mem_map.2 ⟨f, List.mem_of_getElem? hk, rfl⟩)
      have hs' : (S.setStorage (g.node.symbol.getD 0) ⟨.constants, p⟩).symbol? f.id = some sym := by
        rw [Scopes.symbol?_setStorage, if_neg, hs]
        exact hne
      rw [ih hk hs' hnd.2, List.take_succ_cons, List.flatten_cons, span_append, Nat.add_assoc]

end Assembly

namespace Scopes

variable {s : Scopes} {id : Symbol.Id}

theorem map_fst_literalSizes (s : Scopes) : s.literalSizes.map Prod.fst = s.constants.symbols := by
  simp [literalSizes, Function.comp_def]

theorem Valid.nodup_literals (h : s.Valid) : s.constants.symbols.Nodup := by
  obtain ⟨l, hl, hlit⟩ := h.pool
  have hnames := hl.nodup
  rw [hl.symbols]
  rw [List.Nodup, List.pairwise_map] at hnames ⊢
  refine hnames.imp_of_mem fun {e e'} he he' hne heq => hne ?_
  obtain ⟨sym, hs, -, hn, -⟩ := hlit e he
  obtain ⟨sym', hs', -, hn', -⟩ := hlit e' he'
  rw [heq, hs', Option.some.injEq] at hs
  rw [← hn, ← hn', hs]

theorem Valid.of_literal (h : s.Valid) (hid : id ∈ s.constants.symbols) :
    ∃ sym key, s.symbol? id = some sym ∧ sym.IsLiteral key ∧ sym.storage = none := by
  obtain ⟨l, hl, hlit⟩ := h.pool
  rw [hl.symbols] at hid
  obtain ⟨e, he, rfl⟩ := List.mem_map.1 hid
  obtain ⟨sym, hs, hk, -, hst⟩ := hlit e he
  exact ⟨sym, e.1, hs, hk, hst⟩

theorem Valid.mem_literals {text : String} (h : s.Valid) (hr : s.resolveConstant text = some id) :
    id ∈ s.constants.symbols := by
  obtain ⟨l, hl, -⟩ := h.pool
  rw [hl.symbols]
  exact List.mem_map.2 ⟨_, hl.mem_of_resolve hr, rfl⟩

end Scopes

def Scopes.Stores (L : Scopes) (id : Symbol.Id) (st : Storage) : Prop :=
  ∃ sym, L.symbol? id = some sym ∧ sym.storage = some st

theorem Scopes.Stores.resolve {st : Storage} (h : L.Stores id st) (op : Operation) :
    (Instruction.pending op id).resolve L =
      .ok (.symbolic (op.inRegion st.region) id st.offset) := by
  obtain ⟨sym, hs, hst⟩ := h
  simp only [Instruction.pending, Instruction.resolve, hs, hst]

theorem Line.resolve_count (n : Nat) :
    (count n).instruction.resolve L = .ok (count n).instruction := by
  simp only [Line.instruction]
  split <;> rfl

/-- The symbol that the line loads, if there is one, has a place. -/
def Line.IsPlaced (L : Scopes) : Line → Prop
  | value id | address id => ∃ st, L.Stores id st
  | _ => True

theorem Line.IsPlaced.resolve (h : l.IsPlaced L) : ∃ i, l.instruction.resolve L = .ok i := by
  cases l with
  | op | jump => exact ⟨_, rfl⟩
  | count n => exact ⟨_, Line.resolve_count n⟩
  | value id | address id =>
    obtain ⟨st, hst⟩ := h
    exact ⟨_, hst.resolve _⟩

theorem Scopes.Admits.isPlaced {visible : Symbol.Id → Prop} {jumps : Bool}
    (h : s.Admits visible jumps l) (hst : ∀ id, s.IsStored visible id → ∃ st, L.Stores id st)
    (hf : ∀ id, visible id → s.IsFunction id → ∃ st, L.Stores id st) : l.IsPlaced L := by
  cases h with
  | op | jump | count => trivial
  | value h | address h => exact hst _ h
  | function hv h => exact hf _ hv h

theorem Scopes.IsSegment.isPlaced {visible : Symbol.Id → Prop} {last : Operation} {slots p : Nat}
    {lines : List Line} (h : s.IsSegment visible last slots p lines) (hl : l ∈ lines)
    (hst : ∀ id, s.IsStored visible id → ∃ st, L.Stores id st)
    (hf : ∀ id, visible id → s.IsFunction id → ∃ st, L.Stores id st) : l.IsPlaced L := by
  rcases h.admits hl with rfl | rfl | ha
  · trivial
  · trivial
  · exact ha.isPlaced hst hf

namespace Outline

/-- The places of symbols when the module is built: variables keep theirs, functions have theirs
where their code starts, literals one behind the other. -/
structure Loaded (o : Outline) (s L : Scopes) : Prop where
  vars : ∀ id sym st, s.symbol? id = some sym → sym.storage = some st →
    L.symbol? id = some sym
  functions : ∀ (k : Nat) (f : Function), o.functions[k]? = some f → ∃ sym,
    s.symbol? f.id = some sym ∧ L.symbol? f.id = some (sym.setStorage
      ⟨.constants, (span ((Assembly.segments s.valueType o.root).take (k + 1)).flatten : Nat)⟩)
  literals : ∃ base pool, pool.Perm s.literalSizes ∧ ∀ id ∈ s.constants.symbols, ∃ sym,
    s.symbol? id = some sym ∧
      L.symbol? id = some (sym.setStorage ⟨.constants, (base + Code.poolOffset pool id : Nat)⟩)

variable {o : Outline} {s : Scopes}

theorem Valid.not_function_of_storage (h : o.Valid s) {sym : Symbol} (hs : s.symbol? id = some sym)
    (hst : sym.storage ≠ none ∨ sym.kind ≠ .function) : id ∉ o.functions.map Function.id := by
  intro hid
  obtain ⟨f, hf, rfl⟩ := List.mem_map.1 hid
  obtain ⟨k, hk⟩ := List.mem_iff_getElem?.1 hf
  obtain ⟨sym', hs', hkind, -, hst', -⟩ := (h.functions k f hk).symbol
  obtain rfl := Option.some.inj (hs.symm.trans hs')
  simp [hkind, hst'] at hst

theorem Valid.loaded {S : Scopes} {c : Code} (h : o.Valid s) (base : Nat)
    (hS : S.symbols = (Assembly.enter s.valueType s (span (Assembly.main s.valueType o.root))
      o.root.functionNodes).symbols)
    (hc : c.literals = (Emitter.withLiterals s .empty).literals) :
    o.Loaded s (Code.laid base S c.pool) := by
  have hpool := Emitter.pool_of_literals h.scopes hc
  have hmem (id : Symbol.Id) : id ∈ c.pool.map Prod.fst ↔ id ∈ s.constants.symbols := by
    rw [(hpool.map Prod.fst).mem_iff, s.map_fst_literalSizes]
  have hnd : (c.pool.map Prod.fst).Nodup := by
    rw [(hpool.map Prod.fst).nodup_iff, s.map_fst_literalSizes]
    exact h.scopes.nodup_literals
  have hs (id : Symbol.Id) : S.symbol? id = (Assembly.enter s.valueType s
      (span (Assembly.main s.valueType o.root)) (o.functions.map Function.node)).symbol? id := by
    rw [Scopes.symbol?, Scopes.symbol?, hS, o.functionNodes_root]
  -- variables, functions and literals are told apart by storage and kind
  refine ⟨fun id sym st hsym hst => ?_, fun k f hk => ?_, base, c.pool, hpool, fun id hid => ?_⟩
  · have hnot : id ∉ c.pool.map Prod.fst := fun hid => by
      obtain ⟨sym', key, hs', -, hst'⟩ := h.scopes.of_literal ((hmem id).1 hid)
      obtain rfl := Option.some.inj (hsym.symm.trans hs')
      simp [hst] at hst'
    rw [Code.symbol?_laid_of_not_mem hnot, hs, Assembly.symbol?_enter_of_not_mem, hsym]
    exact h.not_function_of_storage hsym (.inl (by simp [hst]))
  · obtain ⟨sym, hsym, hkind, -⟩ := (h.functions k f hk).symbol
    have hnot : f.id ∉ c.pool.map Prod.fst := fun hid => by
      obtain ⟨sym', key, hs', hlit, -⟩ := h.scopes.of_literal ((hmem f.id).1 hid)
      obtain rfl := Option.some.inj (hsym.symm.trans hs')
      exact hlit.not_function hkind
    refine ⟨sym, hsym, ?_⟩
    rw [Code.symbol?_laid_of_not_mem hnot, hs, Assembly.symbol?_enter hk hsym h.nodup_functions,
      Assembly.segments, o.functionNodes_root, List.take_succ_cons, List.flatten_cons, span_append]
  · obtain ⟨sym, key, hsym, hlit, -⟩ := h.scopes.of_literal hid
    refine ⟨sym, hsym, Code.symbol?_laid ?_ ((hmem id).2 hid) hnd⟩
    rw [hs, Assembly.symbol?_enter_of_not_mem, hsym]
    exact h.not_function_of_storage hsym (.inr hlit.not_function)

/-! ## Loads of a segment -/

section Loaded

variable {L : Scopes} {id : Symbol.Id} {t : DataType} {f : Function} {j : Nat}

theorem Loaded.function (hL : o.Loaded s L) {k : Nat} (hk : o.functions[k]? = some f) :
    L.Stores f.id
      ⟨.constants, (span ((Assembly.segments s.valueType o.root).take (k + 1)).flatten : Nat)⟩ := by
  obtain ⟨sym, -, hs⟩ := hL.functions k f hk
  exact ⟨_, hs, rfl⟩

theorem Loaded.literal (hL : o.Loaded s L) (hid : id ∈ s.constants.symbols) :
    ∃ offset : Nat, L.Stores id ⟨.constants, offset⟩ := by
  obtain ⟨base, pool, -, h⟩ := hL.literals
  obtain ⟨sym, -, hs⟩ := h id hid
  exact ⟨_, _, hs, rfl⟩

theorem Loaded.literal_inj {id' : Symbol.Id} {st : Storage} (hL : o.Loaded s L) (h : s.Valid)
    (hid : id ∈ s.constants.symbols) (hid' : id' ∈ s.constants.symbols) (hst : L.Stores id st)
    (hst' : L.Stores id' st) : id = id' := by
  obtain ⟨base, pool, hpool, hlit⟩ := hL.literals
  have hmem {id : Symbol.Id} (hid : id ∈ s.constants.symbols) : id ∈ pool.map Prod.fst := by
    rwa [(hpool.map Prod.fst).mem_iff, s.map_fst_literalSizes]
  have hsize : ∀ e ∈ pool, 0 < e.2 := by
    intro e he
    obtain ⟨id, hid, rfl⟩ := List.mem_map.1 (hpool.mem_iff.1 he)
    obtain ⟨sym, key, hs, -⟩ := h.of_literal hid
    simp only [hs, Option.map_some, Option.getD_some]
    exact sym.literalBytes_pos
  have hplace {id : Symbol.Id} (hid : id ∈ s.constants.symbols) (hst : L.Stores id st) :
      st.offset = (base + Code.poolOffset pool id : Nat) := by
    obtain ⟨sym, -, hs⟩ := hlit id hid
    obtain ⟨sym', hs', hst⟩ := hst
    obtain rfl := Option.some.inj (hs.symm.trans hs')
    exact (congrArg Storage.offset (Option.some.inj hst)).symm
  refine Code.poolOffset_inj hsize (hmem hid) (hmem hid') ?_
  have hoffset := (hplace hid hst).symm.trans (hplace hid' hst')
  omega

theorem Loaded.main_variable (hL : o.Loaded s L) (h : o.Valid s) (hid : o.MainSees id)
    (ht : s.IsVariable id t) :
    ∃ k < o.constants.length + o.vars.length, L.Stores id (.ofGlobal k) := by
  obtain ⟨k, hk, sym, hs, hst⟩ := h.main_storage hid ht
  exact ⟨k, hk, sym, hL.vars id sym _ hs hst, hst⟩

theorem Loaded.function_variable (hL : o.Loaded s L) (h : o.Valid s) (hf : f.Valid s (o.globals j))
    (hid : f.Sees (o.globals j) id) (ht : s.IsVariable id t) :
    (∃ k < o.constants.length, L.Stores id (.ofGlobal k)) ∨
      (Entry.Sees f.params id ∧ ∃ k < f.params.length, L.Stores id (.ofParameter k)) ∨
      (Entry.Sees f.locals id ∧ ∃ k < f.locals.length, L.Stores id (.ofLocal k)) := by
  obtain ⟨sym, hs, h⟩ := h.function_storage hf hid ht
  rcases h with ⟨k, hk, hst⟩ | ⟨he, k, hk, hst⟩ | ⟨he, k, hk, hst⟩
  · exact .inl ⟨k, hk, sym, hL.vars id sym _ hs hst, hst⟩
  · exact .inr (.inl ⟨he, k, hk, sym, hL.vars id sym _ hs hst, hst⟩)
  · exact .inr (.inr ⟨he, k, hk, sym, hL.vars id sym _ hs hst, hst⟩)

theorem Valid.function_of_main (h : o.Valid s) (hid : o.MainSees id) (hf : s.IsFunction id) :
    ∃ f ∈ o.functions, f.id = id := by
  rw [MainSees, Entry.Sees, List.map_append, List.mem_append] at hid
  rcases hid with hid | hid
  · exact absurd hf (h.vars.not_function hid)
  · obtain ⟨f, hmem, rfl⟩ := h.function_of_global hid hf
    exact ⟨f, List.mem_of_mem_take hmem, rfl⟩

theorem Valid.function_of_function (h : o.Valid s) (hf : f.Valid s (o.globals j))
    (hid : f.Sees (o.globals j) id) (hfun : s.IsFunction id) : ∃ g ∈ o.functions, g.id = id := by
  rw [Function.Sees, Entry.Sees, Function.entries, List.map_append, List.map_append,
    List.mem_append, List.mem_append] at hid
  rcases hid with (hid | hid) | hid
  · exact absurd hfun (hf.params.not_function hid)
  · exact absurd hfun (hf.locals.not_function hid)
  · obtain ⟨g, hmem, rfl⟩ := h.function_of_global hid hfun
    exact ⟨g, List.mem_of_mem_take hmem, rfl⟩

theorem Loaded.of_function (hL : o.Loaded s L) (hf : f ∈ o.functions) : ∃ st, L.Stores f.id st := by
  obtain ⟨k, hk⟩ := List.mem_iff_getElem?.1 hf
  exact ⟨_, hL.function hk⟩

theorem Loaded.isPlaced (hL : o.Loaded s L) (h : o.Valid s)
    (hl : l ∈ Assembly.program s.valueType o.root) : l.IsPlaced L := by
  obtain ⟨lines, hlines, hl⟩ := List.mem_flatten.1 hl
  obtain ⟨k, hk⟩ := List.mem_iff_getElem?.1 hlines
  have hlit {text : String} {id : Symbol.Id} (hr : s.resolveConstant text = some id) :
      ∃ st, L.Stores id st := by
    obtain ⟨offset, hst⟩ := hL.literal (h.scopes.mem_literals hr)
    exact ⟨_, hst⟩
  rcases h.isSegment hk with ⟨-, hseg⟩ | ⟨j, f, -, hj, hseg⟩
  · refine hseg.isPlaced hl (fun id hid => ?_) fun id hv hf => ?_
    · rcases hid with ⟨hv, t, ht⟩ | ⟨text, hr⟩
      · obtain ⟨k, -, hst⟩ := hL.main_variable h hv ht
        exact ⟨_, hst⟩
      · exact hlit hr
    · obtain ⟨f, hmem, rfl⟩ := h.function_of_main hv hf
      exact hL.of_function hmem
  · have hfv := h.functions j f hj
    refine hseg.isPlaced hl (fun id hid => ?_) fun id hv hf => ?_
    · rcases hid with ⟨hv, t, ht⟩ | ⟨text, hr⟩
      · rcases hL.function_variable h hfv hv ht with ⟨k, -, hst⟩ | ⟨-, k, -, hst⟩ | ⟨-, k, -, hst⟩
        all_goals exact ⟨_, hst⟩
      · exact hlit hr
    · obtain ⟨g, hg, rfl⟩ := h.function_of_function hfv hv hf
      exact hL.of_function hg

end Loaded

end Outline

end StackCompiler
