import StackCompiler.Proofs.Scoping

/-!
# Scopes while declarations are read

A declaration adds one symbol and one name to the innermost open scope, and takes the next offset
of its region. All other tables and all earlier symbols stay as they are.
-/

namespace StackCompiler.Scopes

variable {s s' s'' : Scopes} {n : Nat} {opened : List Nat}

/-- From `s` to `s'` nothing changed but symbols from number `n` on and the tables of the scopes
`opened`. -/
structure Keeps (n : Nat) (opened : List Nat) (s s' : Scopes) : Prop where
  symbols : ∀ id < n, s'.symbol? id = s.symbol? id
  size : s.symbols.size ≤ s'.symbols.size
  constants : ∀ key id, s.resolveConstant key = some id → s'.resolveConstant key = some id
  tables : ∀ (i : Nat) (t : SymbolTable), i ∉ opened → s.tables[i]? = some t →
    s'.tables[i]? = some t
  index : ∀ (name : String) (i : Nat), s.index[name]? = some i → s'.index[name]? = some i

theorem symbol?_lt {id : Symbol.Id} {sym : Symbol} (h : s.symbol? id = some sym) :
    id < s.symbols.size := by
  simp only [symbol?, Array.getElem?_eq_some_iff] at h
  exact h.1

theorem symbol?_of_lt {id : Symbol.Id} (h : id < s.symbols.size) :
    ∃ sym, s.symbol? id = some sym := ⟨s.symbols[id], Array.getElem?_eq_getElem h⟩

namespace Keeps

theorem refl (n : Nat) (opened : List Nat) (s : Scopes) : Keeps n opened s s :=
  ⟨fun _ _ => rfl, Nat.le_refl _, fun _ _ h => h, fun _ _ _ h => h, fun _ _ h => h⟩

theorem trans (h : Keeps n opened s s') (h' : Keeps n opened s' s'') : Keeps n opened s s'' where
  symbols id hid := (h'.symbols id hid).trans (h.symbols id hid)
  size := Nat.le_trans h.size h'.size
  constants key id hk := h'.constants key id (h.constants key id hk)
  tables i t hi ht := h'.tables i t hi (h.tables i t hi ht)
  index name i hi := h'.index name i (h.index name i hi)

theorem weaken {m : Nat} {more : List Nat} (h : Keeps n opened s s') (hm : m ≤ n)
    (ho : ∀ i ∈ opened, i ∈ more) : Keeps m more s s' :=
  ⟨fun id hid => h.symbols id (Nat.lt_of_lt_of_le hid hm), h.size, h.constants,
    fun i t hi => h.tables i t fun hm => hi (ho i hm), h.index⟩

theorem dropNew {i : Nat} (h : Keeps n (i :: opened) s s') (hi : s.tables.size ≤ i) :
    Keeps n opened s s' := by
  refine ⟨h.symbols, h.size, h.constants, fun j t hj ht => h.tables j t ?_ ht, h.index⟩
  rintro hm
  rcases List.mem_cons.1 hm with rfl | hm
  · rw [Array.getElem?_eq_none hi] at ht
    cases ht
  · exact hj hm

theorem toExtends (h : Keeps s.symbols.size opened s s') : s.Extends s' := by
  refine ⟨fun id sym hs => ?_, h.constants, fun scope ⟨i, hi⟩ => ⟨i, h.index scope i hi⟩⟩
  rw [h.symbols id (symbol?_lt hs), hs]

end Keeps

theorem Grows.size (g : s.Grows s') : s.symbols.size ≤ s'.symbols.size := by
  refine Nat.le_of_not_lt fun hlt => ?_
  obtain ⟨sym, hs⟩ := symbol?_of_lt hlt
  exact absurd (symbol?_lt (g.symbols _ sym hs)) (Nat.lt_irrefl _)

theorem Grows.keeps (g : s.Grows s') (hn : n ≤ s.symbols.size) (opened : List Nat) :
    Keeps n opened s s' := by
  refine ⟨fun id hid => ?_, g.size, g.constants, fun i t _ => g.tables i t, g.index⟩
  obtain ⟨sym, hs⟩ := symbol?_of_lt (Nat.lt_of_lt_of_le hid hn)
  rw [hs, g.symbols id sym hs]

theorem keeps_leave (n : Nat) (opened : List Nat) (s : Scopes) : Keeps n opened s s.leave :=
  ⟨fun _ _ => rfl, Nat.le_refl _, fun _ _ h => h, fun _ _ _ h => h, fun _ _ h => h⟩

/-- The innermost open scope has the table `i`, which lists `l`. It is not that of a statement. -/
structure Top (s : Scopes) (i : Nat) (rest : List Nat) (scope : String)
    (l : List (String × Symbol.Id)) : Prop where
  stack : s.stack = i :: rest
  table : ∃ t, s.tables[i]? = some t ∧ SymbolTable.scope t = scope ∧ t.Lists l
  unmarked : ¬ IsMarked scope

section Top

variable {i : Nat} {rest : List Nat} {scope : String} {l : List (String × Symbol.Id)}

theorem Top.grows (h : s.Top i rest scope l) (g : s.Grows s') : s'.Top i rest scope l := by
  obtain ⟨t, ht, hs, hl⟩ := h.table
  exact ⟨g.stack.trans h.stack, ⟨t, g.tables i t ht, hs, hl⟩, h.unmarked⟩

theorem Top.declaresHere (h : s.Top i rest scope l) (name : String) :
    s.declaresHere name = (l.lookup name).isSome := by
  obtain ⟨t, ht, -, hl⟩ := h.table
  simp only [Scopes.declaresHere, currentTable?, h.stack, List.head?_cons, Option.bind_some, ht,
    Option.map_some, Option.getD_some, SymbolTable.contains_eq, hl.resolve]

end Top

/-! ## Declaring a symbol -/

section Declare

variable {sym : Symbol} {region : Option Region} {i : Nat} {rest : List Nat} {scope : String}
  {l : List (String × Symbol.Id)}

/-- The place that the next declaration gets. -/
def nextPlace (s : Scopes) (region : Option Region) (isParameter : Bool) : Option Storage :=
  region.map fun r => ⟨r, (s.allocate r isParameter).1⟩

theorem allocate_symbols (s : Scopes) (r : Region) (p : Bool) :
    (s.allocate r p).2.symbols = s.symbols ∧ (s.allocate r p).2.tables = s.tables ∧
      (s.allocate r p).2.index = s.index ∧ (s.allocate r p).2.stack = s.stack ∧
      (s.allocate r p).2.constants = s.constants := by
  unfold allocate
  split <;> exact ⟨rfl, rfl, rfl, rfl, rfl⟩

theorem place_snd (s : Scopes) (sym : Symbol) (region : Option Region) :
    (s.place sym region).2 = region.elim s fun r => (s.allocate r sym.isParameter).2 := by
  cases region <;> rfl

theorem declare_eq (h : s.stack = i :: rest) (sym : Symbol) (region : Option Region) :
    s.declare sym region = (s.symbols.size,
      { (s.place sym region).2 with
        symbols := s.symbols.push (s.place sym region).1
        tables := s.tables.modify i fun t => t.insert sym.name s.symbols.size }) := by
  cases region with
  | none => simp only [declare, place, add, bind, h]
  | some r =>
    obtain ⟨h₁, h₂, h₃, h₄, h₅⟩ := allocate_symbols s r sym.isParameter
    simp only [declare, place, add, bind, h₁, h₂, h₄, h]

theorem place_fst (s : Scopes) (region : Option Region) (hs : sym.storage = none) :
    (s.place sym region).1.kind = sym.kind ∧ (s.place sym region).1.name = sym.name ∧
      (s.place sym region).1.attributes = sym.attributes ∧
      (s.place sym region).1.storage = s.nextPlace region sym.isParameter := by
  cases region <;> exact ⟨rfl, rfl, rfl, by simp [place, nextPlace, hs]⟩

theorem isVariable_place {type : DataType} (h : sym.IsVariable type) (hs : sym.storage = none) :
    (s.place sym region).1.IsVariable type := by
  obtain ⟨hk, -, ha, -⟩ := place_fst s region hs
  exact ⟨hk ▸ h.not_function, hk ▸ h.not_type, hk ▸ h.not_array,
    by simpa only [Symbol.dataType?, ha] using h.type, h.scalar⟩

theorem symbol?_declare (h : s.stack = i :: rest) (sym : Symbol) (region : Option Region)
    (id : Symbol.Id) : (s.declare sym region).2.symbol? id =
      if id = s.symbols.size then some (s.place sym region).1 else s.symbol? id := by
  rw [declare_eq h]
  simp only [symbol?, Array.getElem?_push]

theorem declare_stack (h : s.stack = i :: rest) : (s.declare sym region).2.stack = s.stack := by
  rw [declare_eq h]
  cases region with
  | none => rfl
  | some r => exact (allocate_symbols s r _).2.2.2.1

theorem declare_index (h : s.stack = i :: rest) : (s.declare sym region).2.index = s.index := by
  rw [declare_eq h]
  cases region with
  | none => rfl
  | some r => exact (allocate_symbols s r _).2.2.1

theorem declare_constants (h : s.stack = i :: rest) :
    (s.declare sym region).2.constants = s.constants := by
  rw [declare_eq h]
  cases region with
  | none => rfl
  | some r => exact (allocate_symbols s r _).2.2.2.2

theorem tables_declare (h : s.stack = i :: rest) (j : Nat) :
    (s.declare sym region).2.tables[j]? =
      if i = j then s.tables[j]?.map fun t => t.insert sym.name s.symbols.size else s.tables[j]? := by
  rw [declare_eq h, Array.getElem?_modify]

theorem declare_counters (h : s.stack = i :: rest) (sym : Symbol) (region : Option Region) :
    (s.declare sym region).2.nextGlobal = (s.place sym region).2.nextGlobal ∧
      (s.declare sym region).2.nextLocal = (s.place sym region).2.nextLocal ∧
      (s.declare sym region).2.nextParameter = (s.place sym region).2.nextParameter := by
  rw [declare_eq h]
  exact ⟨rfl, rfl, rfl⟩

/-- The place of the `k`-th declaration from now on. -/
def slotAfter (s : Scopes) (region : Option Region) (isParameter : Bool) (k : Nat) :
    Option Storage :=
  region.map fun
    | .constants => ⟨.constants, 0⟩
    | .globals => ⟨.globals, s.nextGlobal + 8 * k⟩
    | .declarations =>
      ⟨.declarations, if isParameter then s.nextParameter - 8 * k else s.nextLocal + 8 * k⟩

theorem nextPlace_eq (s : Scopes) (region : Option Region) (p : Bool) :
    s.nextPlace region p = s.slotAfter region p 0 := by
  rcases region with _ | _ | _ | _
  · rfl
  · rfl
  · simp [nextPlace, slotAfter, allocate]
  · cases p <;> simp [nextPlace, slotAfter, allocate]

theorem slotAfter_declare (h : s.stack = i :: rest) (sym : Symbol) (region : Option Region)
    (k : Nat) : (s.declare sym region).2.slotAfter region sym.isParameter k =
      s.slotAfter region sym.isParameter (k + 1) := by
  obtain ⟨hg, hl, hp⟩ := declare_counters h sym region
  rw [place_snd] at hg hl hp
  rcases region with _ | _ | _ | _
  · rfl
  · rfl
  · simp only [slotAfter, hg, Option.elim_some, allocate, slotSize, Option.map_some]
    congr 2
    omega
  · cases hpar : sym.isParameter <;>
      simp only [slotAfter, hl, hp, hpar, Option.elim_some, allocate, slotSize, Option.map_some,
        if_true, if_false, Bool.false_eq_true] <;> congr 2 <;> omega

theorem declare_nextGlobal (h : s.stack = i :: rest) (hr : region ≠ some .globals) :
    (s.declare sym region).2.nextGlobal = s.nextGlobal := by
  rw [(declare_counters h sym region).1, place_snd]
  rcases region with _ | _ | _ | _
  · rfl
  · rfl
  · exact absurd rfl hr
  · cases hpar : sym.isParameter <;> simp [allocate]

theorem declare_nextLocal (h : s.stack = i :: rest) (hp : sym.isParameter) :
    (s.declare sym region).2.nextLocal = s.nextLocal := by
  rw [(declare_counters h sym region).2.1, place_snd]
  rcases region with _ | _ | _ | _ <;> simp [allocate, hp]

theorem keeps_declare (h : s.stack = i :: rest) (hn : n ≤ s.symbols.size) (sym : Symbol)
    (region : Option Region) : Keeps n [i] s (s.declare sym region).2 where
  symbols id hid := by rw [symbol?_declare h, if_neg (Nat.ne_of_lt (Nat.lt_of_lt_of_le hid hn))]
  size := by rw [declare_eq h]; simp
  constants key id hk := by rwa [resolveConstant, declare_constants h]
  tables j t hj ht := by
    rw [tables_declare h, if_neg, ht]
    rintro rfl
    exact hj (by simp)
  index name j hj := by rwa [declare_index h]

theorem Top.declare (h : s.Top i rest scope l) (hf : l.lookup sym.name = none) :
    (s.declare sym region).2.Top i rest scope (l ++ [(sym.name, s.symbols.size)]) := by
  obtain ⟨t, ht, hs, hl⟩ := h.table
  refine ⟨(declare_stack h.stack).trans h.stack, ⟨_, ?_, ?_, hl.insert ((hl.resolve _).trans hf)⟩,
    h.unmarked⟩
  · rw [tables_declare h.stack, if_pos rfl, ht]
    rfl
  · rw [SymbolTable.insert_scope, hs]

theorem Valid.declare (hv : s.Valid) (h : s.Top i rest scope l) (hn : sym.Nameable)
    (hs : sym.storage = none) : (s.declare sym region).2.Valid := by
  obtain ⟨ti, hti, hsi, -⟩ := h.table
  have hst := h.stack
  obtain ⟨hk, -, ha, -⟩ := place_fst s region hs
  have old : ∀ id sym', s.symbol? id = some sym' →
      (s.declare sym region).2.symbol? id = some sym' := by
    intro id sym' hid
    rw [symbol?_declare hst, if_neg (Nat.ne_of_lt (symbol?_lt hid)), hid]
  have kept : ∀ (j : Nat) (t : SymbolTable), s.tables[j]? = some t → ∃ t',
      (s.declare sym region).2.tables[j]? = some t' ∧ t'.scope = t.scope := by
    intro j t ht
    rw [tables_declare hst, ht]
    split
    · exact ⟨_, rfl, SymbolTable.insert_scope t _ _⟩
    · exact ⟨t, rfl, rfl⟩
  -- what a name stands for afterwards is the new symbol, in the innermost scope, or an old one
  have bound : ∀ (j : Nat) (t : SymbolTable) name id,
      (s.declare sym region).2.tables[j]? = some t → t.resolve name = some id →
      j = i ∧ id = s.symbols.size ∨
        ∃ t', s.tables[j]? = some t' ∧ t'.resolve name = some id ∧ id < s.symbols.size := by
    intro j t name id ht hr
    have hold : ∀ t', s.tables[j]? = some t' → t'.resolve name = some id → id < s.symbols.size := by
      intro t' ht' hr'
      obtain ⟨sym', hs', -⟩ := hv.bound j t' name id ht' hr'
      exact symbol?_lt hs'
    rw [tables_declare hst] at ht
    split at ht
    · next hij =>
      subst hij
      rw [hti, Option.map_some, Option.some.injEq] at ht
      subst ht
      rw [SymbolTable.resolve_insert] at hr
      split at hr
      · cases hr
        exact .inl ⟨rfl, rfl⟩
      · exact .inr ⟨ti, hti, hr, hold ti hti hr⟩
    · exact .inr ⟨t, ht, hr, hold t ht hr⟩
  refine ⟨fun name j hj => ?_, fun j hj => ?_, fun name j hj hm => ?_, fun j t name id ht hr => ?_,
    fun j k t u name other id ht hu hr hr' => ?_, ?_⟩
  · rw [declare_index hst] at hj
    obtain ⟨t, ht, rfl⟩ := hv.indexed name j hj
    exact kept j t ht
  · rw [declare_stack hst] at hj
    obtain ⟨t, ht⟩ := hv.opened j hj
    obtain ⟨t', ht', -⟩ := kept j t ht
    exact ⟨t', ht'⟩
  · -- the scope of a statement is not the innermost one
    rw [declare_index hst] at hj
    have hne : i ≠ j := by
      rintro rfl
      have hm' := hv.marked name i hj hm
      rw [hti, Option.some.injEq] at hm'
      subst hm'
      exact h.unmarked (hsi ▸ hm)
    rw [tables_declare hst, if_neg hne]
    exact hv.marked name j hj hm
  · rcases bound j t name id ht hr with ⟨-, rfl⟩ | ⟨t', ht', hr', -⟩
    · refine ⟨_, by rw [symbol?_declare hst, if_pos rfl], ?_⟩
      rcases hn with h | h | h | ⟨t, ht⟩
      · exact .inl ⟨hk.trans h.kind, by
          simpa only [Symbol.valueType, Symbol.returnType?, Symbol.dataType?, hk, ha] using h.yields⟩
      · exact .inr (.inl (hk.trans h))
      · exact .inr (.inr (.inl (hk.trans h)))
      · exact .inr (.inr (.inr ⟨t, isVariable_place ht hs⟩))
    · obtain ⟨sym', hs', hn'⟩ := hv.bound j t' name id ht' hr'
      exact ⟨sym', old id sym' hs', hn'⟩
  · rcases bound j t name id ht hr with ⟨hj, hid⟩ | ⟨t', ht', hr₁, hlt⟩ <;>
      rcases bound k u other id hu hr' with ⟨hk', hid'⟩ | ⟨u', hu', hr₂, hlt'⟩
    · exact hj.trans hk'.symm
    · exact absurd hlt' (hid ▸ Nat.lt_irrefl _)
    · exact absurd hlt (hid' ▸ Nat.lt_irrefl _)
    · exact hv.disjoint j k t' u' name other id ht' hu' hr₁ hr₂
  · obtain ⟨pool, hl, hp⟩ := hv.pool
    refine ⟨pool, by rwa [declare_constants hst], fun e he => ?_⟩
    obtain ⟨sym', hs', hp'⟩ := hp e he
    exact ⟨sym', old e.2 sym' hs', hp'⟩

end Declare

section Create

variable {scope : String}

theorem index_createNew (hi : s.index[scope]? = none) (name : String) :
    (s.create scope).index[name]? = if scope = name then some s.tables.size else s.index[name]? := by
  rw [create_of_new hi]
  show (s.index.insert scope s.tables.size)[name]? = _
  rw [Std.TreeMap.getElem?_insert]
  simp

theorem top_create (hi : s.index[scope]? = none) (hu : ¬ IsMarked scope) :
    (s.create scope).Top s.tables.size s.stack scope [] := by
  rw [create_of_new hi]
  exact ⟨rfl, ⟨.empty scope, by simp [push], rfl, SymbolTable.lists_empty scope⟩, hu⟩

theorem keeps_create (hi : s.index[scope]? = none) (n : Nat) (opened : List Nat) :
    Keeps n opened s (s.create scope) where
  symbols id _ := symbol?_create s scope id
  size := Nat.le_of_eq (by rw [create_symbols])
  constants key id hk := by rwa [resolveConstant, create_constants]
  tables j t _ ht := by
    rw [create_of_new hi]
    show (s.tables.push _)[j]? = _
    rw [Array.getElem?_push, if_neg, ht]
    rintro rfl
    simp at ht
  index name j hj := by
    rw [index_createNew hi, if_neg, hj]
    rintro rfl
    simp [hi] at hj

theorem create_counters (s : Scopes) (scope : String) :
    (s.create scope).nextLocal = localsBase ∧ (s.create scope).nextParameter = parametersBase := by
  unfold create
  split <;> exact ⟨rfl, rfl⟩

end Create

section AddAttribute

variable {id : Symbol.Id} {sym : Symbol}

theorem symbol?_addAttribute (s : Scopes) (id : Symbol.Id) (a : Symbol.Attribute)
    (other : Symbol.Id) : (s.addAttribute id a).symbol? other =
      if id = other then (s.symbol? other).map fun sym => sym.addAttribute a else s.symbol? other := by
  simp only [addAttribute, modify, symbol?, Array.getElem?_modify]

theorem keeps_addAttribute (a : Symbol.Attribute) (hn : n ≤ id) (opened : List Nat) (s : Scopes) :
    Keeps n opened s (s.addAttribute id a) where
  symbols other ho := by
    rw [symbol?_addAttribute, if_neg (Ne.symm (Nat.ne_of_lt (Nat.lt_of_lt_of_le ho hn)))]
  size := by simp [addAttribute, modify]
  constants _ _ h := h
  tables _ _ _ h := h
  index _ _ h := h

theorem Valid.addAttribute {a : Symbol.Attribute} (hv : s.Valid) (hs : s.symbol? id = some sym)
    (hf : (sym.addAttribute a).IsFunction) : (s.addAttribute id a).Valid := by
  refine ⟨hv.indexed, hv.opened, hv.marked, fun i t name other ht hr => ?_, hv.disjoint, ?_⟩
  · obtain ⟨sym', hs', hn⟩ := hv.bound i t name other ht hr
    rw [symbol?_addAttribute]
    split
    · next he =>
      subst he
      rw [hs]
      exact ⟨_, rfl, .inl hf⟩
    · exact ⟨sym', hs', hn⟩
  · obtain ⟨l, hl, hp⟩ := hv.pool
    refine ⟨l, hl, fun e he => ?_⟩
    obtain ⟨sym', hs', hlit, hrest⟩ := hp e he
    rw [symbol?_addAttribute, if_neg]
    · exact ⟨sym', hs', hlit, hrest⟩
    · rintro rfl
      rw [hs, Option.some.injEq] at hs'
      exact hlit.not_function (hs' ▸ hf.kind)

theorem Top.addAttribute {i : Nat} {rest : List Nat} {scope : String}
    {l : List (String × Symbol.Id)} (h : s.Top i rest scope l) (id : Symbol.Id)
    (a : Symbol.Attribute) : (s.addAttribute id a).Top i rest scope l :=
  ⟨h.stack, h.table, h.unmarked⟩

end AddAttribute

/-- The meaning of names in a chain of scopes, the innermost first. -/
def namesOf (scopes : List (List (String × Symbol.Id))) : Names :=
  fun name => scopes.findSome? fun l => l.lookup name

section Names

variable {i j : Nat} {scope : String} {l l' : List (String × Symbol.Id)}

theorem Top.resolve (h : s.Top i [] scope l) (name : String) :
    s.resolve name = namesOf [l] name := by
  obtain ⟨t, ht, -, hl⟩ := h.table
  simp only [Scopes.resolve, namesOf, h.stack, List.findSome?_cons, ht, Option.bind_some, hl.resolve,
    List.findSome?_nil]

theorem Top.resolve_inner {t : SymbolTable} (h : s.Top i [j] scope l) (ht : s.tables[j]? = some t)
    (hl' : t.Lists l') (name : String) : s.resolve name = namesOf [l, l'] name := by
  obtain ⟨u, hu, -, hl⟩ := h.table
  simp only [Scopes.resolve, namesOf, h.stack, List.findSome?_cons, hu, ht, Option.bind_some,
    hl.resolve, hl'.resolve, List.findSome?_nil]

theorem mem_of_namesOf {scopes : List (List (String × Symbol.Id))} {name : String}
    {id : Symbol.Id} (h : namesOf scopes name = some id) : ∃ l ∈ scopes, (name, id) ∈ l := by
  obtain ⟨l, hl, hn⟩ := List.exists_of_findSome?_eq_some h
  refine ⟨l, hl, ?_⟩
  obtain ⟨l₁, l₂, rfl, -⟩ := List.lookup_eq_some_iff.1 hn
  simp

end Names

end StackCompiler.Scopes
