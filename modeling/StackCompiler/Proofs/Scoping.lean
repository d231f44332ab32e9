import StackCompiler.Proofs.Typing

/-!
# Scopes while a body is read

Reading expressions and statements makes symbols for values and literals, and scopes for loops and
conditionals, in which nothing is declared. So every name keeps its meaning.
-/

namespace StackCompiler

theorem Text.readInt?_mem {cs : List Char} {n : Int} (h : readInt? cs = some n) {c : Char}
    (hc : c ∈ cs) : isDigit c ∨ c = '-' ∨ c = '+' := by
  unfold readInt? readSign at h
  split at h
  next negative ds heq =>
    split at h
    · cases h
    · next hd =>
      simp only [Bool.or_eq_true, Bool.not_eq_true', not_or, Bool.not_eq_true, List.all_eq_false,
        not_exists, not_and, Bool.not_eq_false] at hd
      split at heq <;> cases heq
      case h_3 => exact .inl (hd.2 c hc)
      all_goals
        rcases List.mem_cons.1 hc with rfl | hc
        · simp
        · exact .inl (hd.2 c hc)

theorem Text.readWord?_mem {key : String} {n : Int} (h : readWord? key = some n) {c : Char}
    (hc : c ∈ key.toList) : isDigit c ∨ c = '-' ∨ c = '+' :=
  readInt?_mem (Option.eq_some_of_filter_eq_some h) hc

namespace Symbol

variable {sym : Symbol} {key : String}

/-- A function, which yields the value of a variable or none. -/
structure IsFunction (sym : Symbol) : Prop where
  kind : sym.kind = .function
  yields : sym.valueType.IsScalar ∨ sym.valueType = .void

/-- What a name can stand for. -/
def Nameable (sym : Symbol) : Prop :=
  sym.IsFunction ∨ sym.kind = .typeName ∨ sym.kind = .structOrArrayVariable ∨
    ∃ t, sym.IsVariable t

theorem Nameable.isFunction (h : sym.Nameable) (hk : sym.kind = .function) : sym.IsFunction := by
  rcases h with h | h | h | ⟨t, h⟩
  · exact h
  · simp [h] at hk
  · simp [h] at hk
  · exact absurd hk h.not_function

/-- The symbol of the literal that the pool holds under `key`. The three sorts of keys exclude one
another. -/
inductive IsLiteral (sym : Symbol) (key : String) : Prop
  | integer (n : Int) (hn : Text.readWord? key = some n) (hk : sym.kind = .intConstant)
      (ha : sym.attributes = [.integerConstant n, .dataType .int])
  | real (x : Binary64) (hx : Binary64.read? key = some x) (hp : '.' ∈ key.toList)
      (hq : '"' ∉ key.toList) (hk : sym.kind = .realConstant)
      (ha : sym.attributes = [.realConstant x, .dataType .real])
  | string (text : String) (ht : key = "\"" ++ text ++ "\"") (hk : sym.kind = .stringConstant)
      (ha : sym.attributes = [.stringConstant text, .dataType .string])

theorem IsLiteral.not_function (h : sym.IsLiteral key) : sym.kind ≠ .function := by
  rcases h with ⟨n, -, hk, -⟩ | ⟨x, -, -, -, hk, -⟩ | ⟨text, -, hk, -⟩ <;> simp [hk]

/-- Literals are told by their kind and attributes, not by where they stand. -/
theorem IsLiteral.inScope (h : sym.IsLiteral key) (scope : String) :
    { sym with scope := scope }.IsLiteral key := by
  cases h with
  | integer n hn hk ha => exact .integer n hn hk ha
  | real x hx hp hq hk ha => exact .real x hx hp hq hk ha
  | string text ht hk ha => exact .string text ht hk ha

/-- The key of a literal tells everything about it. -/
theorem IsLiteral.unique {sym' : Symbol} (h : sym.IsLiteral key) (h' : sym'.IsLiteral key) :
    sym.kind = sym'.kind ∧ sym.attributes = sym'.attributes := by
  -- quotes mark a string, a point marks a real
  have hint : ∀ {n}, Text.readWord? key = some n → '.' ∉ key.toList ∧ '"' ∉ key.toList := by
    refine fun hn => ⟨fun hc => ?_, fun hc => ?_⟩ <;>
      exact absurd (Text.readWord?_mem hn hc) (by decide)
  have hstr : ∀ {text}, key = "\"" ++ text ++ "\"" → '"' ∈ key.toList := by
    rintro text rfl
    simp
  cases h with
  | integer n hn hk ha =>
    cases h' with
    | integer n' hn' hk' ha' =>
      rw [hn, Option.some.injEq] at hn'
      exact ⟨hk.trans hk'.symm, by rw [ha, ha', hn']⟩
    | real x' _ hp' => exact absurd hp' (hint hn).1
    | string text' ht' => exact absurd (hstr ht') (hint hn).2
  | real x hx hp hq hk ha =>
    cases h' with
    | integer n' hn' => exact absurd hp (hint hn').1
    | real x' hx' _ _ hk' ha' =>
      rw [hx, Option.some.injEq] at hx'
      exact ⟨hk.trans hk'.symm, by rw [ha, ha', hx']⟩
    | string text' ht' => exact absurd (hstr ht') hq
  | string text ht hk ha =>
    cases h' with
    | integer n' hn' => exact absurd (hstr ht) (hint hn').2
    | real x' _ _ hq' => exact absurd (hstr ht) hq'
    | string text' ht' hk' ha' =>
      rw [ht, String.append_left_inj, String.append_right_inj] at ht'
      exact ⟨hk.trans hk'.symm, by rw [ha, ha', ht']⟩

end Symbol

namespace Scopes

/-- Whether the name is that of the scope of a loop or a conditional. -/
def IsMarked (scope : String) : Prop := '@' ∈ scope.toList

/-- What holds of scopes at any time: the index is right, the scopes of loops and conditionals are
empty, names stand for what names can stand for, no two scopes share a symbol, and the pool holds
literals. -/
structure Valid (s : Scopes) : Prop where
  indexed : ∀ (name : String) (i : Nat), s.index[name]? = some i →
    ∃ t, s.tables[i]? = some t ∧ SymbolTable.scope t = name
  opened : ∀ i ∈ s.stack, ∃ t, s.tables[i]? = some t
  marked : ∀ (name : String) (i : Nat), s.index[name]? = some i → IsMarked name →
    s.tables[i]? = some (.empty name)
  bound : ∀ (i : Nat) (t : SymbolTable) name id, s.tables[i]? = some t → t.resolve name = some id →
    ∃ sym, s.symbol? id = some sym ∧ sym.Nameable
  disjoint : ∀ (i j : Nat) (t u : SymbolTable) name other id, s.tables[i]? = some t →
    s.tables[j]? = some u → t.resolve name = some id → u.resolve other = some id → i = j
  pool : ∃ l, s.constants.Lists l ∧ ∀ e ∈ l, ∃ sym,
    s.symbol? e.2 = some sym ∧ sym.IsLiteral e.1 ∧ sym.name = e.1 ∧ sym.storage = none

theorem valid_empty : empty.Valid :=
  ⟨by simp [empty], by simp [empty], by simp [empty], by simp [empty], by simp [empty],
    [], SymbolTable.lists_empty poolName, by simp⟩

/-- What reading a part of a body does: it adds symbols without storage, none of them a function,
literals, and scopes in which nothing is declared. -/
structure Grows (s s' : Scopes) : Prop where
  symbols : ∀ id sym, s.symbol? id = some sym → s'.symbol? id = some sym
  fresh : ∀ id sym, s'.symbol? id = some sym →
    s.symbol? id = some sym ∨ sym.storage = none ∧ sym.kind ≠ .function
  constants : ∀ key id, s.resolveConstant key = some id → s'.resolveConstant key = some id
  tables : ∀ (i : Nat) (t : SymbolTable), s.tables[i]? = some t → s'.tables[i]? = some t
  index : ∀ (name : String) (i : Nat), s.index[name]? = some i → s'.index[name]? = some i
  marked : ∀ (name : String) (i : Nat), s'.index[name]? = some i →
    s.index[name]? = some i ∨ IsMarked name
  stack : s'.stack = s.stack
  nextGlobal : s'.nextGlobal = s.nextGlobal

theorem findSome?_tables {tables tables' : Array SymbolTable} {stack : List Nat} {name : String}
    (h : ∀ i ∈ stack, tables'[i]? = tables[i]?) :
    (stack.findSome? fun i => tables'[i]?.bind fun t => t.resolve name) =
      stack.findSome? fun i => tables[i]?.bind fun t => t.resolve name := by
  induction stack with
  | nil => rfl
  | cons i stack ih =>
    rw [List.findSome?_cons, List.findSome?_cons, h i (by simp),
      ih fun j hj => h j (List.mem_cons_of_mem _ hj)]

/-- A name that stands for something stands for what names can stand for. -/
theorem Valid.resolved {s : Scopes} {name : String} {id : Symbol.Id} (h : s.Valid)
    (hr : s.resolve name = some id) : ∃ sym, s.symbol? id = some sym ∧ sym.Nameable := by
  obtain ⟨i, -, hi⟩ := List.exists_of_findSome?_eq_some hr
  obtain ⟨t, ht, hn⟩ := Option.bind_eq_some_iff.1 hi
  exact h.bound i t name id ht hn

namespace Grows

variable {s s' s'' : Scopes}

theorem refl (s : Scopes) : s.Grows s :=
  ⟨fun _ _ h => h, fun _ _ h => .inl h, fun _ _ h => h, fun _ _ h => h, fun _ _ h => h,
    fun _ _ h => .inl h, rfl, rfl⟩

theorem trans (h : s.Grows s') (h' : s'.Grows s'') : s.Grows s'' where
  symbols id sym hs := h'.symbols id sym (h.symbols id sym hs)
  fresh id sym hs := (h'.fresh id sym hs).elim (fun hs => h.fresh id sym hs) .inr
  constants key id hk := h'.constants key id (h.constants key id hk)
  tables i t ht := h'.tables i t (h.tables i t ht)
  index name i hi := h'.index name i (h.index name i hi)
  marked name i hi := (h'.marked name i hi).elim (fun hi => h.marked name i hi) .inr
  stack := h'.stack.trans h.stack
  nextGlobal := h'.nextGlobal.trans h.nextGlobal

theorem toExtends (h : s.Grows s') : s.Extends s' :=
  ⟨h.symbols, h.constants, fun scope ⟨i, hi⟩ => ⟨i, h.index scope i hi⟩⟩

theorem resolve (h : s.Grows s') (hv : s.Valid) (name : String) :
    s'.resolve name = s.resolve name := by
  unfold Scopes.resolve
  rw [h.stack]
  refine findSome?_tables fun i hi => ?_
  obtain ⟨t, ht⟩ := hv.opened i hi
  rw [ht, h.tables i t ht]

end Grows

section Symbols

variable {s : Scopes} {sym : Symbol} {key : String}

theorem symbol?_add (s : Scopes) (sym : Symbol) (id : Symbol.Id) :
    (s.add sym).2.symbol? id = if id = s.symbols.size then some sym else s.symbol? id := by
  simp only [symbol?, add, Array.getElem?_push]

theorem symbol?_add_self (s : Scopes) (sym : Symbol) :
    (s.add sym).2.symbol? (s.add sym).1 = some sym := by
  rw [symbol?_add]
  exact if_pos rfl

theorem symbol?_add_of_some {id : Symbol.Id} {old : Symbol} (sym : Symbol)
    (h : s.symbol? id = some old) : (s.add sym).2.symbol? id = some old := by
  have hlt : id < s.symbols.size := by
    simp only [symbol?, Array.getElem?_eq_some_iff] at h
    exact h.1
  rw [symbol?_add, if_neg (Nat.ne_of_lt hlt), h]

theorem Grows.add (s : Scopes) (sym : Symbol) (hs : sym.storage = none)
    (hk : sym.kind ≠ .function) : s.Grows (s.add sym).2 where
  symbols id old h := symbol?_add_of_some sym h
  fresh id new h := by
    rw [symbol?_add] at h
    split at h
    · cases h; exact .inr ⟨hs, hk⟩
    · exact .inl h
  constants _ _ h := h
  tables _ _ h := h
  index _ _ h := h
  marked _ _ h := .inl h
  stack := rfl
  nextGlobal := rfl

theorem Valid.add (h : s.Valid) (sym : Symbol) : (s.add sym).2.Valid where
  indexed := h.indexed
  opened := h.opened
  marked := h.marked
  bound i t name id ht hr := by
    obtain ⟨old, ho, hn⟩ := h.bound i t name id ht hr
    exact ⟨old, symbol?_add_of_some sym ho, hn⟩
  disjoint := h.disjoint
  pool := by
    obtain ⟨l, hl, hp⟩ := h.pool
    refine ⟨l, hl, fun e he => ?_⟩
    obtain ⟨old, ho, hn⟩ := hp e he
    exact ⟨old, symbol?_add_of_some sym ho, hn⟩

theorem resolveConstant_addConstant (s : Scopes) (key other : String) (sym : Symbol) :
    (s.addConstant key sym).2.resolveConstant other =
      if key = other then some s.symbols.size else s.resolveConstant other :=
  SymbolTable.resolve_insert s.constants key other s.symbols.size

theorem Grows.addConstant (hs : sym.storage = none) (hk : sym.kind ≠ .function)
    (hn : s.resolveConstant key = none) : s.Grows (s.addConstant key sym).2 := by
  have h := Grows.add s { sym with scope := poolName } hs hk
  refine ⟨h.symbols, h.fresh, fun other id ho => ?_, h.tables, h.index, h.marked, rfl, rfl⟩
  rw [resolveConstant_addConstant, if_neg, ho]
  rintro rfl
  simp [hn] at ho

theorem symbol?_addConstant_self (s : Scopes) (key : String) (sym : Symbol) :
    (s.addConstant key sym).2.symbol? (s.addConstant key sym).1 =
      some { sym with scope := poolName } :=
  symbol?_add_self s _

theorem Valid.addConstant (h : s.Valid) (hn : s.resolveConstant key = none)
    (hl : sym.IsLiteral key) (hk : sym.name = key) (hs : sym.storage = none) :
    (s.addConstant key sym).2.Valid := by
  have h' := h.add { sym with scope := poolName }
  refine ⟨h'.indexed, h'.opened, h'.marked, h'.bound, h'.disjoint, ?_⟩
  obtain ⟨l, hl', hp⟩ := h.pool
  refine ⟨l ++ [(key, s.symbols.size)], hl'.insert hn, fun e he => ?_⟩
  rcases List.mem_append.1 he with he | he
  · obtain ⟨old, ho, hp⟩ := hp e he
    exact ⟨old, symbol?_add_of_some _ ho, hp⟩
  · rw [List.mem_singleton.1 he]
    exact ⟨_, symbol?_addConstant_self s key sym, hl.inScope poolName, hk, hs⟩

theorem Valid.literal {id : Symbol.Id} (h : s.Valid) (hr : s.resolveConstant key = some id) :
    ∃ sym, s.symbol? id = some sym ∧ sym.IsLiteral key := by
  obtain ⟨l, hl, hp⟩ := h.pool
  obtain ⟨sym, hs, hlit, -⟩ := hp _ (hl.mem_of_resolve hr)
  exact ⟨sym, hs, hlit⟩

end Symbols

/-! ## New scopes -/

section Create

variable {s : Scopes} {scope : String}

/-- A scope can be made without loss if it is new, or if it is that of a loop or a conditional. -/
def Makes (s : Scopes) (scope : String) : Prop := IsMarked scope ∨ s.index[scope]? = none

theorem Makes.marked {i : Nat} (hm : s.Makes scope) (hi : s.index[scope]? = some i) :
    IsMarked scope := hm.resolve_right (by simp [hi])

theorem Valid.create_eq_push {i : Nat} (h : s.Valid) (hm : IsMarked scope)
    (hi : s.index[scope]? = some i) : s.create scope = s.push i := by
  have ht : s.tables.setIfInBounds i (.empty scope) = s.tables := by
    refine Array.ext_getElem? fun j => ?_
    rw [Array.getElem?_setIfInBounds]
    split
    · next hij => subst hij; have := h.marked scope i hi hm; rw [this]; split <;> simp_all
    · rfl
  simp only [create, hi, ht]

theorem create_of_new (hi : s.index[scope]? = none) :
    s.create scope =
      { s with
        tables := s.tables.push (.empty scope)
        index := s.index.insert scope s.tables.size }.push s.tables.size := by
  simp only [create, hi]

theorem made_create (s : Scopes) (scope : String) : (s.create scope).Made scope := by
  unfold create
  split
  · next i hi => exact ⟨i, hi⟩
  · exact ⟨s.tables.size, by simp [push]⟩

theorem Valid.tables_create {i : Nat} {t : SymbolTable} (h : s.Valid) (hm : s.Makes scope)
    (ht : s.tables[i]? = some t) : (s.create scope).tables[i]? = some t := by
  cases hi : s.index[scope]? with
  | some j => rw [h.create_eq_push (hm.marked hi) hi]; exact ht
  | none =>
    rw [create_of_new hi]
    show (s.tables.push _)[i]? = _
    rw [Array.getElem?_push, if_neg, ht]
    rintro rfl
    simp at ht

theorem Valid.index_create (h : s.Valid) (hm : s.Makes scope) (name : String) (i : Nat) :
    (s.create scope).index[name]? = some i ↔
      s.index[name]? = some i ∨ s.index[scope]? = none ∧ name = scope ∧ i = s.tables.size := by
  cases hi : s.index[scope]? with
  | some j => rw [h.create_eq_push (hm.marked hi) hi]; simp [push]
  | none =>
    rw [create_of_new hi]
    show (s.index.insert scope s.tables.size)[name]? = some i ↔ _
    rw [Std.TreeMap.getElem?_insert]
    by_cases he : scope = name
    · subst he; simp [hi, eq_comm]
    · simp [he, Ne.symm he]

theorem Valid.head_create (h : s.Valid) (hm : s.Makes scope) :
    ∃ i, (s.create scope).stack = i :: s.stack ∧
      (s.create scope).tables[i]? = some (.empty scope) := by
  cases hi : s.index[scope]? with
  | some i =>
    rw [h.create_eq_push (hm.marked hi) hi]
    exact ⟨i, rfl, h.marked scope i hi (hm.marked hi)⟩
  | none => rw [create_of_new hi]; exact ⟨s.tables.size, rfl, by simp [push]⟩

theorem create_symbols (s : Scopes) (scope : String) : (s.create scope).symbols = s.symbols := by
  unfold create
  split <;> rfl

theorem symbol?_create (s : Scopes) (scope : String) (id : Symbol.Id) :
    (s.create scope).symbol? id = s.symbol? id := by
  rw [symbol?, create_symbols]
  rfl

theorem create_constants (s : Scopes) (scope : String) :
    (s.create scope).constants = s.constants := by
  unfold create
  split <;> rfl

theorem create_nextGlobal (s : Scopes) (scope : String) :
    (s.create scope).nextGlobal = s.nextGlobal := by
  unfold create
  split <;> rfl

theorem Valid.create (h : s.Valid) (hm : s.Makes scope) : (s.create scope).Valid := by
  obtain ⟨top, hst, htop⟩ := h.head_create hm
  -- a table that is new is that of the scope itself
  have htab : ∀ (i : Nat) (t : SymbolTable), (s.create scope).tables[i]? = some t →
      s.tables[i]? = some t ∨ t = .empty scope := by
    intro i t ht
    cases hi : s.index[scope]? with
    | some j => rw [h.create_eq_push (hm.marked hi) hi] at ht; exact .inl ht
    | none =>
      rw [create_of_new hi] at ht
      change (s.tables.push _)[i]? = _ at ht
      rw [Array.getElem?_push] at ht
      split at ht
      · cases ht; exact .inr rfl
      · exact .inl ht
  have hempty : ∀ name, (SymbolTable.empty scope).resolve name = none :=
    (SymbolTable.lists_empty scope).resolve
  refine ⟨fun name i hi => ?_, fun i hi => ?_, fun name i hi hn => ?_, fun i t name id ht hr => ?_,
    fun i j t u name other id ht hu hr hr' => ?_, ?_⟩
  · rcases (h.index_create hm name i).1 hi with hi | ⟨hnew, rfl, rfl⟩
    · obtain ⟨t, ht, hs⟩ := h.indexed name i hi
      exact ⟨t, h.tables_create hm ht, hs⟩
    · rw [create_of_new hnew]
      exact ⟨.empty name, by simp [push], rfl⟩
  · rw [hst] at hi
    rcases List.mem_cons.1 hi with rfl | hi
    · exact ⟨_, htop⟩
    · obtain ⟨t, ht⟩ := h.opened i hi
      exact ⟨t, h.tables_create hm ht⟩
  · rcases (h.index_create hm name i).1 hi with hi | ⟨hnew, rfl, rfl⟩
    · exact h.tables_create hm (h.marked name i hi hn)
    · rw [create_of_new hnew]
      simp [push]
  · rw [symbol?_create]
    rcases htab i t ht with ht | rfl
    · exact h.bound i t name id ht hr
    · simp [hempty] at hr
  · rcases htab i t ht with ht | rfl
    · rcases htab j u hu with hu | rfl
      · exact h.disjoint i j t u name other id ht hu hr hr'
      · simp [hempty] at hr'
    · simp [hempty] at hr
  · obtain ⟨l, hl, hp⟩ := h.pool
    refine ⟨l, by rwa [create_constants], fun e he => ?_⟩
    rw [symbol?_create]
    exact hp e he

theorem Valid.resolve_create (h : s.Valid) (hm : s.Makes scope) (name : String) :
    (s.create scope).resolve name = s.resolve name := by
  obtain ⟨top, hst, htop⟩ := h.head_create hm
  have hempty : (SymbolTable.empty scope).resolve name = none := by
    rw [(SymbolTable.lists_empty scope).resolve]; rfl
  simp only [Scopes.resolve, hst, List.findSome?_cons, htop, Option.bind_some, hempty]
  refine findSome?_tables fun i hi => ?_
  obtain ⟨t, ht⟩ := h.opened i hi
  rw [ht, h.tables_create hm ht]

/-- What is read in the scope of a loop or a conditional adds to the scopes around it what can be
added to them. -/
theorem Grows.scoped {s' : Scopes} (h : s.Valid) (hm : IsMarked scope)
    (hg : (s.create scope).Grows s') : s.Grows s'.leave := by
  obtain ⟨top, hst, -⟩ := h.head_create (.inl hm)
  refine ⟨fun id sym hs => ?_, fun id sym hs => ?_, fun key id hk => ?_, fun i t ht => ?_,
    fun name i hi => ?_, fun name i hi => ?_, ?_, ?_⟩
  · exact hg.symbols id sym (by rwa [symbol?_create])
  · rw [← symbol?_create s scope]
    exact hg.fresh id sym hs
  · refine hg.constants key id ?_
    rwa [resolveConstant, create_constants]
  · exact hg.tables i t (h.tables_create (.inl hm) ht)
  · exact hg.index name i ((h.index_create (.inl hm) name i).2 (.inl hi))
  · rcases hg.marked name i hi with hi | hn
    · rcases (h.index_create (.inl hm) name i).1 hi with hi | ⟨-, rfl, -⟩
      · exact .inl hi
      · exact .inr hm
    · exact .inr hn
  · show s'.stack.tail = s.stack
    rw [hg.stack, hst]
    rfl
  · exact hg.nextGlobal.trans (create_nextGlobal s scope)

theorem extends_leave (s : Scopes) : s.Extends s.leave :=
  ⟨fun _ _ h => h, fun _ _ h => h, fun _ h => h⟩

theorem Valid.leave (h : s.Valid) : s.leave.Valid :=
  ⟨h.indexed, fun i hi => h.opened i (List.mem_of_mem_tail hi), h.marked, h.bound,
    h.disjoint, h.pool⟩

end Create

end Scopes

end StackCompiler
