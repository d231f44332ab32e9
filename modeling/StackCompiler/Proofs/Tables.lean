import StackCompiler.Symbol.Scopes

/-!
# Tables as lists of names

A table whose names are all different is the list of its entries in the order of insertion.
-/

namespace StackCompiler

abbrev Names := String → Option Symbol.Id

namespace SymbolTable

variable {t : SymbolTable} {l : List (String × Symbol.Id)} {name : String} {id : Symbol.Id}

/-- The table binds the names of `l`, each to its symbol, and lists the symbols in that order. -/
structure Lists (t : SymbolTable) (l : List (String × Symbol.Id)) : Prop where
  resolve : ∀ name, t.resolve name = l.lookup name
  symbols : t.symbols = l.map Prod.snd
  nodup : (l.map Prod.fst).Nodup

theorem lists_empty (scope : String) : (empty scope).Lists [] := by
  refine ⟨fun name => ?_, rfl, by simp⟩
  simp [SymbolTable.resolve, empty]

theorem contains_eq (t : SymbolTable) (name : String) :
    t.contains name = (t.resolve name).isSome :=
  Std.TreeMap.contains_eq_isSome_getElem?

theorem resolve_insert (t : SymbolTable) (name other : String) (id : Symbol.Id) :
    (t.insert name id).resolve other = if name = other then some id else t.resolve other := by
  unfold insert
  split <;> simp [SymbolTable.resolve, Std.TreeMap.getElem?_insert]

theorem Lists.insert (h : t.Lists l) (hn : t.resolve name = none) :
    (t.insert name id).Lists (l ++ [(name, id)]) := by
  refine ⟨fun other => ?_, ?_, ?_⟩
  · rw [resolve_insert, List.lookup_append, ← h.resolve other]
    by_cases he : name = other
    · subst he; simp [hn]
    · have hb : (other == name) = false := by simpa using fun h => he h.symm
      simp [he, List.lookup_cons, hb]
  · have hs := h.symbols
    simp only [SymbolTable.symbols] at hs ⊢
    simp [SymbolTable.insert, hn, hs]
  · have hf : name ∉ l.map Prod.fst := by
      rw [h.resolve, List.lookup_eq_none_iff] at hn
      rintro hm
      obtain ⟨e, he, rfl⟩ := List.mem_map.1 hm
      simpa using hn e he
    simpa [List.nodup_append, h.nodup] using fun a b hab => by rintro rfl; exact hf (List.mem_map.2 ⟨_, hab, rfl⟩)

theorem insert_scope (t : SymbolTable) (name : String) (id : Symbol.Id) :
    (t.insert name id).scope = t.scope := by
  unfold insert
  split <;> rfl

theorem Lists.mem_of_resolve (h : t.Lists l) (hr : t.resolve name = some id) : (name, id) ∈ l := by
  rw [h.resolve, List.lookup_eq_some_iff] at hr
  obtain ⟨l₁, l₂, rfl, -⟩ := hr
  simp

theorem Lists.resolve_of_mem (h : t.Lists l) {e : String × Symbol.Id} (he : e ∈ l) :
    t.resolve e.1 = some e.2 := by
  obtain ⟨l₁, l₂, rfl⟩ := List.append_of_mem he
  have hnames := h.nodup
  rw [List.map_append, List.nodup_append] at hnames
  rw [h.resolve, List.lookup_eq_some_iff]
  refine ⟨l₁, l₂, rfl, fun p hp => ?_⟩
  have hne := hnames.2.2 p.1 (List.mem_map.2 ⟨p, hp, rfl⟩) e.1 (by simp)
  simpa using Ne.symm hne

end SymbolTable

end StackCompiler
