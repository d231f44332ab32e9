import Mathlib.Data.List.Induction
import StackCompiler.Proofs.Registry

/-!
# The order of insertion

A table that is filled by binding names one after another lists each name once, where it was bound
first, with the symbol that it was bound to last. The table looks for the place of a name by the
symbol that the name gives up, so this needs that no symbol is bound to two names.
-/

namespace StackCompiler.SymbolTable

variable {t : SymbolTable} {l : List (String × Symbol.Id)} {name : String} {id : Symbol.Id}

def insertAll (t : SymbolTable) (bindings : List (String × Symbol.Id)) : SymbolTable :=
  bindings.foldl (fun t binding => t.insert binding.1 binding.2) t

theorem insertAll_concat (t : SymbolTable) (bindings : List (String × Symbol.Id)) (name : String)
    (id : Symbol.Id) :
    t.insertAll (bindings ++ [(name, id)]) = (t.insertAll bindings).insert name id := by
  simp [insertAll]

/-- The names of a list of bindings, each where it comes first. -/
def firstNames (bindings : List (String × Symbol.Id)) : List String :=
  (bindings.map Prod.fst).eraseDups

theorem firstNames_concat (bindings : List (String × Symbol.Id)) (name : String)
    (id : Symbol.Id) : firstNames (bindings ++ [(name, id)]) =
      if name ∈ bindings.map Prod.fst then firstNames bindings
      else firstNames bindings ++ [name] := by
  rw [firstNames, List.map_append, List.eraseDups_append]
  by_cases hmem : name ∈ bindings.map Prod.fst
  · simp [firstNames, List.removeAll, hmem]
  · simp [firstNames, List.removeAll, hmem, List.eraseDups_cons]

/-- What a list of bindings leaves a name bound to. -/
def lastBinding (bindings : List (String × Symbol.Id)) (name : String) : Option Symbol.Id :=
  bindings.reverse.lookup name

theorem lastBinding_concat (bindings : List (String × Symbol.Id)) (name other : String)
    (id : Symbol.Id) : lastBinding (bindings ++ [(name, id)]) other =
      if name = other then some id else lastBinding bindings other := by
  rw [lastBinding, List.reverse_append, List.reverse_singleton, List.singleton_append,
    List.lookup_cons]
  by_cases he : name = other
  · simp [he]
  · have hb : (other == name) = false := by simpa using fun h => he h.symm
    simp [he, hb, lastBinding]

theorem mem_of_lastBinding {bindings : List (String × Symbol.Id)}
    (h : lastBinding bindings name = some id) : (name, id) ∈ bindings := by
  rw [lastBinding, List.lookup_eq_some_iff] at h
  obtain ⟨l₁, l₂, hl, -⟩ := h
  rw [← List.mem_reverse, hl]
  simp

theorem isSome_lastBinding (bindings : List (String × Symbol.Id)) (name : String) :
    (lastBinding bindings name).isSome = true ↔ name ∈ bindings.map Prod.fst := by
  rw [lastBinding, List.lookup_isSome_iff, List.mem_map]
  refine exists_congr fun binding => ?_
  rw [List.mem_reverse, beq_iff_eq, eq_comm]

theorem resolve_insertAll (scope : String) (bindings : List (String × Symbol.Id))
    (name : String) : ((empty scope).insertAll bindings).resolve name = lastBinding bindings name := by
  induction bindings using List.reverseRecOn with
  | nil => exact (lists_empty scope).resolve name
  | append_singleton bindings binding ih =>
    rw [insertAll_concat, resolve_insert, lastBinding_concat, ih]

theorem Lists.symbols_eq (h : t.Lists l) : t.symbols.map some = (l.map Prod.fst).map t.resolve := by
  rw [h.symbols, List.map_map, List.map_map]
  refine List.map_congr_left fun entry hentry => ?_
  rw [Function.comp_apply, Function.comp_apply, h.resolve_of_mem hentry]

/-- Binding a name whose symbol is no other name's keeps the names where they are, and a name that
is new comes last. -/
theorem Lists.insert_names (h : t.Lists l) (name : String) (id : Symbol.Id)
    (hown : ∀ other old, t.resolve name = some old → t.resolve other = some old → other = name) :
    ∃ l', (t.insert name id).Lists l' ∧
      l'.map Prod.fst = if (t.resolve name).isSome then l.map Prod.fst
        else l.map Prod.fst ++ [name] := by
  cases hn : t.resolve name with
  | none => exact ⟨_, h.insert hn, by simp⟩
  | some old =>
    obtain ⟨l₁, l₂, rfl⟩ := List.append_of_mem (h.mem_of_resolve hn)
    have hnodup := h.nodup
    rw [List.map_append, List.map_cons] at hnodup
    have hold : old ∉ l₁.map Prod.snd := by
      intro hmem
      obtain ⟨entry, hentry, rfl⟩ := List.mem_map.1 hmem
      have hname : entry.1 = name := hown _ _ hn (h.resolve_of_mem (by simp [hentry]))
      exact not_mem_left_of_nodup hnodup (List.mem_map.2 ⟨entry, hentry, hname⟩)
    exact ⟨_, h.replace hold id, by simp⟩

/-- No symbol is bound to two names. -/
def OwnIds (bindings : List (String × Symbol.Id)) : Prop :=
  ∀ a ∈ bindings, ∀ b ∈ bindings, a.2 = b.2 → a.1 = b.1

theorem exists_lists_insertAll (scope : String) {bindings : List (String × Symbol.Id)}
    (hown : OwnIds bindings) : ∃ l, ((empty scope).insertAll bindings).Lists l ∧
      l.map Prod.fst = firstNames bindings := by
  induction bindings using List.reverseRecOn with
  | nil => exact ⟨[], lists_empty scope, rfl⟩
  | append_singleton bindings binding ih =>
    have hbefore : OwnIds bindings := by
      intro a ha b hb
      exact hown a (List.mem_append_left _ ha) b (List.mem_append_left _ hb)
    obtain ⟨l, hl, hnames⟩ := ih hbefore
    obtain ⟨l', hl', hnames'⟩ := hl.insert_names binding.1 binding.2 (by
      intro other old hold hother
      rw [resolve_insertAll] at hold hother
      exact hbefore (other, old) (mem_of_lastBinding hother) (binding.1, old)
        (mem_of_lastBinding hold) rfl)
    refine ⟨l', by rwa [insertAll_concat], ?_⟩
    rw [hnames', hnames, firstNames_concat, resolve_insertAll]
    simp only [isSome_lastBinding]

/-- A table lists the names that were bound in the order of their first bindings, each with the
symbol of its last one. -/
theorem insertAll_keeps_first_order (scope : String) (bindings : List (String × Symbol.Id))
    (hown : OwnIds bindings) :
    let t := (empty scope).insertAll bindings
    t.symbols.map some = (firstNames bindings).map (lastBinding bindings) ∧
      (∀ name, t.resolve name = lastBinding bindings name) ∧
      (∀ name, t.contains name = (t.resolve name).isSome) ∧
      (∀ name, t.contains name = true ↔ name ∈ bindings.map Prod.fst) ∧
      t.size = (firstNames bindings).length := by
  obtain ⟨l, hl, hnames⟩ := exists_lists_insertAll scope hown
  have hsymbols := hl.symbols_eq
  rw [hnames, funext (resolve_insertAll scope bindings)] at hsymbols
  refine ⟨hsymbols, resolve_insertAll scope bindings, contains_eq _, fun name => ?_, ?_⟩
  · rw [contains_eq, resolve_insertAll, isSome_lastBinding]
  · have hlength := congrArg List.length hsymbols
    simpa [SymbolTable.symbols, SymbolTable.size] using hlength

/-- Bindings of three names, two of which are bound again, one of them twice. -/
def rebindings : List (String × Symbol.Id) :=
  [("a", 1), ("b", 2), ("a", 3), ("c", 4), ("b", 5), ("a", 6)]

theorem insertAll_rebindings : OwnIds rebindings ∧
    ((empty "main").insertAll rebindings).symbols = [6, 5, 4] ∧
    ((empty "main").insertAll rebindings).size = 3 := by
  have hown : OwnIds rebindings := by simp [OwnIds, rebindings]
  have hnames : firstNames rebindings = ["a", "b", "c"] := by
    simp [firstNames, rebindings, List.eraseDups_cons]
  obtain ⟨hsymbols, -, -, -, hsize⟩ := insertAll_keeps_first_order "main" rebindings hown
  rw [hnames] at hsymbols hsize
  refine ⟨hown, ?_, hsize⟩
  have hlast : ["a", "b", "c"].map (lastBinding rebindings) = [6, 5, 4].map some := by decide
  exact List.map_injective_iff.2 (fun _ _ => Option.some.inj) (hsymbols.trans hlast)

end StackCompiler.SymbolTable
