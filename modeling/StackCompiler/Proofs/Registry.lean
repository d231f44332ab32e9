import Mathlib.Data.List.Nodup
import StackCompiler.Proofs.Discipline

/-!
# The registry of scopes

Scopes can be made again under the same name, even while they are open, and opened several times
over, and a scope can be given the same name twice. Through all of it the names of scopes and their
tables stay in step, no symbol has two owners, and what a name stands for is what the symbol itself
says.
-/

namespace StackCompiler

theorem not_mem_left_of_nodup {α : Type} {as bs : List α} {x : α} (h : (as ++ x :: bs).Nodup) :
    x ∉ as := by
  rw [List.nodup_middle, List.nodup_cons, List.mem_append, not_or] at h
  exact h.1.1

namespace SymbolTable

section Insert

variable {t : SymbolTable} {l l₁ l₂ : List (String × Symbol.Id)} {name : String}
  {id old : Symbol.Id}

theorem replaceFirst_of_split {ids : Array Symbol.Id} {as bs : List Symbol.Id}
    (hids : ids.toList = as ++ old :: bs) (has : old ∉ as) (new : Symbol.Id) :
    (replaceFirst old new ids).toList = as ++ new :: bs := by
  obtain ⟨ids⟩ := ids
  subst hids
  have hidx : (as ++ old :: bs).toArray.idxOf? old = some as.length := by
    rw [List.idxOf?_toArray, List.idxOf?_eq_some_iff]
    refine ⟨by simp, by simp, fun j hj he => has ?_⟩
    rw [List.getElem_append_left hj] at he
    exact he ▸ List.getElem_mem hj
  rw [replaceFirst, hidx]
  simp

/-- A name that is bound again keeps its place in the list, and gives up its symbol. -/
theorem Lists.replace (h : t.Lists (l₁ ++ (name, old) :: l₂)) (hold : old ∉ l₁.map Prod.snd)
    (id : Symbol.Id) : (t.insert name id).Lists (l₁ ++ (name, id) :: l₂) := by
  have hnodup := h.nodup
  rw [List.map_append, List.map_cons] at hnodup
  have hlook (id : Symbol.Id) (other : String) : (l₁ ++ (name, id) :: l₂).lookup other =
      if name = other then some id else (l₁ ++ l₂).lookup other := by
    rw [List.lookup_append, List.lookup_append, List.lookup_cons]
    by_cases he : name = other
    · subst he
      have hnone : l₁.lookup name = none := by
        rw [List.lookup_eq_none_iff]
        intro e he
        rw [bne_iff_ne]
        intro heq
        exact not_mem_left_of_nodup hnodup (List.mem_map.2 ⟨e, he, heq.symm⟩)
      simp [hnone]
    · have hb : (other == name) = false := by simpa using fun h => he h.symm
      simp [he, hb]
  have hbound : t.resolve name = some old := by rw [h.resolve, hlook, if_pos rfl]
  refine ⟨fun other => ?_, ?_, by rwa [List.map_append, List.map_cons]⟩
  · rw [resolve_insert, h.resolve, hlook, hlook]
    split <;> rfl
  · have hsymbols := h.symbols
    rw [List.map_append, List.map_cons] at hsymbols ⊢
    unfold SymbolTable.symbols SymbolTable.insert at *
    rw [hbound]
    exact replaceFirst_of_split hsymbols hold id

/-- Binding a name puts its symbol somewhere among those of the table, and drops one at most. -/
theorem Lists.exists_insert (h : t.Lists l) (hnodup : t.symbols.Nodup) (name : String)
    (id : Symbol.Id) : ∃ l' xs ys, (t.insert name id).Lists l' ∧
      (t.insert name id).symbols = xs ++ id :: ys ∧ (xs ++ ys).Sublist t.symbols := by
  cases hn : t.resolve name with
  | none =>
    have hins : (t.insert name id).Lists (l ++ [(name, id)]) := h.insert hn
    refine ⟨_, t.symbols, [], hins, ?_, by simp⟩
    rw [hins.symbols, h.symbols, List.map_append]
    rfl
  | some old =>
    rw [h.resolve, List.lookup_eq_some_iff] at hn
    obtain ⟨l₁, l₂, rfl, -⟩ := hn
    rw [h.symbols, List.map_append, List.map_cons] at hnodup ⊢
    have hins := h.replace (not_mem_left_of_nodup hnodup) id
    refine ⟨_, l₁.map Prod.snd, l₂.map Prod.snd, hins, ?_, ?_⟩
    · rw [hins.symbols, List.map_append, List.map_cons]
    · exact (List.Sublist.refl _).append (List.sublist_cons_self _ _)

end Insert

/-- Tables that list what they bind, all of it among the first `n` symbols, and no symbol twice. -/
structure Owned (n : Nat) (ts : List SymbolTable) : Prop where
  listed : ∀ t ∈ ts, ∃ l, t.Lists l
  below : ∀ id ∈ ts.flatMap symbols, id < n
  nodup : (ts.flatMap symbols).Nodup

namespace Owned

variable {n m : Nat} {ts pre post : List SymbolTable} {t : SymbolTable}

theorem mono (h : Owned n ts) (hm : n ≤ m) : Owned m ts :=
  ⟨h.listed, fun id hid => Nat.lt_of_lt_of_le (h.below id hid) hm, h.nodup⟩

theorem nodup_symbols (h : Owned n (pre ++ t :: post)) : t.symbols.Nodup := by
  have hnodup := h.nodup
  rw [List.flatMap_append, List.flatMap_cons] at hnodup
  exact hnodup.of_append_right.of_append_left

theorem drop (h : Owned n (pre ++ t :: post)) : Owned n (pre ++ post) := by
  have hall : ((pre ++ post).flatMap symbols).Sublist ((pre ++ t :: post).flatMap symbols) := by
    rw [List.flatMap_append, List.flatMap_append, List.flatMap_cons]
    exact (List.Sublist.refl _).append (List.sublist_append_right _ _)
  refine ⟨fun u hu => ?_, fun id hid => h.below id (hall.subset hid), h.nodup.sublist hall⟩
  rcases List.mem_append.1 hu with hu | hu
  · exact h.listed u (List.mem_append_left _ hu)
  · exact h.listed u (List.mem_append_right _ (List.mem_cons_of_mem t hu))

theorem grow (h : Owned n (pre ++ post)) (scope : String) :
    Owned n (pre ++ empty scope :: post) := by
  have hsymbols : (pre ++ empty scope :: post).flatMap symbols = (pre ++ post).flatMap symbols := by
    rw [List.flatMap_append, List.flatMap_append, List.flatMap_cons]
    rfl
  refine ⟨?_, by rw [hsymbols]; exact h.below, by rw [hsymbols]; exact h.nodup⟩
  have hlisted := h.listed
  rw [List.forall_mem_append] at hlisted
  rw [List.forall_mem_append, List.forall_mem_cons]
  exact ⟨hlisted.1, ⟨[], lists_empty scope⟩, hlisted.2⟩

theorem clear (h : Owned n (pre ++ t :: post)) (scope : String) :
    Owned n (pre ++ empty scope :: post) :=
  h.drop.grow scope

theorem insert (h : Owned n (pre ++ t :: post)) (name : String) :
    Owned (n + 1) (pre ++ t.insert name n :: post) := by
  obtain ⟨l, hl⟩ := h.listed t (by simp)
  obtain ⟨l', xs, ys, hl', hins, hsub⟩ := hl.exists_insert h.nodup_symbols name n
  -- all that is listed, but for the new symbol, was listed before
  have hall : (pre.flatMap symbols ++ (xs ++ (ys ++ post.flatMap symbols))).Sublist
      ((pre ++ t :: post).flatMap symbols) := by
    rw [List.flatMap_append, List.flatMap_cons, ← List.append_assoc xs]
    exact (List.Sublist.refl _).append (hsub.append (.refl _))
  have hfresh : n ∉ pre.flatMap symbols ++ (xs ++ (ys ++ post.flatMap symbols)) := by
    intro hm
    exact Nat.lt_irrefl n (h.below n (hall.subset hm))
  have hsymbols : (pre ++ t.insert name n :: post).flatMap symbols =
      (pre.flatMap symbols ++ xs) ++ n :: (ys ++ post.flatMap symbols) := by
    rw [List.flatMap_append, List.flatMap_cons, hins]
    simp
  refine ⟨?_, fun id hid => ?_, ?_⟩
  · have hlisted := h.listed
    rw [List.forall_mem_append, List.forall_mem_cons] at hlisted ⊢
    exact ⟨hlisted.1, ⟨l', hl'⟩, hlisted.2.2⟩
  · rw [hsymbols, List.perm_middle.mem_iff, List.mem_cons, List.append_assoc] at hid
    rcases hid with rfl | hid
    · exact Nat.lt_succ_self id
    · exact Nat.lt_succ_of_lt (h.below id (hall.subset hid))
  · rw [hsymbols, List.nodup_middle, List.nodup_cons, List.append_assoc]
    exact ⟨hfresh, h.nodup.sublist hall⟩

end Owned

end SymbolTable

namespace Scopes

/-! ## What always holds -/

/-- All tables, that of the literals last. -/
def holders (s : Scopes) : List SymbolTable := s.tables.toList ++ [s.constants]

/-- What holds of scopes whatever was done with them. -/
structure Registered (s : Scopes) : Prop where
  /-- A name leads to the table that bears it, and every table is led to by the name it bears. -/
  index : ∀ (name : String) (i : Nat),
    s.index[name]? = some i ↔ ∃ t, s.tables[i]? = some t ∧ t.scope = name
  opened : ∀ i ∈ s.stack, ∃ t, s.tables[i]? = some t
  owned : SymbolTable.Owned s.symbols.size s.holders
  /-- A symbol says under which name it is bound, and where. -/
  bound : ∀ (i : Nat) (t : SymbolTable) name id, s.tables[i]? = some t → t.resolve name = some id →
    ∃ sym, s.symbol? id = some sym ∧ sym.name = name ∧ sym.scope = t.scope

variable {s s' : Scopes}

section Tables

variable {tables : Array SymbolTable} {i : Nat} {t : SymbolTable}

theorem modify_of_getElem? (ht : tables[i]? = some t) (f : SymbolTable → SymbolTable) :
    tables.modify i f = tables.setIfInBounds i (f t) := by
  obtain ⟨hi, rfl⟩ := Array.getElem?_eq_some_iff.1 ht
  refine Array.ext_getElem? fun j => ?_
  rw [Array.getElem?_modify, Array.getElem?_setIfInBounds, if_pos hi]
  split
  · next hij =>
    subst hij
    rw [ht, Option.map_some]
  · rfl

theorem exists_split_of_getElem? (ht : tables[i]? = some t) : ∃ pre post,
    tables.toList = pre ++ t :: post ∧
      ∀ u, (tables.setIfInBounds i u).toList = pre ++ u :: post := by
  obtain ⟨hi, rfl⟩ := Array.getElem?_eq_some_iff.1 ht
  refine ⟨tables.toList.take i, tables.toList.drop (i + 1), ?_, fun u => ?_⟩
  · show tables.toList = _ ++ tables.toList[i] :: _
    rw [List.getElem_cons_drop, List.take_append_drop]
  · rw [Array.toList_setIfInBounds, List.set_eq_take_append_cons_drop, if_pos (by simpa using hi)]

end Tables

theorem declare_of_closed (hst : s.stack = []) (sym : Symbol) (region : Option Region) :
    s.declare sym region = (s.symbols.size,
      { (s.place sym region).2 with symbols := s.symbols.push (s.place sym region).1 }) := by
  cases region with
  | none => simp only [declare, place, add, bind, hst]
  | some r =>
    obtain ⟨hsymbols, -, -, hstack, -⟩ := allocate_symbols s r sym.isParameter
    simp only [declare, place, add, bind, hsymbols, hstack, hst]

theorem place_frame (s : Scopes) (sym : Symbol) (region : Option Region) :
    (s.place sym region).2.tables = s.tables ∧ (s.place sym region).2.index = s.index ∧
      (s.place sym region).2.constants = s.constants := by
  rw [place_snd]
  cases region with
  | none => exact ⟨rfl, rfl, rfl⟩
  | some r =>
    obtain ⟨-, htables, hindex, -, hconstants⟩ := allocate_symbols s r sym.isParameter
    exact ⟨htables, hindex, hconstants⟩

theorem place_owner (s : Scopes) (sym : Symbol) (region : Option Region) :
    (s.place sym region).1.name = sym.name ∧
      (s.place sym region).1.scope = s.current?.getD sym.scope := by
  cases region <;> exact ⟨rfl, rfl⟩

namespace Registered

theorem sound (h : s.Registered) : s.Sound := ⟨fun name i => (h.index name i).1, h.opened⟩

theorem named (h : s.Registered) {i : Nat} {t : SymbolTable} (ht : s.tables[i]? = some t) :
    s.index[t.scope]? = some i := (h.index t.scope i).2 ⟨t, ht, rfl⟩

theorem of_sound (hs : s.Sound)
    (hnamed : ∀ (i : Nat) (t : SymbolTable), s.tables[i]? = some t → s.index[t.scope]? = some i)
    (howned : SymbolTable.Owned s.symbols.size s.holders)
    (hbound : ∀ (i : Nat) (t : SymbolTable) name id, s.tables[i]? = some t →
      t.resolve name = some id →
      ∃ sym, s.symbol? id = some sym ∧ sym.name = name ∧ sym.scope = t.scope) : s.Registered := by
  refine ⟨fun name i => ⟨hs.indexed name i, ?_⟩, hs.opened, howned, hbound⟩
  rintro ⟨t, ht, rfl⟩
  exact hnamed i t ht

theorem empty : Scopes.empty.Registered := by
  refine of_sound sound_empty (by simp [Scopes.empty]) ⟨?_, ?_, ?_⟩ (by simp [Scopes.empty])
  · intro t ht
    rw [List.mem_singleton.1 ht]
    exact ⟨[], SymbolTable.lists_empty poolName⟩
  · simp [holders, Scopes.empty, SymbolTable.symbols, SymbolTable.empty]
  · simp [holders, Scopes.empty, SymbolTable.symbols, SymbolTable.empty]

theorem keep (h : s.Registered) (hs : s'.Sound) (htables : s'.tables = s.tables)
    (hindex : s'.index = s.index) (howned : SymbolTable.Owned s'.symbols.size s'.holders)
    (hsymbols : ∀ id sym, s.symbol? id = some sym →
      ∃ sym', s'.symbol? id = some sym' ∧ sym'.name = sym.name ∧ sym'.scope = sym.scope) :
    s'.Registered := by
  refine of_sound hs (fun i t ht => ?_) howned fun i t name id ht hr => ?_
  · rw [htables] at ht
    rw [hindex]
    exact h.named ht
  · rw [htables] at ht
    obtain ⟨sym, hsym, hname, hscope⟩ := h.bound i t name id ht hr
    obtain ⟨sym', hsym', hname', hscope'⟩ := hsymbols id sym hsym
    exact ⟨sym', hsym', hname'.trans hname, hscope'.trans hscope⟩

/-- The table of one scope is exchanged for one that binds its names to symbols that say so. -/
theorem exchange (h : s.Registered) {i : Nat} {t u : SymbolTable} (ht : s.tables[i]? = some t)
    (hs : s'.Sound) (htables : s'.tables = s.tables.setIfInBounds i u)
    (hindex : s'.index = s.index) (hscope : u.scope = t.scope)
    (howned : SymbolTable.Owned s'.symbols.size s'.holders)
    (hsymbols : ∀ id sym, s.symbol? id = some sym → s'.symbol? id = some sym)
    (hbound : ∀ name id, u.resolve name = some id →
      ∃ sym, s'.symbol? id = some sym ∧ sym.name = name ∧ sym.scope = t.scope) :
    s'.Registered := by
  have hcases (j : Nat) (v : SymbolTable) (hv : s'.tables[j]? = some v) :
      j = i ∧ v = u ∨ s.tables[j]? = some v := by
    have hi := (Array.getElem?_eq_some_iff.1 ht).1
    rw [htables, Array.getElem?_setIfInBounds, if_pos hi] at hv
    split at hv
    · next hij => exact .inl ⟨hij.symm, (Option.some.inj hv).symm⟩
    · exact .inr hv
  refine of_sound hs (fun j v hv => ?_) howned fun j v name id hv hr => ?_
  · rw [hindex]
    rcases hcases j v hv with ⟨rfl, rfl⟩ | hv
    · rw [hscope]
      exact h.named ht
    · exact h.named hv
  · rcases hcases j v hv with ⟨-, rfl⟩ | hv
    · rw [hscope]
      exact hbound name id hr
    · obtain ⟨sym, hsym, hname⟩ := h.bound j v name id hv hr
      exact ⟨sym, hsymbols id sym hsym, hname⟩

theorem create (h : s.Registered) (name : String) : (s.create name).Registered := by
  have hs := h.sound.create name
  have hempty (other : String) : (SymbolTable.empty name).resolve other = none :=
    (SymbolTable.lists_empty name).resolve other
  cases hi : s.index[name]? with
  | some i =>
    -- the scope was made before, and may be open: its table is emptied
    obtain ⟨t, ht, hname⟩ := (h.index name i).1 hi
    have hcreate : s.create name =
        { s with tables := s.tables.setIfInBounds i (.empty name) }.push i := by
      simp only [Scopes.create, hi]
    rw [hcreate] at hs ⊢
    refine h.exchange ht hs rfl rfl hname.symm ?_ (fun id sym hsym => hsym) fun other id hr => ?_
    · obtain ⟨pre, post, hpre, hset⟩ := exists_split_of_getElem? ht
      have howned := h.owned
      rw [holders, hpre, List.append_assoc, List.cons_append] at howned
      show SymbolTable.Owned s.symbols.size ((s.tables.setIfInBounds i _).toList ++ [s.constants])
      rw [hset, List.append_assoc, List.cons_append]
      exact howned.clear name
    · rw [hempty] at hr
      cases hr
  | none =>
    rw [create_of_new hi] at hs ⊢
    have hcases (j : Nat) (u : SymbolTable) (hu : (s.tables.push (.empty name))[j]? = some u) :
        j = s.tables.size ∧ u = .empty name ∨ s.tables[j]? = some u := by
      rw [Array.getElem?_push] at hu
      split at hu
      · next hj => exact .inl ⟨hj, (Option.some.inj hu).symm⟩
      · exact .inr hu
    refine of_sound hs (fun j u hu => ?_) ?_ fun j u other id hu hr => ?_
    · show (s.index.insert name s.tables.size)[u.scope]? = some j
      rw [Std.TreeMap.getElem?_insert]
      rcases hcases j u hu with ⟨rfl, rfl⟩ | hold
      · simp [SymbolTable.empty]
      · have hne : name ≠ u.scope := by
          intro he
          rw [he, h.named hold] at hi
          cases hi
        simp [hne, h.named hold]
    · show SymbolTable.Owned s.symbols.size ((s.tables.push _).toList ++ [s.constants])
      rw [Array.toList_push, List.append_assoc]
      exact SymbolTable.Owned.grow h.owned name
    · rcases hcases j u hu with ⟨-, rfl⟩ | hold
      · rw [hempty] at hr
        cases hr
      · exact h.bound j u other id hold hr

theorem add (h : s.Registered) (sym : Symbol) : (s.add sym).2.Registered := by
  have hs : (s.add sym).2.Sound :=
    h.sound.step rfl (fun j t ht => ⟨t, ht, rfl⟩) fun j hj => .inl hj
  refine h.keep hs rfl rfl (h.owned.mono ?_) fun id old hold => ?_
  · simp [Scopes.add]
  · exact ⟨old, symbol?_add_of_some sym hold, rfl, rfl⟩

theorem addConstant (h : s.Registered) (key : String) (sym : Symbol) :
    (s.addConstant key sym).2.Registered := by
  have h' := h.add { sym with scope := poolName }
  refine h'.keep (h.sound.apply (.addConstant key sym)) rfl rfl ?_ fun id old hold => ?_
  · have howned := SymbolTable.Owned.insert h.owned key
    have hsize : (s.addConstant key sym).2.symbols.size = s.symbols.size + 1 := by
      simp [Scopes.addConstant, Scopes.add]
    rw [hsize]
    exact howned
  · exact ⟨old, hold, rfl, rfl⟩

theorem declare (h : s.Registered) (sym : Symbol) (region : Option Region) :
    (s.declare sym region).2.Registered := by
  have hs : (s.declare sym region).2.Sound := h.sound.apply (.declare sym region)
  obtain ⟨htables, hindex, hconstants⟩ := s.place_frame sym region
  obtain ⟨hname, hscope⟩ := s.place_owner sym region
  cases hst : s.stack with
  | nil =>
    have h' := h.add (s.place sym region).1
    have hd := declare_of_closed hst sym region
    rw [hd] at hs ⊢
    refine h'.keep hs htables hindex ?_ fun id old hold => ⟨old, hold, rfl, rfl⟩
    have howned := h'.owned
    unfold holders at howned ⊢
    rwa [htables, hconstants]
  | cons i rest =>
    obtain ⟨t, ht⟩ := h.opened i (by simp [hst])
    have hcurrent : s.current? = some t.scope := by simp [current?, currentTable?, hst, ht]
    have hsymbols (id : Symbol.Id) (old : Symbol) (ho : s.symbol? id = some old) :
        (s.declare sym region).2.symbol? id = some old := by
      rw [symbol?_declare hst, if_neg (Nat.ne_of_lt (symbol?_lt ho)), ho]
    have hset : (s.declare sym region).2.tables =
        s.tables.setIfInBounds i (t.insert sym.name s.symbols.size) := by
      rw [declare_eq hst]
      exact modify_of_getElem? ht fun t => t.insert sym.name s.symbols.size
    -- only the innermost open table changes, by one name for the new symbol
    refine h.exchange ht hs hset (declare_index hst) (t.insert_scope _ _) ?_ hsymbols
      fun name id hr => ?_
    · obtain ⟨pre, post, hpre, hpost⟩ := exists_split_of_getElem? ht
      have howned := h.owned
      have hsize : (s.declare sym region).2.symbols.size = s.symbols.size + 1 := by
        rw [declare_eq hst]
        exact Array.size_push _
      rw [holders, hpre, List.append_assoc, List.cons_append] at howned
      rw [holders, hset, hpost, List.append_assoc, List.cons_append, declare_constants hst, hsize]
      exact howned.insert sym.name
    · rw [SymbolTable.resolve_insert] at hr
      split at hr
      · next hn =>
        refine ⟨(s.place sym region).1, ?_, hname.trans hn, ?_⟩
        · rw [symbol?_declare hst, if_pos (Option.some.inj hr).symm]
        · rw [hscope, hcurrent, Option.getD_some]
      · obtain ⟨old, ho, hn⟩ := h.bound i t name id ht hr
        exact ⟨old, hsymbols id old ho, hn⟩

theorem modify (h : s.Registered) (id : Symbol.Id) {f : Symbol → Symbol}
    (hf : ∀ sym, (f sym).name = sym.name ∧ (f sym).scope = sym.scope) :
    (s.modify id f).Registered := by
  refine h.keep (h.sound.apply (.modify id f)) rfl rfl ?_ fun other sym hsym => ?_
  · have howned := h.owned
    rwa [← Array.size_modify] at howned
  · have hmod : (s.modify id f).symbol? other = if id = other then some (f sym) else some sym := by
      rw [symbol?, Scopes.modify, Array.getElem?_modify]
      rw [symbol?] at hsym
      rw [hsym]
      rfl
    rw [hmod]
    split
    · exact ⟨f sym, rfl, hf sym⟩
    · exact ⟨sym, rfl, rfl, rfl⟩

end Registered

/-- The innermost open scope that has the name binds it to the symbol, and the symbol says so. -/
def Finds (s : Scopes) (name : String) (id : Symbol.Id) : Prop := ∃ inner i outer t sym,
  s.stack = inner ++ i :: outer ∧
    (∀ j ∈ inner, ∀ u, s.tables[j]? = some u → u.contains name = false) ∧
    s.tables[i]? = some t ∧ t.contains name = true ∧ t.resolve name = some id ∧
    s.symbol? id = some sym ∧ sym.name = name ∧ sym.scope = t.scope

/-- No open scope has the name. -/
def Lacks (s : Scopes) (name : String) : Prop :=
  ∀ i ∈ s.stack, ∀ t, s.tables[i]? = some t → t.contains name = false

theorem bind_resolve_eq_none (o : Option SymbolTable) (name : String) :
    (o.bind fun t => t.resolve name) = none ↔ ∀ t, o = some t → t.contains name = false := by
  cases o with
  | none => simp
  | some t => simp [SymbolTable.contains_eq]

theorem resolve_eq_none_iff (s : Scopes) (name : String) :
    s.resolve name = none ↔ s.Lacks name := by
  rw [resolve, List.findSome?_eq_none_iff]
  exact forall₂_congr fun i _ => bind_resolve_eq_none s.tables[i]? name

theorem Registered.resolve_eq_some_iff (h : s.Registered) (name : String) (id : Symbol.Id) :
    s.resolve name = some id ↔ s.Finds name id := by
  rw [resolve, List.findSome?_eq_some_iff]
  constructor
  · rintro ⟨inner, i, outer, hst, hi, hinner⟩
    obtain ⟨t, ht, hr⟩ := Option.bind_eq_some_iff.1 hi
    obtain ⟨sym, hsym, hname, hscope⟩ := h.bound i t name id ht hr
    have hcontains : t.contains name = true := by rw [SymbolTable.contains_eq, hr]; rfl
    exact ⟨inner, i, outer, t, sym, hst, fun j hj => (bind_resolve_eq_none _ name).1 (hinner j hj),
      ht, hcontains, hr, hsym, hname, hscope⟩
  · rintro ⟨inner, i, outer, t, sym, hst, hinner, ht, -, hr, -⟩
    refine ⟨inner, i, outer, hst, ?_, fun j hj => (bind_resolve_eq_none _ name).2 (hinner j hj)⟩
    rw [ht]
    exact hr

/-! ## Histories -/

/-- What can be asked of scopes, but for what only takes an offset. -/
inductive Call where
  | create (name : String)
  | enter (name : String)
  | leave
  | declare (sym : Symbol) (region : Option Region)
  | addConstant (key : String) (sym : Symbol)
  | addTemporary (type : DataType) (position : Position)
  | addAttribute (id : Symbol.Id) (a : Symbol.Attribute)
  | setStorage (id : Symbol.Id) (st : Storage)

def Call.action : Call → Action
  | create name => .create name
  | enter name => .enter name
  | leave => .leave
  | declare sym region => .declare sym region
  | addConstant key sym => .addConstant key sym
  | addTemporary type position => .addTemporary type position
  | addAttribute id a => .modify id fun sym => sym.addAttribute a
  | setStorage id st => .modify id fun sym => sym.setStorage st

/-- The scopes after some calls, the first of them on no scopes at all. -/
def called (calls : List Call) : Scopes := run (calls.map Call.action)

theorem enter_frame (s : Scopes) (name : String) :
    ((s.enter? name).getD s).symbols = s.symbols ∧ ((s.enter? name).getD s).tables = s.tables ∧
      ((s.enter? name).getD s).index = s.index ∧
      ((s.enter? name).getD s).constants = s.constants := by
  unfold enter?
  cases s.index[name]? <;> exact ⟨rfl, rfl, rfl, rfl⟩

theorem Registered.enter (h : s.Registered) (name : String) :
    ((s.enter? name).getD s).Registered := by
  obtain ⟨hsymbols, htables, hindex, hconstants⟩ := s.enter_frame name
  refine h.keep (h.sound.apply (.enter name)) htables hindex ?_ fun id sym hsym => ?_
  · rw [hsymbols, holders, htables, hconstants]
    exact h.owned
  · rw [symbol?, hsymbols]
    exact ⟨sym, hsym, rfl, rfl⟩

theorem Registered.call (h : s.Registered) (c : Call) : (c.action.apply s).Registered := by
  cases c with
  | create name => exact h.create name
  | enter name => exact h.enter name
  | leave =>
    have hs : s.leave.Sound := h.sound.apply .leave
    exact h.keep hs rfl rfl h.owned fun id sym hsym => ⟨sym, hsym, rfl, rfl⟩
  | declare sym region => exact h.declare sym region
  | addConstant key sym => exact h.addConstant key sym
  | addTemporary type position => exact h.add _
  | addAttribute id a => exact h.modify id fun sym => ⟨rfl, rfl⟩
  | setStorage id st => exact h.modify id fun sym => ⟨rfl, rfl⟩

theorem made_create_iff (s : Scopes) (scope name : String) :
    (s.create scope).Made name ↔ s.Made name ∨ scope = name := by
  unfold Made
  cases hi : s.index[scope]? with
  | some i =>
    have hindex : (s.create scope).index = s.index := by simp only [create, hi, push]
    rw [hindex]
    refine ⟨.inl, ?_⟩
    rintro (hmade | rfl)
    · exact hmade
    · exact ⟨i, hi⟩
  | none =>
    have hindex : (s.create scope).index = s.index.insert scope s.tables.size := by
      rw [create_of_new hi]
      rfl
    rw [hindex, Std.TreeMap.getElem?_insert]
    by_cases he : scope = name <;> simp [he]

theorem index_call {c : Call} (hc : ∀ name, c ≠ .create name) :
    (c.action.apply s).index = s.index := by
  cases c with
  | create name => exact absurd rfl (hc name)
  | enter name => exact (s.enter_frame name).2.2.1
  | declare sym region =>
    show (s.declare sym region).2.index = s.index
    cases hst : s.stack with
    | nil =>
      rw [declare_of_closed hst]
      exact (s.place_frame sym region).2.1
    | cons i rest => exact declare_index hst
  | leave | addConstant | addTemporary | addAttribute | setStorage => rfl

theorem made_call (s : Scopes) (c : Call) (name : String) :
    (c.action.apply s).Made name ↔ s.Made name ∨ c = .create name := by
  by_cases hc : ∃ other, c = .create other
  · obtain ⟨other, rfl⟩ := hc
    rw [Call.create.injEq]
    exact s.made_create_iff other name
  · have hne : ∀ other, c ≠ .create other := fun other he => hc ⟨other, he⟩
    rw [Made, index_call hne]
    exact (or_iff_left (hne name)).symm

theorem registered_called (calls : List Call) : (called calls).Registered := by
  unfold called run
  rw [List.foldl_map]
  suffices ∀ s : Scopes, s.Registered →
      (calls.foldl (fun s c => Action.apply s c.action) s).Registered from this _ .empty
  induction calls with
  | nil => exact fun s hs => hs
  | cons c calls ih => exact fun s hs => ih _ (hs.call c)

theorem made_called (calls : List Call) (name : String) :
    (called calls).Made name ↔ Call.create name ∈ calls := by
  unfold called run
  rw [List.foldl_map]
  have hrun : ∀ s : Scopes, (calls.foldl (fun s c => Action.apply s c.action) s).Made name ↔
      s.Made name ∨ Call.create name ∈ calls := by
    induction calls with
    | nil => simp
    | cons c calls ih =>
      intro s
      rw [List.foldl_cons, ih, made_call, List.mem_cons, or_assoc, @eq_comm _ c]
  have hempty : ¬ empty.Made name := by simp [Made, empty]
  rw [hrun, or_iff_right hempty]

/-- Whatever is done with scopes: the index takes the names of the scopes ever made to their tables
and back, what is open is there, no symbol is held twice, and a name stands for the symbol that the
innermost open scope with the name binds it to, or for none if no open scope has it. -/
theorem called_wellFormed (calls : List Call) :
    (called calls).Registered ∧
    (∀ name, (called calls).Made name ↔ Call.create name ∈ calls) ∧
    ∀ name, (∀ id, (called calls).resolve name = some id ↔ (called calls).Finds name id) ∧
      ((called calls).resolve name = none ↔ (called calls).Lacks name) := by
  have h := registered_called calls
  exact ⟨h, made_called calls, fun name => ⟨h.resolve_eq_some_iff name, resolve_eq_none_iff _ name⟩⟩

/-- A scope that is made again while it is open has lost its names wherever it is open. -/
example : (called [.create "f", .declare (.new .intVariable "x" .start [.dataType .int]) none,
    .create "f", .leave]).openScopes = ["f"] ∧
    (called [.create "f", .declare (.new .intVariable "x" .start [.dataType .int]) none,
      .create "f", .leave]).resolve "x" = none := by
  decide +kernel

end Scopes

end StackCompiler
