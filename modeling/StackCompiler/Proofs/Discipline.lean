import Mathlib.Data.List.Basic
import StackCompiler.Proofs.Emission.Frame
import StackCompiler.Proofs.Progress.Programs

/-!
# Scopes before and after reading and generating

Whatever was done with scopes before, reading a program leaves their symbols alone, and closes all
that it opens unless it fails. Generating code moves functions and nothing else.
-/

namespace StackCompiler

variable {s s' : Scopes}

namespace Scopes

inductive Action where
  | create (name : String)
  | enter (name : String)
  | leave
  | declare (sym : Symbol) (region : Option Region)
  | allocate (region : Region) (isParameter : Bool)
  | addConstant (key : String) (sym : Symbol)
  | addTemporary (type : DataType) (position : Position)
  | modify (id : Symbol.Id) (f : Symbol → Symbol)

/-- The scopes after an action. A scope that was never made cannot be opened. -/
def Action.apply (s : Scopes) : Action → Scopes
  | create name => s.create name
  | enter name => (s.enter? name).getD s
  | leave => s.leave
  | declare sym region => (s.declare sym region).2
  | allocate region isParameter => (s.allocate region isParameter).2
  | addConstant key sym => (s.addConstant key sym).2
  | addTemporary type position => (s.addTemporary type position).2
  | modify id f => s.modify id f

def run (ops : List Action) : Scopes := ops.foldl Action.apply .empty

def Reachable (s : Scopes) : Prop := ∃ ops, run ops = s

/-- What every action keeps: the index is right, and what is open is there. -/
structure Sound (s : Scopes) : Prop where
  indexed : s.Indexed
  opened : ∀ i ∈ s.stack, ∃ t, s.tables[i]? = some t

variable {s s' : Scopes}

theorem sound_empty : empty.Sound := by
  refine ⟨fun name i h => ?_, by simp [empty]⟩
  simp [empty] at h

theorem create_head (hs : s.Indexed) (name : String) :
    ∃ i, (s.create name).stack = i :: s.stack ∧
      (s.create name).tables[i]? = some (.empty name) := by
  cases hi : s.index[name]? with
  | some i =>
    obtain ⟨t, ht, -⟩ := hs name i hi
    have hlt := (Array.getElem?_eq_some_iff.1 ht).1
    exact ⟨i, by simp [create, hi, push], by simp [create, hi, push, hlt]⟩
  | none => exact ⟨s.tables.size, by simp [create, hi, push], by simp [create, hi, push]⟩

theorem Sound.create (h : s.Sound) (name : String) : (s.create name).Sound := by
  refine ⟨Retains.indexed_create h.indexed name, fun i hi => ?_⟩
  obtain ⟨j, hst, hj⟩ := create_head h.indexed name
  rw [hst] at hi
  rcases List.mem_cons.1 hi with rfl | hi
  · exact ⟨_, hj⟩
  · obtain ⟨t, ht⟩ := h.opened i hi
    obtain ⟨u, hu, -⟩ := Retains.exists_table_create h.indexed i t ht
    exact ⟨u, hu⟩

theorem Sound.step (h : s.Sound) (hindex : s'.index = s.index)
    (htab : ∀ (i : Nat) (t : SymbolTable), s.tables[i]? = some t →
      ∃ u, s'.tables[i]? = some u ∧ u.scope = t.scope)
    (hst : ∀ i ∈ s'.stack, i ∈ s.stack ∨ ∃ t, s.tables[i]? = some t) : s'.Sound := by
  refine ⟨fun name i hi => ?_, fun i hi => ?_⟩
  · rw [hindex] at hi
    obtain ⟨t, ht, hname⟩ := h.indexed name i hi
    obtain ⟨u, hu, hut⟩ := htab i t ht
    exact ⟨u, hu, hut.trans hname⟩
  · obtain ⟨t, ht⟩ : ∃ t, s.tables[i]? = some t := (hst i hi).elim (h.opened i) id
    obtain ⟨u, hu, -⟩ := htab i t ht
    exact ⟨u, hu⟩

theorem Sound.apply (h : s.Sound) (op : Action) : (op.apply s).Sound := by
  cases op with
  | create name => exact h.create name
  | enter name =>
    cases hi : s.index[name]? with
    | none => simpa only [Action.apply, enter?, hi, Option.map_none, Option.getD_none] using h
    | some i =>
      have hpush : Action.apply s (.enter name) = s.push i := by
        simp only [Action.apply, enter?, hi, Option.map_some, Option.getD_some]
      rw [hpush]
      refine h.step rfl (fun j t ht => ⟨t, ht, rfl⟩) fun j hj => ?_
      rcases List.mem_cons.1 hj with rfl | hj
      · obtain ⟨t, ht, -⟩ := h.indexed name j hi
        exact .inr ⟨t, ht⟩
      · exact .inl hj
  | leave =>
    exact h.step rfl (fun j t ht => ⟨t, ht, rfl⟩) fun j hj => .inl (List.mem_of_mem_tail hj)
  | declare sym region =>
    have hr := (Retains.refl s).declare sym region
    refine ⟨hr.indexed h.indexed, fun i hi => ?_⟩
    rw [Action.apply, (s.declare_frame sym region).2.1] at hi
    obtain ⟨t, ht⟩ := h.opened i hi
    obtain ⟨u, hu, -⟩ := hr.named h.indexed i t ht
    exact ⟨u, hu⟩
  | allocate region isParameter =>
    obtain ⟨-, htab, hindex, hst, -⟩ := allocate_symbols s region isParameter
    refine h.step hindex (fun i t ht => ⟨t, htab ▸ ht, rfl⟩) fun i hi => ?_
    rw [Action.apply, hst] at hi
    exact .inl hi
  | addConstant key sym => exact h.step rfl (fun j t ht => ⟨t, ht, rfl⟩) fun j hj => .inl hj
  | addTemporary type p => exact h.step rfl (fun j t ht => ⟨t, ht, rfl⟩) fun j hj => .inl hj
  | modify id f => exact h.step rfl (fun j t ht => ⟨t, ht, rfl⟩) fun j hj => .inl hj

theorem Reachable.sound (h : s.Reachable) : s.Sound := by
  obtain ⟨ops, rfl⟩ := h
  unfold run
  suffices ∀ s : Scopes, s.Sound → (ops.foldl Action.apply s).Sound from this _ sound_empty
  induction ops with
  | nil => exact fun s hs => hs
  | cons op ops ih => exact fun s hs => ih _ (hs.apply op)

/-- The names of the scopes with the given tables. -/
def tableNames (s : Scopes) (st : List Nat) : List String :=
  st.filterMap fun i => s.tables[i]?.map SymbolTable.scope

theorem openScopes_eq (s : Scopes) : s.openScopes = s.tableNames s.stack := rfl

theorem tableNames_eq {st : List Nat} (hst : ∀ i ∈ st, ∃ t, s.tables[i]? = some t)
    (hnamed : ∀ (i : Nat) (t : SymbolTable), s.tables[i]? = some t →
      ∃ u, s'.tables[i]? = some u ∧ u.scope = t.scope) : s'.tableNames st = s.tableNames st := by
  refine List.filterMap_congr fun i hi => ?_
  obtain ⟨t, ht⟩ := hst i hi
  obtain ⟨u, hu, hut⟩ := hnamed i t ht
  rw [ht, hu, Option.map_some, Option.map_some, hut]

end Scopes

/-- What reading a program does to scopes. -/
structure ReadsWithin (s : Scopes) (p : Parsed) : Prop where
  symbols : ∀ id sym, s.symbol? id = some sym → p.scopes.symbol? id = some sym
  accepted : p.root.isSome = true → p.scopes.stack = s.stack ∧ p.scopes.openScopes = s.openScopes
  /-- The scopes that were open still are, and right inside them the global scope is. -/
  rejected : p.root = none → ∃ inner i,
    p.scopes.stack = inner ++ i :: s.stack ∧
    p.scopes.openScopes = p.scopes.tableNames inner ++ Parser.globalScope :: s.openScopes

/-- The global scope stays right inside the scopes that were open before. -/
theorem tableNames_started (hs : s.Sound) (h : (s.create Parser.globalScope).Retains s') : ∃ i,
      (s.create Parser.globalScope).stack = i :: s.stack ∧
      s'.tableNames [i] = [Parser.globalScope] ∧ s'.tableNames s.stack = s.openScopes := by
  have hind := Scopes.Retains.indexed_create hs.indexed Parser.globalScope
  obtain ⟨i, hst, hi⟩ := Scopes.create_head hs.indexed Parser.globalScope
  refine ⟨i, hst, ?_, ?_⟩
  · obtain ⟨u, hu, hname⟩ := h.named hind i _ hi
    simp only [Scopes.tableNames, List.filterMap_cons, hu, Option.map_some, hname]
    rfl
  · refine Scopes.tableNames_eq hs.opened fun j t ht => ?_
    obtain ⟨u, hu, hut⟩ := Scopes.Retains.exists_table_create hs.indexed j t ht
    obtain ⟨w, hw, hwu⟩ := h.named hind j u hu
    exact ⟨w, hw, hwu.trans hut⟩

theorem symbols_started (h : (s.create Parser.globalScope).Retains s') {id : Symbol.Id}
    {sym : Symbol} (hsym : s.symbol? id = some sym) : s'.symbol? id = some sym := by
  have hid : id < (s.create Parser.globalScope).symbols.size := by
    rw [Scopes.create_symbols]
    exact (Array.getElem?_eq_some_iff.1 hsym).1
  rw [h.symbols id hid, Scopes.symbol?_create, hsym]

theorem parse_readsWithin (hs : s.Sound) (stream : TokenStream) :
    ReadsWithin s (parse stream s) := by
  have hrun := Parser.at_program ⟨stream, s, #[], #[], none, 0⟩
  unfold parse
  cases hr : Parser.program ⟨stream, s, #[], #[], none, 0⟩ with
  | ok root s₂ =>
    obtain ⟨s₁, h, rfl⟩ := wp_of_ok hrun hr
    have hret : (s.create Parser.globalScope).Retains s₁.scopes.leave := h.scopes.leave
    obtain ⟨i, hst, -, hnames⟩ := tableNames_started hs hret
    have hstack : s₁.scopes.leave.stack = s.stack := by
      show s₁.scopes.stack.tail = s.stack
      rw [h.stack]
      exact congrArg List.tail hst
    refine ⟨fun id sym => symbols_started hret, fun _ => ⟨hstack, ?_⟩, by simp⟩
    show s₁.scopes.leave.openScopes = _
    rw [Scopes.openScopes_eq, hstack, hnames]
  | error e s₁ =>
    obtain ⟨st, ts, h, -⟩ := wp_of_error hrun hr
    have hret : (s.create Parser.globalScope).Retains s₁.scopes := h.scopes
    obtain ⟨i, hst, hglobal, hnames⟩ := tableNames_started hs hret
    -- scopes left open lie above the global one
    obtain ⟨inner, hinner⟩ := h.base
    have hstack : s₁.scopes.stack = inner ++ i :: s.stack := by
      rw [h.stack, ← hinner]
      exact congrArg (inner ++ ·) hst
    refine ⟨fun id sym => symbols_started hret, by simp, fun _ => ⟨inner, i, hstack, ?_⟩⟩
    show s₁.scopes.openScopes = s₁.scopes.tableNames inner ++ _
    have happend (l l' : List Nat) :
        s₁.scopes.tableNames (l ++ l') = s₁.scopes.tableNames l ++ s₁.scopes.tableNames l' :=
      List.filterMap_append
    rw [Scopes.openScopes_eq, hstack, happend, ← List.singleton_append, happend, hglobal, hnames]
    rfl

/-- What generating the code of a tree does to scopes. -/
structure GeneratesWithin (s : Scopes) (root : Node) (g : Generated) : Prop where
  size : g.scopes.symbols.size = s.symbols.size
  /-- A symbol differs from what it was in its place at most. -/
  symbols : ∀ id sym, s.symbol? id = some sym →
    ∃ sym', g.scopes.symbol? id = some sym' ∧ { sym' with storage := sym.storage } = sym
  /-- Only the functions of the program get places. -/
  others : ∀ id, (∀ n ∈ root.functionNodes, n.symbol ≠ some id) →
    g.scopes.symbol? id = s.symbol? id
  tables : g.scopes.tables = s.tables
  index : g.scopes.index = s.index
  constants : g.scopes.constants = s.constants
  accepted : ∀ code, g.code = .ok code →
    g.scopes.stack = s.stack ∧ g.scopes.openScopes = s.openScopes
  rejected : ∀ d, g.code = .error d →
    s.stack <:+ g.scopes.stack ∧ s.openScopes <:+ g.scopes.openScopes

theorem Scopes.Alike.size_eq (h : s.Alike s') : s'.symbols.size = s.symbols.size := by
  have hnone (id : Symbol.Id) : s'.symbols.size ≤ id ↔ s.symbols.size ≤ id := by
    have := congrArg Option.isNone (h.symbols id)
    simp only [Option.isNone_map, Scopes.symbol?] at this
    rw [← Array.getElem?_eq_none_iff, ← Array.getElem?_eq_none_iff, ← Option.isNone_iff_eq_none,
      ← Option.isNone_iff_eq_none, this]
  exact Nat.le_antisymm ((hnone _).2 (Nat.le_refl _)) ((hnone _).1 (Nat.le_refl _))

theorem generate_within (root : Node) (s : Scopes) : GeneratesWithin s root (generate root s) := by
  obtain ⟨halike, hkept, hst⟩ := generate_agrees root s
  have hnames (st : List Nat) : (generate root s).scopes.tableNames st = s.tableNames st := by
    rw [Scopes.tableNames, Scopes.tableNames, halike.tables]
  refine ⟨halike.size_eq, fun id sym hsym => ?_, fun id hid => hkept id fun hmem => ?_,
    halike.tables, halike.index, halike.constants, fun code hcode => ?_, fun d hd => ?_⟩
  · obtain ⟨sym', hsym', hu⟩ := halike.symbol? hsym
    refine ⟨sym', hsym', ?_⟩
    calc { sym' with storage := sym.storage }
        = { sym'.unplaced with storage := sym.storage } := rfl
      _ = { sym.unplaced with storage := sym.storage } := by rw [hu]
      _ = sym := rfl
  · obtain ⟨n, hn, hns⟩ := List.mem_filterMap.1 hmem
    exact hid n hn hns
  · rw [hcode] at hst
    exact ⟨hst, by rw [Scopes.openScopes_eq, hst, hnames]; rfl⟩
  · rw [hd] at hst
    refine ⟨hst, ?_⟩
    rw [Scopes.openScopes_eq, Scopes.openScopes_eq, hnames]
    exact hst.filterMap _

/-- Wherever scopes come from, reading a program and generating the code of a tree keep to what is
theirs, whether they succeed or fail. -/
theorem passes_keepScopes {s : Scopes} (hs : s.Reachable) :
    (∀ stream, ReadsWithin s (parse stream s)) ∧
      ∀ root, GeneratesWithin s root (generate root s) :=
  ⟨parse_readsWithin hs.sound, fun root => generate_within root s⟩

/-- The scopes may be those of another program, one of them still open. -/
theorem passes_keepScopes_outer :
    (Scopes.run [.create "global", .declare (.new .intVariable "x" .start [.dataType .int])
      (some .globals), .create "inner"]).openScopes = ["inner", "global"] ∧
    ∀ s, s = Scopes.run [.create "global", .declare (.new .intVariable "x" .start [.dataType .int])
      (some .globals), .create "inner"] →
      (∀ stream, ReadsWithin s (parse stream s)) ∧
        ∀ root, GeneratesWithin s root (generate root s) := by
  refine ⟨by decide +kernel, ?_⟩
  rintro s rfl
  exact passes_keepScopes ⟨_, rfl⟩

end StackCompiler
