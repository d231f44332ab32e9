import StackCompiler.Proofs.Registry

/-!
# Shadowing ends with its scope

A name that is bound in a scope hides the same name outside only while the scope is open. Between
the opening of a scope and its closing other scopes may be made, made again, opened again and
closed, and all of them may get new names. The scopes that were open before are not touched, as long
as none of them is opened once more.
-/

namespace StackCompiler.Scopes

def after (s : Scopes) (ops : List Action) : Scopes := ops.foldl Action.apply s

/-- The name of the scope that an action opens, if there is such a scope. -/
def Action.scope? : Action → Option String
  | create name | enter name => some name
  | _ => none

/-- What an action makes of the scopes that are still open of those opened since some time, by name
and the innermost first. -/
def Action.track (s : Scopes) (names : List String) : Action → List String
  | create name => name :: names
  | enter name => if (s.enter? name).isSome then name :: names else names
  | leave => names.tail
  | _ => names

/-- The scopes that are still open after some actions, of those in `names` and those that the
actions open. -/
def stillOpen (s : Scopes) (names : List String) : List Action → List String
  | [] => names
  | op :: ops => (op.apply s).stillOpen (op.track s names) ops

/-- The first action opens a scope and the last one closes it. All scopes that are opened in between
are closed before it, and none of them was open at the start. -/
structure Encloses (s : Scopes) (ops : List Action) : Prop where
  shape : ∃ name first inside, ops = first :: (inside ++ [.leave]) ∧
    (first = .create name ∨ first = .enter name ∧ s.Made name)
  inside : ∀ n < ops.length, 0 < n → s.stillOpen [] (ops.take n) ≠ []
  closed : s.stillOpen [] ops = []
  fresh : ∀ name ∈ ops.filterMap Action.scope?, name ∉ s.openScopes

/-- Names stand for the same in `s'` as in `s`, and the innermost scope is the same. -/
structure Restores (s s' : Scopes) : Prop where
  resolve : ∀ name, s'.resolve name = s.resolve name
  declaresHere : ∀ name, s'.declaresHere name = s.declaresHere name
  current : s'.current? = s.current?

/-- In `s'` the scopes `opened` are open inside those of `s`. A name stands for what the innermost
of them says that has it, and for what it stood for in `s` if none of them has it. -/
structure Shadows (s : Scopes) (opened : List String) (s' : Scopes) : Prop where
  openScopes : s'.openScopes = opened ++ s.openScopes
  tables : ∀ scope ∈ opened, ∃ t, s'.table? scope = some t ∧ t.scope = scope
  outer : ∀ name, (∀ scope ∈ opened, ∀ t, s'.table? scope = some t → t.contains name = false) →
    s'.resolve name = s.resolve name
  inner : ∀ name before scope behind t, opened = before ++ scope :: behind →
    (∀ nearer ∈ before, ∀ u, s'.table? nearer = some u → u.contains name = false) →
    s'.table? scope = some t → t.contains name = true →
    ∃ id, t.resolve name = some id ∧ s'.resolve name = some id

variable {s s' : Scopes} {opened : List String}

/-! ## What an action keeps -/

theorem index_create_of_some {scope name : String} {i : Nat} (h : s.index[name]? = some i) :
    (s.create scope).index[name]? = some i := by
  cases hi : s.index[scope]? with
  | some j =>
    have hindex : (s.create scope).index = s.index := by simp only [create, hi, push]
    rwa [hindex]
  | none =>
    rw [create_of_new hi]
    show (s.index.insert scope s.tables.size)[name]? = some i
    have hne : scope ≠ name := by
      rintro rfl
      rw [hi] at h
      cases h
    simpa [Std.TreeMap.getElem?_insert, hne] using h

theorem index_apply {name : String} {i : Nat} (h : s.index[name]? = some i) (op : Action) :
    (op.apply s).index[name]? = some i := by
  cases op with
  | create scope => exact index_create_of_some h
  | enter scope =>
    show ((s.enter? scope).getD s).index[name]? = some i
    rwa [(s.enter_frame scope).2.2.1]
  | declare sym region =>
    show (s.declare sym region).2.index[name]? = some i
    cases hst : s.stack with
    | nil =>
      rw [declare_of_closed hst]
      show (s.place sym region).2.index[name]? = some i
      rwa [(s.place_frame sym region).2.1]
    | cons j rest => rwa [declare_index hst]
  | allocate region isParameter =>
    show (s.allocate region isParameter).2.index[name]? = some i
    rwa [(allocate_symbols s region isParameter).2.2.1]
  | leave | addConstant | addTemporary | modify => exact h

/-- A table changes only if its scope is made again, or if a name is bound in it. -/
theorem tables_apply {i : Nat} {t : SymbolTable} (ht : s.tables[i]? = some t) (op : Action)
    (hmade : ∀ name, op = .create name → s.index[name]? ≠ some i)
    (hbound : ∀ sym region, op = .declare sym region → s.stack.head? ≠ some i) :
    (op.apply s).tables[i]? = some t := by
  cases op with
  | create name =>
    show (s.create name).tables[i]? = some t
    cases hj : s.index[name]? with
    | some j =>
      have hne : j ≠ i := by
        rintro rfl
        exact hmade name rfl hj
      simp only [create, hj, push]
      rwa [Array.getElem?_setIfInBounds_ne hne]
    | none =>
      rw [create_of_new hj]
      show (s.tables.push _)[i]? = some t
      have hlt := (Array.getElem?_eq_some_iff.1 ht).1
      rwa [Array.getElem?_push_lt hlt, ← Array.getElem?_eq_getElem hlt]
  | enter name =>
    show ((s.enter? name).getD s).tables[i]? = some t
    rwa [(s.enter_frame name).2.1]
  | declare sym region =>
    show (s.declare sym region).2.tables[i]? = some t
    cases hst : s.stack with
    | nil =>
      rw [declare_of_closed hst]
      show (s.place sym region).2.tables[i]? = some t
      rwa [(s.place_frame sym region).1]
    | cons j rest =>
      have hne : j ≠ i := by
        rintro rfl
        exact hbound sym region rfl (by rw [hst]; rfl)
      rw [declare_eq hst]
      show (s.tables.modify j _)[i]? = some t
      rwa [Array.getElem?_modify, if_neg hne]
  | allocate region isParameter =>
    show (s.allocate region isParameter).2.tables[i]? = some t
    rwa [(allocate_symbols s region isParameter).2.1]
  | leave | addConstant | addTemporary | modify => exact ht

theorem stack_create (s : Scopes) (name : String) :
    ∃ i, (s.create name).index[name]? = some i ∧ (s.create name).stack = i :: s.stack := by
  obtain ⟨i, hi⟩ := s.made_create name
  refine ⟨i, hi, ?_⟩
  cases hj : s.index[name]? with
  | some j =>
    have hcreate : (s.create name).index = s.index ∧ (s.create name).stack = j :: s.stack := by
      simp [create, hj, push]
    rw [hcreate.1, hj] at hi
    rw [hcreate.2, Option.some.inj hi]
  | none =>
    rw [create_of_new hj] at hi ⊢
    have hsize : s.tables.size = i := by simpa [push] using hi
    rw [← hsize]
    rfl

theorem stack_apply (s : Scopes) (op : Action) :
    (∃ name i, op.scope? = some name ∧ (op.apply s).index[name]? = some i ∧
      (op.apply s).stack = i :: s.stack ∧ ∀ names, op.track s names = name :: names) ∨
    (op = .leave ∧ (op.apply s).stack = s.stack.tail) ∨
    ((op.apply s).stack = s.stack ∧ ∀ names, op.track s names = names) := by
  cases op with
  | create name =>
    left
    obtain ⟨i, hi, hstack⟩ := s.stack_create name
    exact ⟨name, i, rfl, hi, hstack, fun names => rfl⟩
  | enter name =>
    cases hi : s.index[name]? with
    | some i =>
      left
      have henter : s.enter? name = some (s.push i) := by rw [enter?, hi]; rfl
      refine ⟨name, i, rfl, index_apply hi _, ?_, fun names => ?_⟩
      · show ((s.enter? name).getD s).stack = _
        rw [henter]
        rfl
      · rw [Action.track, henter]
        rfl
    | none =>
      right
      right
      have henter : s.enter? name = none := by rw [enter?, hi]; rfl
      refine ⟨?_, fun names => ?_⟩
      · show ((s.enter? name).getD s).stack = _
        rw [henter]
        rfl
      · rw [Action.track, henter]
        rfl
  | leave => exact .inr (.inl ⟨rfl, rfl⟩)
  | declare sym region => exact .inr (.inr ⟨(s.declare_frame sym region).2.1, fun _ => rfl⟩)
  | allocate region isParameter =>
    exact .inr (.inr ⟨(allocate_symbols s region isParameter).2.2.2.1, fun _ => rfl⟩)
  | addConstant | addTemporary | modify => exact .inr (.inr ⟨rfl, fun _ => rfl⟩)

/-- In `s'` the scopes `opened` are open inside those of `s`. They have tables of their own, and
those of `s` are as they were. -/
structure Nested (s : Scopes) (opened : List String) (s' : Scopes) : Prop where
  sound : s'.Sound
  stack : ∃ is, s'.stack = is ++ s.stack ∧
    List.Forall₂ (fun i name => s'.index[name]? = some i) is opened
  kept : ∀ i ∈ s.stack, s'.tables[i]? = s.tables[i]?
  apart : ∀ name ∈ opened, name ∉ s.openScopes

namespace Nested

theorem refl (hs : s.Sound) : s.Nested [] s :=
  ⟨hs, ⟨[], rfl, .nil⟩, fun _ _ => rfl, by simp⟩

theorem not_mem_stack (h : s.Nested opened s') (hs : s.Sound) {name : String} {i : Nat}
    (hi : s'.index[name]? = some i) (hn : name ∉ s.openScopes) : i ∉ s.stack := by
  intro hm
  obtain ⟨t, ht⟩ := hs.opened i hm
  obtain ⟨t', ht', rfl⟩ := h.sound.indexed name i hi
  rw [h.kept i hm, ht, Option.some.injEq] at ht'
  subst ht'
  exact hn (List.mem_filterMap.2 ⟨i, hm, by rw [ht]; rfl⟩)

/-- While some scope is open inside those of the start, or when one is opened, the scopes of the
start are safe. -/
theorem step (h : s.Nested opened s') (hs : s.Sound) (op : Action)
    (hfresh : ∀ name, op.scope? = some name → name ∉ s.openScopes)
    (hopen : opened = [] → op.scope? ≠ none) : s.Nested (op.track s' opened) (op.apply s') := by
  obtain ⟨is, hst, hnames⟩ := h.stack
  have hsound := h.sound.apply op
  have hindex : List.Forall₂ (fun i name => (op.apply s').index[name]? = some i) is opened :=
    hnames.imp fun _ _ hi => index_apply hi op
  have hkept : ∀ i ∈ s.stack, (op.apply s').tables[i]? = s.tables[i]? := by
    intro i hi
    obtain ⟨t, ht⟩ := hs.opened i hi
    rw [ht]
    refine tables_apply (by rw [h.kept i hi, ht]) op ?_ ?_
    · rintro name rfl hname
      exact h.not_mem_stack hs hname (hfresh name rfl) hi
    · -- names are bound in the innermost scope, which was opened since the start
      rintro sym region rfl hhead
      cases hnames with
      | nil => exact hopen rfl rfl
      | @cons j name _ _ hj _ =>
        rw [hst] at hhead
        obtain rfl := Option.some.inj hhead
        exact h.not_mem_stack hs hj (h.apart name List.mem_cons_self) hi
  rcases s'.stack_apply op with ⟨name, i, hname, hi, hstack, htrack⟩ | ⟨rfl, hstack⟩ |
    ⟨hstack, htrack⟩
  · rw [htrack]
    refine ⟨hsound, ⟨i :: is, by rw [hstack, hst]; rfl, .cons hi hindex⟩, hkept, ?_⟩
    rw [List.forall_mem_cons]
    exact ⟨hfresh name hname, h.apart⟩
  · show s.Nested opened.tail _
    cases hindex with
    | nil => exact absurd rfl (hopen rfl)
    | @cons i name is names hi hrest =>
      refine ⟨hsound, ⟨is, by rw [hstack, hst]; rfl, hrest⟩, hkept, fun other hm => ?_⟩
      exact h.apart other (List.mem_cons_of_mem name hm)
  · rw [htrack]
    exact ⟨hsound, ⟨is, by rw [hstack, hst], hindex⟩, hkept, h.apart⟩

/-- Before each action some scope is open that was not open at the start. -/
theorem run (h : s.Nested opened s') (hs : s.Sound) (ops : List Action)
    (hfresh : ∀ name ∈ ops.filterMap Action.scope?, name ∉ s.openScopes)
    (hopen : ∀ n < ops.length, s'.stillOpen opened (ops.take n) ≠ []) :
    s.Nested (s'.stillOpen opened ops) (s'.after ops) := by
  induction ops generalizing s' opened with
  | nil => exact h
  | cons op ops ih =>
    have hne : opened ≠ [] := hopen 0 (Nat.succ_pos _)
    refine ih (h.step hs op (fun name hname => ?_) fun he => absurd he hne) (fun name hm => ?_)
      fun n hn => hopen (n + 1) (Nat.succ_lt_succ hn)
    · exact hfresh name (List.mem_filterMap.2 ⟨op, List.mem_cons_self, hname⟩)
    · obtain ⟨other, hother, hname⟩ := List.mem_filterMap.1 hm
      exact hfresh name (List.mem_filterMap.2 ⟨other, List.mem_cons_of_mem op hother, hname⟩)

section Opened

variable {is : List Nat} (h : List.Forall₂ (fun i name => s.index[name]? = some i) is opened)
include h

theorem findSome?_opened (name : String) :
    (is.findSome? fun i => s.tables[i]?.bind fun t => t.resolve name) =
      opened.findSome? fun scope => (s.table? scope).bind fun t => t.resolve name := by
  induction h with
  | nil => rfl
  | cons hi _ ih =>
    rw [List.findSome?_cons, List.findSome?_cons, ih, table?, hi]
    rfl

theorem tableNames_opened (hs : s.Indexed) : s.tableNames is = opened := by
  induction h with
  | nil => rfl
  | @cons i name is names hi _ ih =>
    obtain ⟨t, ht, hname⟩ := hs name i hi
    rw [tableNames, List.filterMap_cons, ht, Option.map_some, hname]
    exact congrArg _ ih

theorem exists_table_opened (hs : s.Indexed) :
    ∀ scope ∈ opened, ∃ t, s.table? scope = some t ∧ t.scope = scope := by
  induction h with
  | nil => simp
  | @cons i name is names hi _ ih =>
    rw [List.forall_mem_cons]
    obtain ⟨t, ht, hname⟩ := hs name i hi
    exact ⟨⟨t, by rw [table?, hi]; exact ht, hname⟩, ih⟩

end Opened

/-- The scopes opened since the start are searched first, then those of the start as they were. -/
theorem resolve_eq (h : s.Nested opened s') (name : String) : s'.resolve name =
    (opened.findSome? fun scope => (s'.table? scope).bind fun t => t.resolve name).or
      (s.resolve name) := by
  obtain ⟨is, hst, hnames⟩ := h.stack
  rw [resolve, hst, List.findSome?_append, findSome?_opened hnames, findSome?_tables h.kept]
  rfl

theorem openScopes_eq (h : s.Nested opened s') : s'.openScopes = opened ++ s.openScopes := by
  obtain ⟨is, hst, hnames⟩ := h.stack
  have houter : s'.tableNames s.stack = s.tableNames s.stack :=
    List.filterMap_congr fun i hi => by rw [h.kept i hi]
  calc s'.openScopes = s'.tableNames (is ++ s.stack) := by rw [Scopes.openScopes_eq, hst]
    _ = s'.tableNames is ++ s'.tableNames s.stack := List.filterMap_append
    _ = opened ++ s.openScopes := by
      rw [tableNames_opened hnames h.sound.indexed, houter, Scopes.openScopes_eq]

theorem findSome?_eq_none {scopes : List String} {name : String}
    (h : ∀ scope ∈ scopes, ∀ t, s.table? scope = some t → t.contains name = false) :
    (scopes.findSome? fun scope => (s.table? scope).bind fun t => t.resolve name) = none := by
  rw [List.findSome?_eq_none_iff]
  exact fun scope hm => (bind_resolve_eq_none _ name).2 (h scope hm)

theorem shadows (h : s.Nested opened s') : s.Shadows opened s' := by
  refine ⟨h.openScopes_eq, ?_, fun name hnone => ?_,
    fun name before scope behind t ho hnone ht hc => ?_⟩
  · obtain ⟨is, -, hnames⟩ := h.stack
    exact exists_table_opened hnames h.sound.indexed
  · rw [h.resolve_eq, findSome?_eq_none hnone, Option.none_or]
  · obtain ⟨id, hid⟩ := Option.isSome_iff_exists.1 (SymbolTable.contains_eq t name ▸ hc)
    refine ⟨id, hid, ?_⟩
    rw [h.resolve_eq, ho, List.findSome?_append, findSome?_eq_none hnone, Option.none_or,
      List.findSome?_cons, ht, Option.bind_some, hid]
    rfl

theorem restores (h : s.Nested [] s') : s.Restores s' := by
  obtain ⟨is, hst, hnames⟩ := h.stack
  cases hnames
  have hcurrent : s'.currentTable? = s.currentTable? := by
    rw [currentTable?, currentTable?, hst, List.nil_append]
    cases hs : s.stack with
    | nil => rfl
    | cons i rest => exact h.kept i (by rw [hs]; exact List.mem_cons_self)
  refine ⟨fun name => h.resolve_eq name, fun name => ?_, ?_⟩
  · rw [declaresHere, declaresHere, hcurrent]
  · rw [current?, current?, hcurrent]

end Nested

/-- At every point of actions that open a scope and close it again, the scopes opened since the
start lie inside those of the start. -/
theorem Encloses.nested {ops : List Action} (h : s.Encloses ops) (hs : s.Sound) (n : Nat) :
    s.Nested (s.stillOpen [] (ops.take n)) (s.after (ops.take n)) := by
  cases n with
  | zero => exact .refl hs
  | succ n =>
    obtain ⟨name, first, inside, rfl, hfirst⟩ := h.shape
    have hscope : first.scope? = some name := by
      rcases hfirst with rfl | ⟨rfl, -⟩ <;> rfl
    have hfresh := h.fresh
    rw [List.filterMap_cons_some hscope, List.forall_mem_cons] at hfresh
    have hopened := (Nested.refl hs).step hs first
      (fun other hother => by rw [hscope, Option.some.injEq] at hother; exact hother ▸ hfresh.1)
      (fun _ => by rw [hscope]; simp)
    refine hopened.run hs ((inside ++ [Action.leave]).take n) (fun other hm => ?_) fun k hk => ?_
    · exact hfresh.2 other ((List.take_sublist _ _).filterMap _ |>.subset hm)
    · have hlt : k < (inside ++ [Action.leave]).length :=
        Nat.lt_of_lt_of_le hk (List.length_take_le' _ _)
      rw [List.take_take, Nat.min_eq_left (Nat.le_of_lt (Nat.lt_of_lt_of_le hk
        (List.length_take_le _ _)))]
      exact h.inside (k + 1) (Nat.succ_lt_succ hlt) (Nat.succ_pos k)

/-- Whatever is done between the opening of a scope and its closing, names stand for the same
afterwards as before. In between, those that the scopes opened since then do not have keep their
meaning, and the others have that of the innermost of these scopes. -/
theorem enclosed_restores (hs : s.Reachable) {ops : List Action} (h : s.Encloses ops) :
    s.Restores (s.after ops) ∧
      ∀ n, s.Shadows (s.stillOpen [] (ops.take n)) (s.after (ops.take n)) := by
  have hnested := h.nested hs.sound
  refine ⟨?_, fun n => (hnested n).shadows⟩
  have hall := hnested ops.length
  rw [List.take_length, h.closed] at hall
  exact hall.restores

def declareVariable (name : String) : Action :=
  .declare (.new .intVariable name .start [.dataType .int]) (some .globals)

/-- Scopes in which `x` stands for a variable. -/
def declaring : Scopes := run [.create "global", declareVariable "x"]

/-- A scope that hides `x`, with another one inside it that is closed, opened again, closed and made
again. -/
def shadowing : List Action :=
  [.create "inner", declareVariable "x", .create "deep", declareVariable "y", .leave,
    .enter "missing", .enter "deep", declareVariable "x", .leave, .create "deep", .leave, .leave]

/-- In the scope that is opened again `x` has the third meaning, then the second one again, and in
the end the first one. -/
theorem enclosed_restores_shadowing :
    declaring.Encloses shadowing ∧ declaring.openScopes = ["global"] ∧
    declaring.resolve "x" = some 0 ∧
    (declaring.after (shadowing.take 8)).openScopes = ["deep", "inner", "global"] ∧
    (declaring.after (shadowing.take 8)).resolve "x" = some 3 ∧
    (declaring.after (shadowing.take 10)).resolve "x" = some 1 ∧
    declaring.Restores (declaring.after shadowing) ∧
    ∀ n, declaring.Shadows (declaring.stillOpen [] (shadowing.take n))
      (declaring.after (shadowing.take n)) := by
  have h : declaring.Encloses shadowing :=
    ⟨⟨"inner", _, shadowing.tail.dropLast, rfl, .inl rfl⟩, by decide +kernel, by decide +kernel,
      by decide +kernel⟩
  exact ⟨h, by decide +kernel, by decide +kernel, by decide +kernel, by decide +kernel,
    by decide +kernel, enclosed_restores ⟨_, rfl⟩ h⟩

end StackCompiler.Scopes
