import Mathlib.Data.List.Basic
import StackCompiler.Proofs.Balance.Placed
import StackCompiler.Proofs.Balance.Statements
import StackCompiler.Proofs.Frames

/-!
# Named constants keep their values

The address of a named constant is loaded once, to compute the constant before the statements of
main. Every other store goes to a variable of main, or to a parameter or a local of a function.
-/

namespace StackCompiler

/-! ## What code stores to -/

namespace Scopes

variable {s : Scopes} {P : Symbol.Id → Prop} {xs ys : List Line} {names : Names} {n : Node}
  {id : Symbol.Id}

/-- Each store of the code goes to a symbol of `P`: first the address of the symbol is loaded, and
then one value is computed. Otherwise only functions and literals have their addresses loaded. -/
structure StoresTo (s : Scopes) (P : Symbol.Id → Prop) (lines : List Line) : Prop where
  addresses : ∀ id, .address id ∈ lines →
    P id ∨ s.IsFunction id ∨ ∃ text, s.resolveConstant text = some id
  stores : ∀ as bs, lines = as ++ .op .st :: bs → ∃ before id value,
    as = before ++ .address id :: value ∧ P id ∧ .op .st ∉ value ∧
      ((∀ l ∈ value, l.Fits) → exec value [] = some [none])

/-- The symbol is a variable in sight that is not a named constant. -/
def MayChange (s : Scopes) (visible : Symbol.Id → Prop) (id : Symbol.Id) : Prop :=
  visible id ∧ (∃ t, s.IsVariable id t) ∧ ∀ sym, s.symbol? id = some sym → sym.isImmutable = false

theorem storesTo_nil : s.StoresTo P [] := ⟨by simp, by simp⟩

/-- A store in code of two parts is in the part whose address was loaded for it. -/
theorem StoresTo.split {P' : Symbol.Id → Prop} {as bs : List Line} (hx : s.StoresTo P xs)
    (hy : s.StoresTo P' ys) (h : xs ++ ys = as ++ .op .st :: bs) : ∃ before id value,
      as = before ++ .address id :: value ∧
      (P id ∧ as.length < xs.length ∨ P' id ∧ xs.length ≤ before.length) ∧ .op .st ∉ value ∧
      ((∀ l ∈ value, l.Fits) → exec value [] = some [none]) := by
  rcases List.append_eq_append_iff.1 h with ⟨as', rfl, hs⟩ | ⟨bs', rfl, hs⟩
  · obtain ⟨before, id, value, rfl, hid, hv⟩ := hy.stores as' bs hs
    exact ⟨xs ++ before, id, value, by simp, .inr ⟨hid, by simp⟩, hv⟩
  · cases bs' with
    | nil =>
      obtain ⟨before, id, value, hn, -⟩ := hy.stores [] bs (by simpa using hs.symm)
      simp at hn
    | cons l bs' =>
      obtain ⟨rfl, rfl⟩ : .op .st = l ∧ bs = bs' ++ ys := by simpa using hs
      obtain ⟨before, id, value, ha, hid, hv⟩ := hx.stores as bs' rfl
      exact ⟨before, id, value, ha, .inl ⟨hid, by simp⟩, hv⟩

theorem StoresTo.append (hx : s.StoresTo P xs) (hy : s.StoresTo P ys) :
    s.StoresTo P (xs ++ ys) := by
  refine ⟨fun id hid => ?_, fun as bs h => ?_⟩
  · rcases List.mem_append.1 hid with hid | hid
    · exact hx.addresses id hid
    · exact hy.addresses id hid
  · obtain ⟨before, id, value, ha, hid, hv⟩ := hx.split hy h
    exact ⟨before, id, value, ha, hid.elim And.left And.left, hv⟩

theorem StoresTo.mono {P' : Symbol.Id → Prop} (h : s.StoresTo P xs) (hP : ∀ id, P id → P' id) :
    s.StoresTo P' xs := by
  refine ⟨fun id hid => (h.addresses id hid).imp_left (hP id), fun as bs hs => ?_⟩
  obtain ⟨before, id, value, ha, hid, hv⟩ := h.stores as bs hs
  exact ⟨before, id, value, ha, hP id hid, hv⟩

theorem storesTo_line {l : Line} (hl : l ≠ .op .st)
    (ha : ∀ id, l = .address id → s.IsFunction id ∨ ∃ text, s.resolveConstant text = some id) :
    s.StoresTo P [l] := by
  refine ⟨fun id hid => .inr (ha id (List.mem_singleton.1 hid).symm), fun as bs hs => ?_⟩
  cases as with
  | nil => exact absurd (List.cons.inj hs).1 hl
  | cons a as => simp at hs

theorem storesTo_op {o : Operation} (ho : o ≠ .st) : s.StoresTo P [.op o] :=
  storesTo_line (by simpa using ho) nofun

theorem StoresTo.st_not_mem (h : s.StoresTo (fun _ => False) xs) : .op .st ∉ xs := by
  intro hmem
  obtain ⟨as, bs, rfl⟩ := List.append_of_mem hmem
  obtain ⟨-, -, -, -, hfalse, -⟩ := h.stores as bs rfl
  exact hfalse

theorem storesTo_store {value : List Line} (hid : P id) (hv : s.StoresTo (fun _ => False) value)
    (hx : (∀ l ∈ value, l.Fits) → exec value [] = some [none]) :
    s.StoresTo P (.address id :: (value ++ [.op .st])) := by
  refine ⟨fun id' hmem => ?_, fun as bs hs => ?_⟩
  · rcases List.mem_cons.1 hmem with heq | hmem
    · obtain rfl : id' = id := by simpa using heq
      exact .inl hid
    · have hmem : .address id' ∈ value := by simpa using hmem
      exact (hv.addresses id' hmem).imp_left False.elim
  · cases as with
    | nil => simp at hs
    | cons a as =>
      obtain ⟨rfl, hrest⟩ : .address id = a ∧ value ++ [.op .st] = as ++ .op .st :: bs := by
        simpa using hs
      -- the value stores nothing, so the store is the last line
      obtain rfl : value = as := by
        rcases List.append_eq_append_iff.1 hrest with ⟨as', rfl, hend⟩ | ⟨bs', rfl, hend⟩
        · cases as' with
          | nil => simp
          | cons a as' => simp at hend
        · cases bs' with
          | nil => simp
          | cons b bs' =>
            obtain ⟨rfl, -⟩ : .op .st = b ∧ bs = bs' ++ [.op .st] := by simpa using hend
            exact absurd (by simp) hv.st_not_mem
      exact ⟨[], id, value, rfl, hid, hv.st_not_mem, hx⟩

theorem storesTo_call {types : Symbol.Id → DataType} {args : List Node} {arity : Nat}
    (hc : s.Takes id args) (h : ∀ a ∈ args, s.StoresTo P (Assembly.values types a)) :
    s.StoresTo P (Assembly.call types id arity
      (Assembly.valuesOf types (Node.list .expressionList args))) := by
  have hargs : s.StoresTo P (Assembly.valuesOf types (Node.list .expressionList args)) := by
    rw [Assembly.valuesOf_list]
    exact flatMap_of_append storesTo_nil StoresTo.append fun a ha => h a (List.mem_reverse.1 ha)
  have hcount : s.StoresTo P [.count arity] := storesTo_line nofun nofun
  have haddress : s.StoresTo P [.address id] := by
    refine storesTo_line nofun fun id' hid => ?_
    cases hid
    exact .inl hc.isFunction
  unfold Assembly.call
  rw [List.append_assoc]
  refine .append ?_ (hargs.append (hcount.append (haddress.append (storesTo_op nofun))))
  split
  · exact storesTo_nil
  · exact storesTo_op nofun

theorem IsExpression.storesTo {types : Symbol.Id → DataType} (h : s.IsExpression names n) :
    s.StoresTo P (Assembly.values types n) := by
  induction h with
  | integer | real | reference => exact storesTo_line nofun nofun
  | truth hk => rcases hk with rfl | rfl <;> exact storesTo_op nofun
  | call hn hc ht hv ha ih =>
    rw [Assembly.values_call]
    exact storesTo_call hc ih
  | not hn hb ht ih => exact ih.append (storesTo_op nofun)
  | @logical k _ _ _ hk hl hr tl tr ht ihl ihr =>
    obtain ⟨o, ho⟩ := Emitter.exists_binaryOperation (List.mem_append_left _ hk)
    rw [Assembly.values_binary ho]
    refine ihl.append (ihr.append (storesTo_op ?_))
    cases k <;> cases ho <;> nofun
  | @arithmetic k _ _ _ _ _ hk hl hr tl tr nt nu ht ihl ihr =>
    obtain ⟨o, ho⟩ := Emitter.exists_binaryOperation (List.mem_append_right _ hk)
    rw [Assembly.values_binary ho]
    refine ihl.append (ihr.append (storesTo_op ?_))
    cases k <;> cases ho <;> nofun
  | @relation k _ _ _ _ _ hk hl hr tl tr hc ht ihl ihr =>
    obtain ⟨o, ho⟩ := Emitter.exists_relationOperation hk
    have hop : o ≠ .st := by cases k <;> cases ho <;> nofun
    have hxor : s.StoresTo P [.op .xor] := storesTo_op nofun
    have hsub : s.StoresTo P [.op .sub] := storesTo_op nofun
    have hnot : s.StoresTo P (if k = .equal then [.op .not] else []) := by
      split
      · exact storesTo_op nofun
      · exact storesTo_nil
    rw [Assembly.values_relation ho, Assembly.relation]
    split
    · exact (ihl.append ihr).append (hxor.append hnot)
    · exact (ihl.append ihr).append (hsub.append (storesTo_op hop))

theorem IsAssignment.storesTo (h : s.IsAssignment names n) :
    s.StoresTo (s.MayChange names.Sees) (Assembly.assignment s.valueType n) := by
  cases h with
  | @intro k text id source t hk hn hv hm he tv hc =>
    have hid : s.MayChange names.Sees id := ⟨⟨_, hn⟩, ⟨_, hv⟩, hm⟩
    rcases hk with rfl | hk
    · exact storesTo_store hid he.storesTo fun hfit => he.exec hfit []
    · obtain ⟨o, ho⟩ := Emitter.exists_compoundOperation hk
      have hlines : Assembly.assignment s.valueType
          (.mk k none (some id) (some (variableNode text id)) none (some source)) =
          .address id :: (([.value id] ++ (Assembly.values s.valueType source ++ [.op o])) ++
            [.op .st]) := by
        simp [Assembly.assignment, Node.kind, ho, Node.symbol, Node.right, Assembly.valuesOf]
      have hop : o ≠ .st := by cases k <;> cases ho <;> simp
      have hexec : StackCompiler.exec [.op o] [none, none] = some [none] := by
        cases k <;> cases ho <;> rfl
      have hvalue : s.StoresTo (fun _ => False) [.value id] :=
        storesTo_line (by simp) (by simp)
      rw [hlines]
      refine storesTo_store hid (hvalue.append (he.storesTo.append (storesTo_op hop)))
        fun hfit => ?_
      have hsource := he.exec (fun l hl => hfit l (by simp [hl])) [none]
      exact exec_trans (exec_value id []) (exec_trans hsource hexec)

theorem IsInputTarget.storesTo (h : s.IsInputTarget names n) :
    s.StoresTo (s.MayChange names.Sees) (Assembly.read s.valueType n) := by
  cases h with
  | @intro text id t hn hv hm ht =>
    have hid : s.MayChange names.Sees id := ⟨⟨_, hn⟩, ⟨_, hv⟩, hm⟩
    show s.StoresTo _ (.address id ::
      ([.op (if s.valueType id = .int then .readInt else .readReal)] ++ [.op .st]))
    refine storesTo_store hid ?_ fun _ => ?_
    · split <;> exact storesTo_op nofun
    · split <;> rfl

theorem composes_storesTo :
    s.Composes names s.valueType (s.StoresTo (s.MayChange names.Sees)) where
  nil := storesTo_nil
  append := StoresTo.append
  op ho := by
    refine storesTo_op fun hst => ?_
    rw [hst] at ho
    exact absurd ho (by decide)
  value h := h.storesTo
  call hn hc ha := storesTo_call hc fun a h => (ha a h).storesTo
  assignment h := h.storesTo
  read h := h.storesTo
  string {text id} hp := by
    have haddress : s.StoresTo (s.MayChange names.Sees) [.address id] := by
      refine storesTo_line nofun fun id' hid => ?_
      cases hid
      exact .inr ⟨_, hp⟩
    exact haddress.append (storesTo_op nofun)

theorem IsBlock.storesTo {ret : Option DataType} {routine : Emitter.Routine} {b : Option Node}
    {visible : Symbol.Id → Prop} (h : s.IsBlock names ret b)
    (hv : ∀ id, names.Sees id → visible id) (p : Nat) :
    s.StoresTo (s.MayChange visible) (Assembly.blockOf s.valueType routine b p) := by
  obtain ⟨body, rfl, hb⟩ := h
  refine (composes_storesTo.blockOf (fun m hm q => composes_storesTo.statement (fun target =>
    storesTo_line nofun nofun) (hb m hm) q) p).mono fun id hid => ⟨hv id hid.1, hid.2⟩

end Scopes

/-! ## Constants of a module -/

namespace Assembly

variable (types : Symbol.Id → DataType) (root : Node)

/-- Code that computes the named constants. -/
def initialisers : List Line := root.constantNodes.flatMap (constant types)

def statements : List Line :=
  blockOf types .main (root.right.bind Node.right) (span (prologue types root)) ++ [.op .halt]

theorem prologue_eq : prologue types root =
    alloc (root.constantNodes.length + root.variableNodes.length) ++ initialisers types root := rfl

theorem main_eq : main types root = prologue types root ++ statements types root :=
  List.append_assoc ..

variable {types root} in
theorem mem_main_of_mem_prologue {l : Line} (h : l ∈ prologue types root) :
    l ∈ main types root := by
  rw [main_eq]
  exact List.mem_append_left _ h

theorem program_eq : program types root = prologue types root ++ (statements types root ++
    (functions types (span (main types root)) root.functionNodes).flatten) := by
  rw [program, segments, List.flatten_cons, main_eq, List.append_assoc]

end Assembly

/-- The instruction loads the address of a variable, but not of one of the first `n` global ones. -/
def Instruction.LoadsBeyond (n : Nat) (i : Instruction) : Prop :=
  i.operation = .loadAddress .declarations ∨
    i.operation = .loadAddress .globals ∧ ∃ slot : Nat, n ≤ slot ∧ i.operand = 8 * slot

/-- The code of a module in parts: what main does to reserve slots, to compute the named constants
and from its first statement on, and the functions. -/
structure Parts where
  prologue : List Instruction
  initialisers : List Instruction
  statements : List Instruction
  functions : List (List Instruction)

/-- The parts of a program once the places of symbols are known. -/
def Assembly.parts (types : Symbol.Id → DataType) (L : Scopes) (root : Node) : Parts where
  prologue := (alloc (root.constantNodes.length + root.variableNodes.length)).map (Line.placed L)
  initialisers := (initialisers types root).map (Line.placed L)
  statements := (statements types root).map (Line.placed L)
  functions := (functions types (span (main types root)) root.functionNodes).map
    (List.map (Line.placed L))

/-- The named constants of a module are computed once, in order, before the statements of main, and
nothing else is stored to them. -/
structure KeepsConstants (root : Node) (built : Code.Build) (parts : Parts) : Prop where
  segmented : Segmented root built
    ((parts.prologue ++ (parts.initialisers ++ parts.statements)) :: parts.functions)
  slots : ∀ (k : Nat) n, root.constantNodes[k]? = some n → ∃ id, n.symbol = some id ∧
    built.scopes.Stores id ⟨.globals, 8 * k⟩ ∧ signedValue (bigEndian 4 (8 * k)) = 8 * k
  prologue : ∀ i ∈ parts.prologue, i.operation ≠ .loadAddress .globals
  /-- The addresses of global variables that are loaded before the first statement are those of the
  named constants, each once. -/
  initialisers : parts.initialisers.filter (·.operation = .loadAddress .globals) =
    root.constantNodes.mapIdx fun k n =>
      .symbolic (.loadAddress .globals) (n.symbol.getD 0) (8 * k)
  statements : ∀ i ∈ parts.statements, i.operation = .loadAddress .globals →
    i.LoadsBeyond root.constantNodes.length
  functions : ∀ f ∈ parts.functions, ∀ i ∈ f, i.operation ≠ .loadAddress .globals
  /-- A store goes to the address on which just one more value has been put, and which serves no
  other store. It is one of the computations of named constants, or behind all of them and goes
  elsewhere. -/
  stores : ∀ as bs,
      parts.prologue ++ (parts.initialisers ++ (parts.statements ++ parts.functions.flatten)) =
        as ++ .ofOperation .st :: bs →
    ∃ before load value, as = before ++ load :: value ∧ .ofOperation .st ∉ value ∧
      built.code.Raises (sizeOfAll (before ++ [load])) (sizeOfAll as) 1 ∧
      (as.length < (parts.prologue ++ parts.initialisers).length ∧
          load.operation = .loadAddress .globals ∨
        (parts.prologue ++ parts.initialisers).length ≤ before.length ∧
          load.LoadsBeyond root.constantNodes.length)

theorem Line.eq_address {L : Scopes} {l : Line} {r : Region} {op : Operation} {id : Symbol.Id}
    {offset : Int} (h : (l.placed L).operation = .loadAddress r)
    (hi : l.placed L = .symbolic op id offset) : l = .address id := by
  cases l with
  | op o => cases hi
  | count n =>
    rw [placed_count] at hi
    rcases operation_count n with ⟨hc, -⟩ | hc <;> simp [hc] at hi
  | jump target => cases hi
  | value id' =>
    rcases placed_pending_cases L .pendingValue id' with hp | ⟨st, -, hp⟩
    all_goals
      rw [placed, instruction, hp] at h
      cases h
  | address id' =>
    rcases placed_pending_cases L .pendingAddress id' with hp | ⟨st, -, hp⟩
    all_goals
      rw [placed, instruction, hp] at hi
      cases hi
      rfl

theorem Line.eq_st {L : Scopes} {l : Line} (h : l.placed L = .ofOperation .st) : l = .op .st := by
  cases l with
  | op o => exact congrArg op (congrArg Instruction.operation h)
  | count n =>
    rw [placed_count] at h
    rcases operation_count n with ⟨hc, -⟩ | hc <;> simp [hc, Instruction.ofOperation] at h
  | jump target => cases h
  | value id | address id => exact absurd h placed_pending_ne_plain

namespace Outline

variable {o : Outline} {s : Scopes} {built : Code.Build} {id : Symbol.Id}
  {visible P : Symbol.Id → Prop} {k : Nat} {f : Function} {lines part : List Line} {l : Line}

theorem Valid.not_mayChange (h : o.Valid s) (hid : Entry.Sees (o.constants.map Constant.entry) id) :
    ¬ s.MayChange visible id := by
  rintro ⟨-, -, hm⟩
  obtain ⟨e, he, rfl⟩ := List.mem_map.1 hid
  obtain ⟨k, hk⟩ := List.mem_iff_getElem?.1 he
  obtain ⟨sym, t, hs, -, -, ha, -⟩ := h.constants.holds k e hk
  have himm : sym.isImmutable = true := by simp [Symbol.isImmutable, ha, constantAttributes]
  rw [hm sym hs] at himm
  cases himm

section

variable (hb : o.Builds s built) (h : o.Valid s)
include hb h

theorem Builds.signedValue_slot (hk : k < o.constants.length + o.vars.length) :
    signedValue (bigEndian 4 (8 * (k : Int))) = 8 * k := by
  have hslots := hb.slots_le h.isSegment_main List.mem_cons_self
  rw [Emitter.maxHalf] at hslots
  exact signedValue_bigEndian (by omega) (by omega)

theorem Builds.main_target (hid : s.MayChange o.MainSees id) :
    ((Line.address id).placed built.scopes).LoadsBeyond o.constants.length := by
  have ⟨hv, ⟨t, ht⟩, _⟩ := hid
  rw [MainSees, Entry.Sees, List.map_append, List.mem_append] at hv
  rcases hv with hv | hv
  · obtain ⟨k, hk, sym, hs, hst⟩ := h.vars.storage hv
    rw [Line.placed_address ⟨sym, hb.loaded.vars id sym _ hs hst, hst⟩]
    exact .inr ⟨rfl, o.constants.length + k, Nat.le_add_right _ _,
      hb.signedValue_slot h (Nat.add_lt_add_left hk _)⟩
  · exact absurd hid (h.not_mayChange (h.constant_of_global hv ht))

theorem Builds.function_target {j : Nat} (hf : o.functions[j]? = some f)
    (hid : s.MayChange (f.Sees (o.globals (j + 1))) id) :
    ((Line.address id).placed built.scopes).operation = .loadAddress .declarations := by
  have ⟨hv, ⟨t, ht⟩, _⟩ := hid
  rw [Function.Sees, Entry.Sees, List.map_append, List.mem_append] at hv
  rcases hv with hv | hv
  · rw [Function.entries, List.map_append, List.mem_append] at hv
    rcases hv with hv | hv
    · obtain ⟨k, hk, sym, hs, hst⟩ := (h.functions j f hf).params.storage hv
      rw [Line.placed_address ⟨sym, hb.loaded.vars id sym _ hs hst, hst⟩]
      rfl
    · obtain ⟨k, hk, sym, hs, hst⟩ := (h.functions j f hf).locals.storage hv
      rw [Line.placed_address ⟨sym, hb.loaded.vars id sym _ hs hst, hst⟩]
      rfl
  · exact absurd hid (h.not_mayChange (h.constant_of_global hv ht))

theorem Builds.exists_target {last : Operation} {slots p : Nat}
    (hs : s.IsSegment visible last slots p lines)
    (hfun : ∀ id, visible id → s.IsFunction id → ∃ f ∈ o.functions, f.id = id)
    (hpart : s.StoresTo P part) (hl : l ∈ part) (hmem : l ∈ lines)
    (hload : (l.placed built.scopes).operation = .loadAddress .globals) :
    ∃ id, l = .address id ∧ P id := by
  obtain ⟨op, id, st, hi, hst, hreg, -, t, sym, hsym, hv⟩ :=
    hb.loads_variable h hs hfun hmem (.inr hload) nofun
  obtain rfl := Line.eq_address hload hi
  -- functions and literals are in another region
  refine ⟨id, rfl, (hpart.addresses id hl).resolve_right ?_⟩
  rintro (⟨sym', hsym', hk⟩ | ⟨text, ht⟩)
  · obtain rfl := Option.some.inj (hsym.symm.trans hsym')
    exact hv.not_function hk
  · obtain ⟨offset, hc⟩ := hb.loaded.literal (h.scopes.mem_literals ht)
    obtain rfl := hst.unique hc
    cases hreg

end

theorem storesTo_alloc (slots : Nat) : s.StoresTo P (Assembly.alloc slots) := by
  have hcount : s.StoresTo P [.count slots] := Scopes.storesTo_line nofun nofun
  unfold Assembly.alloc
  split
  · exact Scopes.storesTo_nil
  · exact hcount.append (Scopes.storesTo_op nofun)

theorem Valid.storesTo_prologue (h : o.Valid s) :
    s.StoresTo (Entry.Sees (o.constants.map Constant.entry))
      (Assembly.prologue s.valueType o.root) := by
  refine (storesTo_alloc _).append (flatMap_of_append Scopes.storesTo_nil Scopes.StoresTo.append
    fun n hn => ?_)
  rw [o.constantNodes_root] at hn
  obtain ⟨c, hc, rfl⟩ := List.mem_map.1 hn
  obtain ⟨k, hk⟩ := List.mem_iff_getElem?.1 hc
  obtain ⟨he, -⟩ := h.constants.values k c hk
  refine Scopes.storesTo_store ?_ he.storesTo fun hfit => he.exec hfit []
  exact List.mem_map.2 ⟨c.entry, List.mem_map.2 ⟨c, hc, rfl⟩, rfl⟩

theorem Valid.storesTo_statements (h : o.Valid s) :
    s.StoresTo (s.MayChange o.MainSees) (Assembly.statements s.valueType o.root) := by
  refine (h.body.storesTo (fun id hid => ?_) _).append (Scopes.storesTo_op nofun)
  simpa [MainSees] using hid.of_namesOf

theorem Function.Valid.storesTo {visible : List Entry} (h : f.Valid s visible) (p : Nat) :
    s.StoresTo (s.MayChange (f.Sees visible))
      (Assembly.function s.valueType f.node p) := by
  refine ((storesTo_alloc _).append (h.body.storesTo (fun id hid => ?_) _)).append ?_
  · simpa [Function.Sees] using hid.of_namesOf
  · split
    · exact Scopes.storesTo_nil
    · exact Scopes.storesTo_op (by simp)

theorem exists_function_of_mem {types : Symbol.Id → DataType}
    (h : lines ∈
      Assembly.functions types (span (Assembly.main types o.root)) o.root.functionNodes) :
    ∃ (j : Nat) (f : Function) (p : Nat), o.functions[j]? = some f ∧
      Assembly.function types f.node p = lines := by
  obtain ⟨j, hj⟩ := List.mem_iff_getElem?.1 h
  have hsucc : (Assembly.segments types o.root)[j + 1]? = some lines := hj
  rw [Assembly.segments_succ, o.functionNodes_root, List.getElem?_map, Option.map_map,
    Option.map_eq_some_iff] at hsucc
  obtain ⟨f, hf, hlines⟩ := hsucc
  exact ⟨j, f, _, hf, hlines⟩

theorem Builds.storesTo_behind (hb : o.Builds s built) (h : o.Valid s) :
    s.StoresTo (fun id => ((Line.address id).placed built.scopes).LoadsBeyond o.constants.length)
      (Assembly.statements s.valueType o.root ++ (Assembly.functions s.valueType
        (span (Assembly.main s.valueType o.root)) o.root.functionNodes).flatten) := by
  refine (h.storesTo_statements.mono fun id hid => hb.main_target h hid).append ?_
  rw [← List.flatMap_id]
  refine flatMap_of_append Scopes.storesTo_nil Scopes.StoresTo.append fun lines hlines => ?_
  obtain ⟨j, f, p, hf, rfl⟩ := exists_function_of_mem hlines
  exact ((h.functions j f hf).storesTo p).mono fun id hid => .inl (hb.function_target h hf hid)

variable (hb : o.Builds s built) (h : o.Valid s)
include hb h

theorem Builds.stores_constant {c : Constant} (hk : o.constants[k]? = some c) :
    built.scopes.Stores c.id ⟨.globals, 8 * k⟩ := by
  obtain ⟨sym, t, hs, -, -, -, hst⟩ := h.constants.holds k c.entry (by simp [hk])
  exact ⟨sym, hb.loaded.vars c.id sym _ hs hst, hst⟩

/-- In main the address of a global variable is loaded only where code stores to it. -/
theorem Builds.operation_ne (hp : s.StoresTo (fun _ => False) part) (hl : l ∈ part)
    (hmain : l ∈ Assembly.main s.valueType o.root) :
    (l.placed built.scopes).operation ≠ .loadAddress .globals := by
  intro hload
  obtain ⟨-, -, hfalse⟩ := hb.exists_target h h.isSegment_main
    (fun id hid hf => h.function_of_main hid hf) hp hl hmain hload
  exact hfalse

theorem Builds.filter_constant {c : Constant} (hc : c ∈ o.constants) :
    (Assembly.constant s.valueType c.node).filter
      (fun l => (l.placed built.scopes).operation = .loadAddress .globals) = [.address c.id] := by
  obtain ⟨k, hk⟩ := List.mem_iff_getElem?.1 hc
  obtain ⟨he, -⟩ := h.constants.values k c hk
  have hload : ((Line.address c.id).placed built.scopes).operation = .loadAddress .globals := by
    rw [Line.placed_address (hb.stores_constant h hk)]
    rfl
  have hlines : Assembly.constant s.valueType c.node =
      .address c.id :: (Assembly.values s.valueType c.value ++ [.op .st]) := rfl
  have hvalue : (Assembly.values s.valueType c.value).filter
      (fun l => (l.placed built.scopes).operation = .loadAddress .globals) = [] := by
    refine List.filter_eq_nil_iff.2 fun l hl => ?_
    have hnode : c.node ∈ o.root.constantNodes := by
      rw [o.constantNodes_root]
      exact List.mem_map_of_mem hc
    have hmem : l ∈ Assembly.constant s.valueType c.node := by simp [hlines, hl]
    simpa using hb.operation_ne h he.storesTo hl (Assembly.mem_main_of_mem_prologue
      (List.mem_append_right _ (List.mem_flatMap.2 ⟨_, hnode, hmem⟩)))
  rw [hlines, List.filter_cons_of_pos (by simpa using hload), List.filter_append, hvalue]
  rfl

theorem Builds.filter_initialisers :
    (Assembly.initialisers s.valueType o.root).filter
      (fun l => (l.placed built.scopes).operation = .loadAddress .globals) =
      o.constants.map fun c => .address c.id := by
  rw [Assembly.initialisers, o.constantNodes_root, List.flatMap_map, List.filter_flatMap,
    List.map_eq_flatMap]
  exact List.flatMap_congr fun c hc => hb.filter_constant h hc

/-! ## Modules -/

theorem Builds.store {as bs : List Instruction}
    (hs : (Assembly.program s.valueType o.root).map (Line.placed built.scopes) =
      as ++ .ofOperation .st :: bs) :
    ∃ before load value, as = before ++ load :: value ∧ .ofOperation .st ∉ value ∧
      built.code.Raises (sizeOfAll (before ++ [load])) (sizeOfAll as) 1 ∧
      (as.length < (Assembly.prologue s.valueType o.root).length ∧
          load.operation = .loadAddress .globals ∨
        (Assembly.prologue s.valueType o.root).length ≤ before.length ∧
          load.LoadsBeyond o.constants.length) := by
  -- only the line of the store becomes a store, so the code can be split where the lines are
  obtain ⟨xs, ys, hlines, rfl, hys⟩ := List.map_eq_append_iff.1 hs
  obtain ⟨l, zs, rfl, hl, -⟩ := List.map_eq_cons_iff.1 hys
  obtain rfl := Line.eq_st hl
  have hsplit := hlines
  rw [Assembly.program_eq] at hsplit
  obtain ⟨before, id, value, rfl, htarget, hst, hexec⟩ :=
    h.storesTo_prologue.split (hb.storesTo_behind h) hsplit
  refine ⟨before.map (Line.placed built.scopes), (Line.address id).placed built.scopes,
    value.map (Line.placed built.scopes), by simp, fun hmem => ?_, ?_, ?_⟩
  · obtain ⟨l, hl', hl⟩ := List.mem_map.1 hmem
    obtain rfl := Line.eq_st hl
    exact hst hl'
  · have hvalue := hexec fun l hl => hb.fit l (by rw [hlines]; simp [hl])
    have hassoc : before ++ .address id :: value = (before ++ [.address id]) ++ value := by simp
    have hc := hb.code
    rw [hlines, hassoc, List.append_assoc] at hc
    have hraises := raises_placed hc hvalue
    rwa [← span_append, ← sizeOfAll_placed built.scopes, ← sizeOfAll_placed built.scopes,
      ← hassoc, List.map_append] at hraises
  · rw [List.length_map, List.length_map]
    refine htarget.imp (fun ⟨hid, hlt⟩ => ⟨hlt, ?_⟩) fun ⟨hid, hle⟩ => ⟨hle, hid⟩
    obtain ⟨k, hk, sym, hsym, hplace⟩ := h.constants.holds.storage hid
    rw [Line.placed_address ⟨sym, hb.loaded.vars id sym _ hsym hplace, hplace⟩]
    rfl

theorem Builds.keepsConstants :
    KeepsConstants o.root built (Assembly.parts s.valueType built.scopes o.root) := by
  have hlength : o.root.constantNodes.length = o.constants.length := by
    rw [o.constantNodes_root, List.length_map]
  refine ⟨?segmented, ?slots, ?prologue, ?initialisers, ?statements, ?functions, ?stores⟩
  case segmented =>
    rw [Assembly.parts, ← List.map_append, ← List.map_append, ← List.append_assoc,
      ← Assembly.prologue_eq, ← Assembly.main_eq]
    exact hb.segmented
  case slots =>
    intro k n hn
    rw [o.constantNodes_root, List.getElem?_map, Option.map_eq_some_iff] at hn
    obtain ⟨c, hk, rfl⟩ := hn
    obtain ⟨hlt, -⟩ := List.getElem?_eq_some_iff.1 hk
    exact ⟨c.id, rfl, hb.stores_constant h hk, hb.signedValue_slot h (by omega)⟩
  case prologue =>
    intro i hi
    obtain ⟨l, hl, rfl⟩ := List.mem_map.1 hi
    exact hb.operation_ne h (storesTo_alloc _) hl (Assembly.mem_main_of_mem_prologue
      (List.mem_append_left _ hl))
  case initialisers =>
    rw [Assembly.parts, List.filter_map]
    refine (congrArg _ (hb.filter_initialisers h)).trans (List.ext_getElem? fun k => ?_)
    rw [o.constantNodes_root, List.map_map, List.getElem?_map, List.getElem?_mapIdx,
      List.getElem?_map]
    cases hk : o.constants[k]? with
    | none => rfl
    | some c => exact congrArg some (Line.placed_address (hb.stores_constant h hk))
  case statements =>
    intro i hi hload
    obtain ⟨l, hl, rfl⟩ := List.mem_map.1 hi
    have hmain : l ∈ Assembly.main s.valueType o.root := by
      rw [Assembly.main_eq]
      exact List.mem_append_right _ hl
    obtain ⟨id, rfl, hid⟩ := hb.exists_target h h.isSegment_main
      (fun id hid hf => h.function_of_main hid hf) h.storesTo_statements hl hmain hload
    rw [hlength]
    exact hb.main_target h hid
  case functions =>
    intro seg hseg i hi hload
    obtain ⟨lines, hlines, rfl⟩ := List.mem_map.1 hseg
    obtain ⟨l, hl, rfl⟩ := List.mem_map.1 hi
    obtain ⟨j, f, p, hf, rfl⟩ := exists_function_of_mem hlines
    have hv := h.functions j f hf
    obtain ⟨id, rfl, hid⟩ := hb.exists_target h (hv.isSegment p)
      (fun id hid hg => h.function_of_function hv hid hg) (hv.storesTo p) hl hl hload
    -- what a function stores to lies in its frame
    rw [hb.function_target h hf hid] at hload
    cases hload
  case stores =>
    intro as bs hs
    rw [Assembly.parts, ← List.map_flatten, ← List.map_append, ← List.map_append, ← List.map_append,
      ← List.append_assoc, ← Assembly.prologue_eq, ← Assembly.program_eq] at hs
    rw [Assembly.parts, ← List.map_append, ← Assembly.prologue_eq, List.length_map, hlength]
    exact hb.store h hs

end Outline

/-- In the code of every module the addresses of named constants are loaded once each, in order, to
compute the constants before the first statement of main. No function loads the address of a global
variable, and what is stored later goes to variables of main or into a frame. -/
theorem compile_keepsConstants {source : String} {dumps : Dumps} {m : Compiled}
    (h : (compile source dumps).1 = .ok m) :
    ∃ root built, CompilesTo source root built ∧ built.result = .ok m.moduleText ∧
      KeepsConstants root built
        (Assembly.parts (parseSource source .empty).scopes.valueType built.scopes root) := by
  obtain ⟨o, built, hc, hr, hv, hb⟩ := exists_builds h
  exact ⟨o.root, built, hc, hr, hb.keepsConstants hv⟩

/-- A program whose function has a local with the name of a named constant, and whose main reads and
increments a variable. -/
def constantsSource : String :=
  "CD20 p constants a = 2, b = a * 3 func f() : void a : int begin a = b; end " ++
    "main z : int begin input z; z += b; f(); end CD20 p"

theorem compile_keepsConstants_shadowed : ∃ m root built,
    (compile constantsSource .none).1 = .ok m ∧ CompilesTo constantsSource root built ∧
      built.result = .ok m.moduleText ∧ KeepsConstants root built (Assembly.parts
        (parseSource constantsSource .empty).scopes.valueType built.scopes root) := by
  have hok : (compile constantsSource .none).1.isOk = true := by
    rw [compile, parseSource, tokensOf_chars constantsSource (append_eq_ofList rfl rfl)]
    decide +kernel
  obtain ⟨m, hm⟩ := exists_of_isOk hok
  obtain ⟨root, built, hs⟩ := compile_keepsConstants hm
  exact ⟨m, root, built, hm, hs⟩

end StackCompiler
