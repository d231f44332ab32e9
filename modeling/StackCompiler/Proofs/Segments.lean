import StackCompiler.Proofs.Emission.Programs
import StackCompiler.Proofs.Wiring

/-!
# The code of main and of functions

The code of a program comes in segments, one for main and one for each function. A segment ends
with an instruction that does not go on to the next one, and its jumps lead to lines of its own.
-/

namespace StackCompiler

/-- A line starts at `target` if the lines lie one behind the other from `p` on. -/
def StartsAt (p : Nat) (lines : List Line) (target : Nat) : Prop :=
  ∃ as l bs, lines = as ++ l :: bs ∧ target = p + span as

theorem Boundary.startsAt {p target : Nat} {xs ys : List Line} (h : Boundary p xs target)
    (hy : ys ≠ []) : StartsAt p (xs ++ ys) target := by
  obtain ⟨as, bs, rfl, rfl⟩ := h
  cases hb : bs ++ ys with
  | nil => simp_all
  | cons l bs' => exact ⟨as, l, bs', by rw [List.append_assoc, hb], rfl⟩

theorem StartsAt.after {p target : Nat} {ys : List Line} (xs : List Line)
    (h : StartsAt (p + span xs) ys target) : StartsAt p (xs ++ ys) target := by
  obtain ⟨as, l, bs, rfl, rfl⟩ := h
  exact ⟨xs ++ as, l, bs, by simp, by simp [Nat.add_assoc]⟩

/-- The code of a part of a program that starts at `p`: it reserves slots, then loads only what is
visible, its jumps lead to its lines, and it ends with the given operation. -/
structure Scopes.IsSegment (s : Scopes) (visible : Symbol.Id → Prop) (last : Operation)
    (slots p : Nat) (lines : List Line) : Prop where
  linked : ∃ body, lines = Assembly.alloc slots ++ body ∧ s.Linked visible true body
  jumps : ∀ target, .jump target ∈ lines → StartsAt p lines target
  ends : ∃ as, lines = as ++ [.op last]

theorem Assembly.mem_alloc {slots : Nat} {l : Line} (h : l ∈ Assembly.alloc slots) :
    l = .count slots ∨ l = .op .alloc := by
  unfold Assembly.alloc at h
  split at h
  · simp at h
  · simpa using h

section Segments

variable {s : Scopes} {visible : Symbol.Id → Prop} {last : Operation} {slots p : Nat}
  {xs ys lines : List Line}

/-- Jumps of the first part may lead to its end, since more follows. -/
theorem Scopes.isSegment (hx : s.Linked visible true xs)
    (hj : JumpsWithin (p + span (Assembly.alloc slots)) xs) (hy : s.Linked visible false ys)
    (hl : last.isOrdinary = true) (hne : last ≠ .js2) :
    s.IsSegment visible last slots p
      (Assembly.alloc slots ++ (xs ++ (ys ++ [.op last]))) := by
  have hend : s.Linked visible true (ys ++ [.op last]) :=
    (hy.mono (fun _ h => h) nofun).append (Scopes.linked_op hl hne)
  refine ⟨⟨_, rfl, hx.append hend⟩, fun target ht => ?_, Assembly.alloc slots ++ (xs ++ ys),
    by simp⟩
  simp only [List.mem_append, List.mem_singleton, reduceCtorEq, or_false] at ht
  refine StartsAt.after _ ?_
  rcases ht with ht | ht | ht
  · exact absurd (Assembly.mem_alloc ht) (by simp)
  · exact (hj target ht).startsAt (by simp)
  · exact absurd ht (hy.not_jump target)

/-- A segment made of lines without jumps, of statements, and of more lines without jumps. -/
theorem Scopes.isSegment_statements {names : Names} {ret : Option DataType} {body : List Node}
    {types : Symbol.Id → DataType} {routine : Emitter.Routine} (hx : s.Linked visible false xs)
    (hb : ∀ m ∈ body, s.IsStatement names ret m) (hn : ∀ id, names.Sees id → visible id)
    (hy : s.Linked visible false ys) (hl : last.isOrdinary = true) (hne : last ≠ .js2) :
    s.IsSegment visible last slots p (Assembly.alloc slots ++ (xs ++
      (Assembly.blockOf types routine (Node.list .statements body)
        (p + span (Assembly.alloc slots) + span xs) ++ (ys ++ [.op last])))) := by
  rw [← List.append_assoc xs]
  refine isSegment ((hx.mono (fun _ h => h) nofun).append ?_)
    ((jumpsWithin_of_linked hx _).append ?_) hy hl hne
  · exact (composes_linked.blockOf (fun m hm p => (hb m hm).linked p) _).mono hn fun h => h
  · exact jumpsWithin_blockOf (fun m hm p => (hb m hm).jumpsWithin p) _

theorem Scopes.IsSegment.admits (h : s.IsSegment visible last slots p lines) {l : Line}
    (hl : l ∈ lines) : l = .count slots ∨ l = .op .alloc ∨ s.Admits visible true l := by
  obtain ⟨body, rfl, hb⟩ := h.linked
  rcases List.mem_append.1 hl with hl | hl
  · rcases Assembly.mem_alloc hl with hl | hl
    · exact .inl hl
    · exact .inr (.inl hl)
  · exact .inr (.inr (hb.admits l hl))

theorem Scopes.IsSegment.calls (h : s.IsSegment visible last slots p lines) {as bs : List Line}
    (hs : lines = as ++ .op .js2 :: bs) :
    ∃ as' id, as = as' ++ [.address id] ∧ visible id ∧ s.IsFunction id := by
  obtain ⟨body, hlines, hb⟩ := h.linked
  rw [hlines] at hs
  rcases List.append_eq_append_iff.1 hs with ⟨as', rfl, hbody⟩ | ⟨bs', hframe, hs'⟩
  · obtain ⟨as'', id, rfl, hid⟩ := hb.calls as' bs hbody
    exact ⟨Assembly.alloc slots ++ as'', id, by simp, hid⟩
  · cases bs' with
    | nil =>
      obtain ⟨as'', id, hn, -⟩ := hb.calls [] bs (by simpa using hs'.symm)
      simp at hn
    | cons l bs' =>
      obtain ⟨rfl, -⟩ : .op .js2 = l ∧ bs = bs' ++ body := by simpa using hs'
      have hmem : .op .js2 ∈ Assembly.alloc slots := by simp [hframe]
      exact absurd (Assembly.mem_alloc hmem) (by simp)

end Segments

/-- The symbols of some entries. -/
def Entry.Sees (entries : List Entry) (id : Symbol.Id) : Prop := id ∈ entries.map Prod.snd

theorem Names.Sees.of_namesOf {scopes : List (List Entry)} {id : Symbol.Id}
    (h : (Scopes.namesOf scopes).Sees id) : Entry.Sees scopes.flatten id := by
  obtain ⟨text, h⟩ := h
  obtain ⟨l, hl, hm⟩ := Scopes.mem_of_namesOf h
  exact List.mem_map.2 ⟨_, List.mem_flatten.2 ⟨l, hl, hm⟩, rfl⟩

namespace Assembly

variable {types : Symbol.Id → DataType} {routine : Emitter.Routine}

theorem blockOf_list_append (as bs : List Node) (p : Nat) :
    blockOf types routine (Node.list .statements (as ++ bs)) p =
      blockOf types routine (Node.list .statements as) p ++
        blockOf types routine (Node.list .statements bs)
          (p + span (blockOf types routine (Node.list .statements as) p)) := by
  induction as generalizing p with
  | nil => simp [blockOf]
  | cons a as ih =>
    rw [List.cons_append, blockOf_list_cons, blockOf_list_cons, ih]
    simp [Nat.add_assoc]

theorem getElem?_functions (p : Nat) (ns : List Node) (k : Nat) :
    (functions types p ns)[k]? = ns[k]?.map fun n =>
      function types n (p + span ((functions types p ns).take k).flatten) := by
  induction ns generalizing p k with
  | nil => simp [functions]
  | cons n ns ih =>
    cases k with
    | zero => simp [functions]
    | succ k => simp [functions, ih, Nat.add_assoc]

theorem length_functions (p : Nat) (ns : List Node) :
    (functions types p ns).length = ns.length := by
  induction ns generalizing p with
  | nil => rfl
  | cons n ns ih => simp [functions, ih]

theorem segments_zero (root : Node) : (segments types root)[0]? = some (main types root) := rfl

theorem segments_succ (root : Node) (k : Nat) :
    (segments types root)[k + 1]? = root.functionNodes[k]?.map fun n =>
      function types n (span ((segments types root).take (k + 1)).flatten) := by
  simp [segments, getElem?_functions]

end Assembly

theorem Scopes.IsBlock.split_return {s : Scopes} {names : Names} {ret : Option DataType}
    {b : Option Node} (h : s.IsBlock names ret b) (hr : Emitter.endsWithReturn b = true) :
    ∃ init value, b = Node.list .statements (init ++ [.mk .returns none none value none none]) ∧
      (∀ m ∈ init, s.IsStatement names ret m) ∧ s.IsReturn names ret value := by
  obtain ⟨body, rfl, hb⟩ := h
  have hl := Node.listed_list fun n hn => Node.kind_ne_of_not_list (hb n hn).not_list
    (rfl : Node.Kind.statements.isList = true)
  have hlast : (Node.list .statements body).bind (fun n => (n.items .statements).getLast?) =
      body.getLast? := by
    conv => rhs; rw [← hl]
    cases Node.list .statements body <;> rfl
  rw [Emitter.endsWithReturn, hlast] at hr
  cases hg : body.getLast? with
  | none => simp [hg] at hr
  | some last =>
    obtain ⟨init, rfl⟩ := List.getLast?_eq_some_iff.1 hg
    have hk : last.kind = .returns := by simpa [hg] using hr
    have hlast := hb last (by simp)
    cases hlast with
    | returns h => exact ⟨init, _, rfl, fun m hm => hb m (by simp [hm]), h⟩
    | assignment h =>
      obtain ⟨ha, -⟩ := h
      rw [Node.kind] at hk
      simp [hk, Node.Kind.compoundAssignments] at ha
    | print hp => rcases hp with rfl | rfl <;> cases hk
    | _ => cases hk

theorem Scopes.IsReturn.ends {s : Scopes} {names : Names} {ret : Option DataType}
    {value : Option Node} (h : s.IsReturn names ret value) (types : Symbol.Id → DataType) :
    ∃ ys, Assembly.returns types .function (.mk .returns none none value none none) =
      ys ++ [.op .retn] ∧ s.Linked names.Sees false ys := by
  cases h with
  | main | void => exact ⟨[], rfl, linked_nil⟩
  | @value t n hv he ht =>
    have hrval : s.Linked names.Sees false [.op .rval] := linked_op rfl nofun
    exact ⟨Assembly.values types n ++ [.op .rval], by simp [Assembly.returns, Node.left],
      he.linked.append hrval⟩

namespace Outline

variable {o : Outline} {s : Scopes} {types : Symbol.Id → DataType}

/-- What can be seen in main: its variables and everything global. -/
def MainSees (o : Outline) : Symbol.Id → Prop :=
  Entry.Sees (o.vars ++ o.globals o.functions.length)

theorem Valid.linked_constants (h : o.Valid s) :
    s.Linked o.MainSees false
      (o.root.constantNodes.flatMap (Assembly.constant types)) := by
  rw [o.constantNodes_root]
  refine .flatMap fun n hn => ?_
  obtain ⟨c, hc, rfl⟩ := List.mem_map.1 hn
  obtain ⟨k, hk⟩ := List.mem_iff_getElem?.1 hc
  obtain ⟨he, t, -, hv⟩ := h.constants.values k c hk
  have hsees : ∀ e ∈ o.constants.map Constant.entry, o.MainSees e.2 := fun e he =>
    List.mem_map.2 ⟨e, by simp [globals, he], rfl⟩
  have hid : s.IsStored o.MainSees c.id :=
    .inl ⟨hsees c.entry (List.mem_map.2 ⟨c, hc, rfl⟩), t, hv⟩
  have hvalue : s.Linked o.MainSees false (Assembly.values types c.value) := by
    refine he.linked.mono (fun id hid => ?_) fun hj => hj
    obtain ⟨e, he, rfl⟩ := List.mem_map.1 hid.of_namesOf
    rw [List.flatten_cons, List.flatten_nil, List.append_nil] at he
    obtain ⟨c', hc', rfl⟩ := List.mem_map.1 he
    exact hsees _ (List.mem_map.2 ⟨c', List.mem_of_mem_take hc', rfl⟩)
  exact (Scopes.linked_address hid).append (hvalue.append (Scopes.linked_op rfl (by simp)))

theorem Valid.isSegment_main (h : o.Valid s) :
    s.IsSegment o.MainSees .halt (o.constants.length + o.vars.length) 0
      (Assembly.main types o.root) := by
  obtain ⟨body, hbody, hb⟩ := h.body
  have hslots : o.root.constantNodes.length + o.root.variableNodes.length =
      o.constants.length + o.vars.length := by
    rw [o.constantNodes_root, o.variableNodes_root, List.length_map, List.length_map]
  have hmain : Assembly.main types o.root =
      Assembly.alloc (o.constants.length + o.vars.length) ++
        (o.root.constantNodes.flatMap (Assembly.constant types) ++
          (Assembly.blockOf types .main (Node.list .statements body)
            (0 + span (Assembly.alloc (o.constants.length + o.vars.length)) +
              span (o.root.constantNodes.flatMap (Assembly.constant types))) ++
            ([] ++ [.op .halt]))) := by
    rw [Assembly.main, Assembly.prologue, hslots, span_append, ← hbody]
    simp only [List.append_assoc, Nat.zero_add, List.nil_append]
    rfl
  rw [hmain]
  exact Scopes.isSegment_statements h.linked_constants hb
    (fun id hid => by simpa [MainSees] using hid.of_namesOf) Scopes.linked_nil rfl (by simp)

/-- What can be seen in a function: its parameters and locals, and what is global by then. -/
def Function.Sees (f : Function) (visible : List Entry) : Symbol.Id → Prop :=
  Entry.Sees (f.entries ++ visible)

theorem Function.Valid.isSegment {f : Function} {visible : List Entry} (h : f.Valid s visible)
    (p : Nat) : s.IsSegment (f.Sees visible) .retn f.locals.length p
      (Assembly.function types f.node p) := by
  have hsees : ∀ id, (Scopes.namesOf [f.entries, visible]).Sees id → f.Sees visible id :=
    fun id hid => by simpa [Function.Sees] using hid.of_namesOf
  have hf : Assembly.function types f.node p = Assembly.alloc f.locals.length ++ ([] ++
      (Assembly.blockOf types .function f.body
        (p + span (Assembly.alloc f.locals.length) + span []) ++
        if Emitter.endsWithReturn f.body then [] else [.op .retn])) := by
    rw [Assembly.function, f.localNodes_node, List.length_map, List.append_assoc]
    rfl
  rw [hf]
  cases hr : Emitter.endsWithReturn f.body with
  | false =>
    obtain ⟨body, hbody, hb⟩ := h.body
    rw [hbody]
    exact Scopes.isSegment_statements Scopes.linked_nil hb hsees Scopes.linked_nil rfl (by simp)
  | true =>
    obtain ⟨init, value, hbody, hi, hret⟩ := h.body.split_return hr
    obtain ⟨ys, hys, hy⟩ := hret.ends types
    have hsplit (q : Nat) : Assembly.blockOf types .function f.body q =
        Assembly.blockOf types .function (Node.list .statements init) q ++ (ys ++ [.op .retn]) := by
      rw [hbody, Assembly.blockOf_list_append, Node.list_singleton, ← hys]
      exact congrArg _ Assembly.block_returns
    rw [hsplit, if_pos rfl, List.append_nil]
    exact Scopes.isSegment_statements Scopes.linked_nil hi hsees (hy.mono hsees fun h => h) rfl
      (by simp)

theorem Valid.isSegment (h : o.Valid s) {k : Nat} {lines : List Line}
    (hk : (Assembly.segments types o.root)[k]? = some lines) :
    (k = 0 ∧ s.IsSegment o.MainSees .halt (o.constants.length + o.vars.length) 0 lines) ∨
      ∃ j f, k = j + 1 ∧ o.functions[j]? = some f ∧
        s.IsSegment (f.Sees (o.globals (j + 1))) .retn f.locals.length
          (span ((Assembly.segments types o.root).take k).flatten) lines := by
  cases k with
  | zero =>
    rw [Assembly.segments_zero, Option.some.injEq] at hk
    exact .inl ⟨rfl, hk ▸ h.isSegment_main⟩
  | succ j =>
    rw [Assembly.segments_succ, o.functionNodes_root, List.getElem?_map, Option.map_map,
      Option.map_eq_some_iff] at hk
    obtain ⟨f, hf, rfl⟩ := hk
    exact .inr ⟨j, f, rfl, hf, (h.functions j f hf).isSegment _⟩

end Outline

end StackCompiler
