import StackCompiler.Proofs.Composition
import StackCompiler.Proofs.Emission.Statements

/-!
# What lines refer to

The lines of a well-formed statement load symbols that it names, call functions only right after
loading their address, and jump to where lines of the same statement start, or to its end.
-/

namespace StackCompiler

/-- Operations that have no operand and do not reserve slots. -/
def Operation.isOrdinary : Operation → Bool
  | lb | lh | loadValue _ | loadAddress _ | pendingValue | pendingAddress | alloc => false
  | _ => true

def Names.Sees (names : Names) (id : Symbol.Id) : Prop := ∃ text, names text = some id

namespace Scopes

variable (s : Scopes) (visible : Symbol.Id → Prop)

def IsFunction (id : Symbol.Id) : Prop := ∃ sym, s.symbol? id = some sym ∧ sym.kind = .function

theorem Takes.isFunction {s : Scopes} {id : Symbol.Id} {args : List Node} (h : s.Takes id args) :
    s.IsFunction id := by
  obtain ⟨sym, hs, hk, -⟩ := h
  exact ⟨sym, hs, hk⟩

/-- The symbol is a visible variable or a literal of the pool. -/
def IsStored (id : Symbol.Id) : Prop :=
  (visible id ∧ ∃ t, s.IsVariable id t) ∨ ∃ text, s.resolveConstant text = some id

variable (jumps : Bool)

/-- Lines that can stand in the code of a statement, or of one that has no jumps. -/
inductive Admits : Line → Prop
  | op {o : Operation} (ho : o.isOrdinary = true) : Admits (.op o)
  | count (n : Nat) : Admits (.count n)
  | jump (hj : jumps = true) (target : Nat) : Admits (.jump target)
  | value {id : Symbol.Id} (h : s.IsStored visible id) : Admits (.value id)
  | address {id : Symbol.Id} (h : s.IsStored visible id) : Admits (.address id)
  | function {id : Symbol.Id} (hv : visible id) (h : s.IsFunction id) :
      Admits (.address id)

/-- All lines are admitted, and each call follows the load of a function. -/
structure Linked (lines : List Line) : Prop where
  admits : ∀ l ∈ lines, s.Admits visible jumps l
  calls : ∀ as bs, lines = as ++ .op .js2 :: bs →
    ∃ as' id, as = as' ++ [.address id] ∧ visible id ∧ s.IsFunction id

variable {s visible jumps} {xs ys : List Line}

theorem linked_nil : s.Linked visible jumps [] := ⟨by simp, by simp⟩

theorem Linked.append (hx : s.Linked visible jumps xs) (hy : s.Linked visible jumps ys) :
    s.Linked visible jumps (xs ++ ys) := by
  refine ⟨fun l hl => ?_, fun as bs h => ?_⟩
  · rcases List.mem_append.1 hl with hl | hl
    · exact hx.admits l hl
    · exact hy.admits l hl
  · rcases List.append_eq_append_iff.1 h with ⟨as', rfl, hs⟩ | ⟨bs', hs, hs'⟩
    · obtain ⟨as'', id, rfl, hf⟩ := hy.calls as' bs hs
      exact ⟨xs ++ as'', id, by simp, hf⟩
    · cases bs' with
      | nil =>
        obtain ⟨as'', id, hn, -⟩ := hy.calls [] bs (by simpa using hs'.symm)
        simp at hn
      | cons l bs' =>
        obtain ⟨rfl, rfl⟩ : .op .js2 = l ∧ bs = bs' ++ ys := by simpa using hs'
        exact hx.calls as bs' hs

theorem Linked.mono {visible' : Symbol.Id → Prop} {jumps' : Bool} (h : s.Linked visible jumps xs)
    (hv : ∀ id, visible id → visible' id) (hj : jumps = true → jumps' = true) :
    s.Linked visible' jumps' xs := by
  have hst : ∀ id, s.IsStored visible id → s.IsStored visible' id := fun id => Or.imp_left
    fun ⟨hid, ht⟩ => ⟨hv id hid, ht⟩
  refine ⟨fun l hl => ?_, fun as bs hs => ?_⟩
  · cases h.admits l hl with
    | op ho => exact .op ho
    | count n => exact .count n
    | jump h target => exact .jump (hj h) target
    | value h => exact .value (hst _ h)
    | address h => exact .address (hst _ h)
    | function hn h => exact .function (hv _ hn) h
  · obtain ⟨as', id, ha, hid, hf⟩ := h.calls as bs hs
    exact ⟨as', id, ha, hv id hid, hf⟩

theorem Linked.flatMap {γ : Type} {items : List γ} {code : γ → List Line}
    (h : ∀ n ∈ items, s.Linked visible jumps (code n)) :
    s.Linked visible jumps (items.flatMap code) :=
  flatMap_of_append linked_nil Linked.append h

theorem linked_single {l : Line} (h : s.Admits visible jumps l) (hl : l ≠ .op .js2) :
    s.Linked visible jumps [l] := by
  refine ⟨by simpa using h, fun as bs hs => ?_⟩
  cases as with
  | nil => simp_all
  | cons a as => simp at hs

theorem linked_op {o : Operation} (ho : o.isOrdinary = true) (hj : o ≠ .js2) :
    s.Linked visible jumps [.op o] :=
  linked_single (.op ho) (by simpa using hj)

theorem linked_call {id : Symbol.Id} (hn : visible id) (hf : s.IsFunction id) :
    s.Linked visible jumps [.address id, .op .js2] := by
  refine ⟨?_, fun as bs hs => ?_⟩
  · simp only [List.mem_cons, List.not_mem_nil, or_false, forall_eq_or_imp, forall_eq]
    exact ⟨.function hn hf, .op rfl⟩
  · cases as with
    | nil => simp at hs
    | cons a as =>
      cases as with
      | nil =>
        obtain ⟨rfl, -⟩ : .address id = a ∧ _ := by simpa using hs
        exact ⟨[], id, rfl, hn, hf⟩
      | cons a as => simp at hs

section Expressions

variable {names : Names} {n : Node} {types : Symbol.Id → DataType} {id : Symbol.Id}
  {args : List Node} {o : Operation} {k : Node.Kind}

theorem linked_binary (hk : Emitter.binaryOperation? k = some o) :
    s.Linked names.Sees jumps [.op o] := by
  cases k <;> cases hk <;> exact linked_op rfl nofun

theorem linked_relation {t : DataType} (hk : Emitter.relationOperation? k = some o)
    (hx : s.Linked names.Sees jumps xs) :
    s.Linked names.Sees jumps (Assembly.relation k t xs o) := by
  have ho : s.Linked names.Sees jumps [.op o] := by
    cases k <;> cases hk <;> exact linked_op rfl nofun
  have hnot : s.Linked names.Sees jumps (if k = .equal then [.op .not] else []) := by
    split
    · exact linked_op rfl nofun
    · exact linked_nil
  unfold Assembly.relation
  split
  · exact hx.append ((linked_op rfl nofun : s.Linked names.Sees jumps [.op .xor]).append hnot)
  · exact hx.append ((linked_op rfl nofun : s.Linked names.Sees jumps [.op .sub]).append ho)

theorem linked_valuesOf (h : ∀ a ∈ args, s.Linked names.Sees jumps (Assembly.values types a)) :
    s.Linked names.Sees jumps (Assembly.valuesOf types (Node.list .expressionList args)) := by
  rw [Assembly.valuesOf_list]
  exact .flatMap fun a ha => h a (by simpa using ha)

theorem linked_takes {text : String} {arity : Nat} (hn : names text = some id)
    (hc : s.Takes id args) (h : ∀ a ∈ args, s.Linked names.Sees jumps (Assembly.values types a)) :
    s.Linked names.Sees jumps (Assembly.call types id arity
      (Assembly.valuesOf types (Node.list .expressionList args))) := by
  obtain ⟨sym, hs, hk, -⟩ := hc
  have hcount : s.Linked names.Sees jumps [.count arity] := linked_single (.count arity) nofun
  unfold Assembly.call
  rw [List.append_assoc]
  refine .append ?_ ((linked_valuesOf h).append (hcount.append (linked_call ⟨text, hn⟩ ⟨sym, hs, hk⟩)))
  split
  · exact linked_nil
  · exact linked_op rfl nofun

theorem linked_value (h : s.IsStored visible id) : s.Linked visible jumps [.value id] :=
  linked_single (.value h) nofun

theorem linked_address (h : s.IsStored visible id) : s.Linked visible jumps [.address id] :=
  linked_single (.address h) nofun

theorem IsExpression.linked (h : s.IsExpression names n) :
    s.Linked names.Sees jumps (Assembly.values types n) := by
  induction h with
  | integer _ hp | real _ hp => exact linked_value (.inr ⟨_, hp⟩)
  | truth hk => rcases hk with rfl | rfl <;> exact linked_op rfl nofun
  | reference hn hv => exact linked_value (.inl ⟨⟨_, hn⟩, _, hv⟩)
  | call hn hc ht hv ha ih =>
    rw [Assembly.values_call]
    exact linked_takes hn hc ih
  | not hn hb ht ih => exact ih.append (linked_op rfl nofun)
  | logical hk hl hr tl tr ht ihl ihr =>
    obtain ⟨o, ho⟩ := Emitter.exists_binaryOperation (List.mem_append_left _ hk)
    rw [Assembly.values_binary ho]
    exact ihl.append (ihr.append (linked_binary ho))
  | arithmetic hk hl hr tl tr nt nu ht ihl ihr =>
    obtain ⟨o, ho⟩ := Emitter.exists_binaryOperation (List.mem_append_right _ hk)
    rw [Assembly.values_binary ho]
    exact ihl.append (ihr.append (linked_binary ho))
  | relation hk hl hr tl tr hc ht ihl ihr =>
    obtain ⟨o, ho⟩ := Emitter.exists_relationOperation hk
    rw [Assembly.values_relation ho]
    exact linked_relation ho (ihl.append ihr)

end Expressions

section Statements

variable {names : Names} {n : Node} {types : Symbol.Id → DataType} {routine : Emitter.Routine}

theorem IsAssignment.linked (h : s.IsAssignment names n) :
    s.Linked names.Sees jumps (Assembly.assignment types n) := by
  cases h with
  | @intro k text id source t hk hn hv hm he tv hc =>
    have hst : s.IsStored names.Sees id := .inl ⟨⟨_, hn⟩, _, hv⟩
    rcases hk with rfl | hk
    · exact (linked_address hst).append (he.linked.append (linked_op rfl nofun))
    · obtain ⟨o, ho⟩ := Emitter.exists_compoundOperation hk
      have hop : s.Linked names.Sees jumps [.op o] := by
        cases k <;> cases ho <;> exact linked_op rfl nofun
      rw [Assembly.assignment]
      simp only [Node.kind, ho]
      exact (linked_address hst).append ((linked_value hst).append
        (he.linked.append (hop.append (linked_op rfl nofun))))

theorem IsInputTarget.linked (h : s.IsInputTarget names n) :
    s.Linked names.Sees jumps (Assembly.read types n) := by
  cases h with
  | @intro text id t hn hv hm ht =>
    have hread : s.Linked names.Sees jumps [.op (if types id = .int then .readInt else .readReal)] := by
      split <;> exact linked_op rfl nofun
    exact (linked_address (.inl ⟨⟨_, hn⟩, _, hv⟩)).append (hread.append (linked_op rfl nofun))

theorem composes_linked : s.Composes names types (s.Linked names.Sees jumps) where
  nil := linked_nil
  append := Linked.append
  op ho := by
    fin_cases ho <;> exact linked_op rfl nofun
  value h := h.linked
  call hn hc ha := linked_takes hn hc fun a h => (ha a h).linked
  assignment h := h.linked
  read h := h.linked
  string hp := (linked_address (.inr ⟨_, hp⟩)).append (linked_op rfl nofun)

theorem IsStatement.linked {ret : Option DataType} (h : s.IsStatement names ret n) (p : Nat) :
    s.Linked names.Sees true (Assembly.block types routine n p) :=
  composes_linked.statement (fun target => linked_single (.jump rfl target) nofun) h p

end Statements

theorem Linked.not_jump (h : s.Linked visible false xs) (target : Nat) : .jump target ∉ xs := by
  intro hm
  cases h.admits _ hm with
  | jump hj => cases hj

end Scopes

/-! ## Jumps -/

/-- A line starts at `target` if the lines lie one behind the other from `p` on, or they end
there. -/
def Boundary (p : Nat) (lines : List Line) (target : Nat) : Prop :=
  ∃ as bs, lines = as ++ bs ∧ target = p + span as

/-- All jumps lead to boundaries. -/
def JumpsWithin (p : Nat) (lines : List Line) : Prop :=
  ∀ target, .jump target ∈ lines → Boundary p lines target

section Jumps

variable {p target : Nat} {xs ys zs : List Line}

theorem boundary_end (h : target = p + span xs) : Boundary p xs target :=
  ⟨xs, [], (List.append_nil xs).symm, h⟩

theorem Boundary.within {q : Nat} {lines : List Line} (h : Boundary q ys target)
    (xs zs : List Line) (hl : lines = xs ++ (ys ++ zs)) (hq : q = p + span xs) :
    Boundary p lines target := by
  obtain ⟨as, bs, rfl, rfl⟩ := h
  exact ⟨xs ++ as, bs ++ zs, by simp [hl], by simp [hq, Nat.add_assoc]⟩

theorem jumpsWithin_of_linked {s : Scopes} {visible : Symbol.Id → Prop}
    (h : s.Linked visible false xs) (p : Nat) :
    JumpsWithin p xs := fun target ht => absurd ht (h.not_jump target)

theorem JumpsWithin.append (hx : JumpsWithin p xs) (hy : JumpsWithin (p + span xs) ys) :
    JumpsWithin p (xs ++ ys) := by
  intro target ht
  rcases List.mem_append.1 ht with ht | ht
  · exact (hx target ht).within [] ys (by simp) (by simp)
  · exact (hy target ht).within xs [] (by simp) rfl

end Jumps

section Statements

variable {s : Scopes} {names : Names} {n : Node} {types : Symbol.Id → DataType}
  {routine : Emitter.Routine} {p : Nat} {start test : List Line} {body otherwise : Nat → List Line}

theorem jumpsWithin_ifThen (ht : s.Linked names.Sees false test) (hb : ∀ q, JumpsWithin q (body q)) :
    JumpsWithin p (Assembly.ifThen p test body) := by
  obtain ⟨q, hq⟩ : ∃ q, q = p + 5 + span test + 1 := ⟨_, rfl⟩
  have hl : Assembly.ifThen p test body =
      .jump (q + span (body q)) :: (test ++ .op .bf :: body q) := by
    rw [Assembly.ifThen, ← hq]
  rw [hl]
  intro target hm
  simp only [List.mem_cons, List.mem_append, reduceCtorEq, false_or, Line.jump.injEq] at hm
  rcases hm with rfl | hm | hm
  · exact boundary_end (by simp; omega)
  · exact absurd hm (ht.not_jump target)
  · exact (hb q target hm).within (.jump (q + span (body q)) :: (test ++ [.op .bf])) []
      (by simp) (by simp; omega)

theorem jumpsWithin_ifElse (ht : s.Linked names.Sees false test) (hb : ∀ q, JumpsWithin q (body q))
    (ho : ∀ q, JumpsWithin q (otherwise q)) :
    JumpsWithin p (Assembly.ifElse p test body otherwise) := by
  obtain ⟨q, hq⟩ : ∃ q, q = p + 5 + span test + 1 := ⟨_, rfl⟩
  obtain ⟨q', hq'⟩ : ∃ q', q' = q + span (body q) + 5 + 1 := ⟨_, rfl⟩
  obtain ⟨e, he⟩ : ∃ e, e = q' + span (otherwise q') := ⟨_, rfl⟩
  have hl : Assembly.ifElse p test body otherwise =
      .jump q' :: (test ++ .op .bf :: (body q ++ .jump e :: .op .br :: otherwise q')) := by
    rw [Assembly.ifElse, ← hq, ← hq', he]
  rw [hl]
  intro target hm
  simp only [List.mem_cons, List.mem_append, reduceCtorEq, false_or, Line.jump.injEq] at hm
  rcases hm with rfl | hm | hm | rfl | hm
  · exact ⟨.jump target :: (test ++ .op .bf :: (body q ++ [.jump e, .op .br])),
      otherwise target, by simp, by simp; omega⟩
  · exact absurd hm (ht.not_jump target)
  · exact (hb q target hm).within (.jump q' :: (test ++ [.op .bf]))
      (.jump e :: .op .br :: otherwise q') (by simp) (by simp; omega)
  · exact boundary_end (by simp; omega)
  · exact (ho q' target hm).within
      (.jump q' :: (test ++ .op .bf :: (body q ++ [.jump e, .op .br]))) [] (by simp)
      (by simp; omega)

theorem jumpsWithin_forLoop (hs : s.Linked names.Sees false start) (ht : s.Linked names.Sees false test)
    (hb : ∀ q, JumpsWithin q (body q)) : JumpsWithin p (Assembly.forLoop p start test body) := by
  obtain ⟨q, hq⟩ : ∃ q, q = p + span start + 5 + span test + 1 := ⟨_, rfl⟩
  obtain ⟨e, he⟩ : ∃ e, e = q + span (body q) + 5 + 1 := ⟨_, rfl⟩
  have hl : Assembly.forLoop p start test body = start ++ .jump e ::
      (test ++ .op .bf :: (body q ++ [.jump (p + span start), .op .br])) := by
    rw [Assembly.forLoop, ← hq, he]
  rw [hl]
  intro target hm
  simp only [List.mem_cons, List.mem_append, reduceCtorEq, false_or, Line.jump.injEq,
    List.not_mem_nil, or_false] at hm
  rcases hm with hm | rfl | hm | hm | rfl
  · exact absurd hm (hs.not_jump target)
  · exact boundary_end (by simp; omega)
  · exact absurd hm (ht.not_jump target)
  · exact (hb q target hm).within (start ++ .jump e :: (test ++ [.op .bf]))
      [.jump (p + span start), .op .br] (by simp) (by simp; omega)
  · exact ⟨start, _, rfl, rfl⟩

theorem jumpsWithin_repeatLoop (hs : s.Linked names.Sees false start) (ht : s.Linked names.Sees false test)
    (hb : ∀ q, JumpsWithin q (body q)) : JumpsWithin p (Assembly.repeatLoop p start test body) := by
  intro target hm
  simp only [Assembly.repeatLoop, List.mem_cons, List.mem_append, reduceCtorEq, or_false,
    Line.jump.injEq, List.not_mem_nil] at hm
  rcases hm with hm | hm | rfl | hm
  · exact absurd hm (hs.not_jump target)
  · exact (hb _ target hm).within start (.jump (p + span start) :: (test ++ [.op .bf])) rfl rfl
  · exact ⟨start, _, rfl, rfl⟩
  · exact absurd hm (ht.not_jump target)

theorem jumpsWithin_blockOf {b : List Node}
    (h : ∀ m ∈ b, ∀ p, JumpsWithin p (Assembly.block types routine m p)) (p : Nat) :
    JumpsWithin p (Assembly.blockOf types routine (Node.list .statements b) p) := by
  induction b generalizing p with
  | nil => exact nofun
  | cons m b ih =>
    rw [Assembly.blockOf_list_cons]
    exact (h m (by simp) p).append (ih (fun m hm => h m (by simp [hm])) _)

theorem Scopes.IsStatement.jumpsWithin {ret : Option DataType} (h : s.IsStatement names ret n)
    (p : Nat) : JumpsWithin p (Assembly.block types routine n p) := by
  induction h generalizing p with
  | assignment h =>
    obtain ⟨hk, _, _, _, _, _, _⟩ := id h
    rw [Assembly.block_assignment hk]
    exact jumpsWithin_of_linked h.linked p
  | forLoop hs ha he ht hb ih =>
    rw [Assembly.block_forLoop]
    exact jumpsWithin_forLoop (composes_linked.assignments ha) he.linked (jumpsWithin_blockOf ih)
  | ifThen hs he ht hb ih =>
    rw [Assembly.block_ifThen]
    exact jumpsWithin_ifThen he.linked (jumpsWithin_blockOf ih)
  | ifElse hs he ht hb ho ihb iho =>
    rw [Assembly.block_ifElse]
    exact jumpsWithin_ifElse he.linked (jumpsWithin_blockOf ihb) (jumpsWithin_blockOf iho)
  | repeatLoop hs ha he ht hb ih =>
    rw [Assembly.block_repeatLoop]
    exact jumpsWithin_repeatLoop (composes_linked.assignments ha) he.linked (jumpsWithin_blockOf ih)
  | input hne ht =>
    rw [Assembly.block_input]
    exact jumpsWithin_of_linked (composes_linked.input ht) p
  | print hk hne he =>
    rw [Assembly.block_print hk]
    exact jumpsWithin_of_linked (composes_linked.print he) p
  | returns h =>
    rw [Assembly.block_returns]
    exact jumpsWithin_of_linked (composes_linked.returns h) p
  | call hn hc ha =>
    rw [Assembly.block_callStatement]
    exact jumpsWithin_of_linked (linked_takes hn hc fun a h => (ha a h).linked) p

end Statements

end StackCompiler
