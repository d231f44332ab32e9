import StackCompiler.Proofs.Simulation.Expressions

/-!
# Assignments and output on the machine

The code of an assignment stores a value in a slot, and that of a print statement adds to the output.
The variables keep their types.
-/

namespace StackCompiler

theorem foldlM_induct {β : Type} (P : β → Prop) {f : Node → β → Option β} {items : List Node}
    {b b' : β} (hb : P b) (h : items.foldlM (fun b n => f n b) b = some b')
    (hP : ∀ n ∈ items, ∀ b b', P b → f n b = some b' → P b') : P b' := by
  induction items generalizing b with
  | nil =>
    cases h
    exact hb
  | cons n items ih =>
    rw [List.foldlM_cons] at h
    obtain ⟨c, hc, h⟩ := Option.bind_eq_some_iff.1 h
    exact ih (hP n (by simp) b c hb hc) h fun m hm => hP m (by simp [hm])

section Types

variable {A : Arithmetic} {s : Scopes} {names : Names} {ids : List Symbol.Id} {σ σ' : Store}
  {id : Symbol.Id} {v : Value} {n : Node}

theorem Store.Typed.set (h : σ.Typed s ids) (hv : v.type = s.valueType id) :
    (σ.set id v).Typed s ids := by
  intro other ho w hw
  unfold Store.set at hw
  split at hw
  · next heq =>
    cases hw
    rw [hv, heq]
  · exact h other ho w hw

theorem exists_compoundKind {k : Node.Kind} (hk : k ∈ Node.Kind.compoundAssignments) :
    ∃ k' o, Node.compoundKind? k = some k' ∧ k' ∈ Node.Kind.arithmetic ∧
      Emitter.compoundOperation? k = some o ∧ Emitter.binaryOperation? k' = some o := by
  fin_cases hk <;> exact ⟨_, _, rfl, by decide, rfl, rfl⟩

theorem Scopes.IsAssignment.assign_typed (h : s.IsAssignment names n) (hN : names.Within s ids)
    (hp : n.All (Node.IsPlain s.valueType)) (hσ : σ.Typed s ids) (ha : n.assign A σ = some σ') :
    σ'.Typed s ids := by
  obtain @⟨k, text, id, value, t, hk, hn, hv, -, he, tv, hc⟩ := h
  have htype : s.valueType id = t := hv.hasType.valueType
  rcases hk with rfl | hk
  · obtain ⟨v, hv, rfl⟩ := Option.map_eq_some_iff.1 ha
    refine hσ.set ?_
    rw [htype]
    exact he.eval_type hN (hp.right _ rfl) hσ tv hv
  · obtain ⟨k', -, hkind, hk', -, -⟩ := exists_compoundKind hk
    have hint : t = .int := tv.eq_int (hp.right _ rfl).self (hc hk)
    rw [Node.assign, Node.kind, hkind] at ha
    obtain ⟨v, hv, rfl⟩ := Option.map_eq_some_iff.1 ha
    obtain ⟨old, -, hv⟩ := Option.bind_eq_some_iff.1 hv
    obtain ⟨w, -, hv⟩ := Option.bind_eq_some_iff.1 hv
    refine hσ.set ?_
    rw [htype, hint]
    exact Arithmetic.type_of_arithmetic hk' hv

theorem Node.store_printEntry {st st' : State} (h : n.printEntry A st = some st') :
    st'.store = st.store := by
  obtain ⟨e, -, rfl⟩ := Option.map_eq_some_iff.1 h
  rfl

theorem Node.store_print {st st' : State} (h : n.print A st = some st') :
    st'.store = st.store := by
  obtain ⟨st₁, hf, rfl⟩ := Option.map_eq_some_iff.1 h
  have hst : st₁.store = st.store :=
    foldlM_induct (fun st₁ : State => st₁.store = st.store) rfl hf fun n hn st₁ st₂ hst he =>
      (Node.store_printEntry he).trans hst
  split
  · exact hst
  · exact hst

end Types

namespace Machine

variable {M : Machine} {s L : Scopes} {ids : List Symbol.Id} {names : Names} {p q : Nat}
  {stack : List Cell} {st : State} {n : Node}

theorem Holds.yields_foldlM {β : Type} (P : β → Prop) (config : β → Nat → Config)
    {f : Node → β → Option β} {code : Node → List Line} {items : List Node} {b : β}
    (h : M.Holds L p (items.flatMap code)) (hb : P b)
    (hy : ∀ n ∈ items, ∀ b p, P b → M.Holds L p (code n) →
      M.Yields (config b p) (f n b) fun b' => config b' (p + span (code n)))
    (hP : ∀ n ∈ items, ∀ b b', P b → f n b = some b' → P b') :
    M.Yields (config b p) (items.foldlM (fun b n => f n b) b)
      fun b' => config b' (p + span (items.flatMap code)) := by
  induction items generalizing b p with
  | nil => exact .refl _
  | cons n items ih =>
    rw [List.flatMap_cons] at h ⊢
    rw [List.foldlM_cons, span_append, ← Nat.add_assoc]
    refine (hy n (by simp) b p hb h.left).bind fun b' hb' => ?_
    exact ih h.right (hP n (by simp) b b' hb hb') (fun m hm => hy m (by simp [hm]))
      fun m hm => hP m (by simp [hm])

theorem Pushes.yields_store {id : Symbol.Id} (h : M.Pushes s L ids st n) (hM : M.Serves s L ids)
    (hid : id ∈ ids)
    (hc : M.Holds L p (.address id :: (Assembly.values s.valueType n ++ [.op .st]))) :
    M.Yields (st.config ids p stack) ((n.eval M.arithmetic st.store).map (st.store.set id))
      fun σ => State.config ⟨σ, st.output⟩ ids
        (p + span (.address id :: (Assembly.values s.valueType n ++ [.op .st]))) stack := by
  have hspan : p + span (.address id :: (Assembly.values s.valueType n ++ [.op .st])) =
      p + 5 + span (Assembly.values s.valueType n) + 1 := by
    simp only [span_cons, span_append, size_address, size_op, span_nil]
    omega
  obtain ⟨k, hk, haddress⟩ : ∃ k : Nat, ids[k]? = some id ∧ M.Leads (st.config ids p stack)
      (st.config ids (p + 5) (.address .globals (8 * k) :: stack)) := hc.leads_address hM hid
  rw [hspan]
  refine haddress.yields ((h _ _ hc.tail.left).map fun v _ => ?_)
  exact hc.tail.right.leads_store hM hk

theorem Serves.yields_assign (hM : M.Serves s L ids) (hN : names.Within s ids)
    (hσ : st.store.Typed s ids) (h : s.IsAssignment names n)
    (hp : n.All (Node.IsPlain s.valueType))
    (hc : M.Holds L p (Assembly.assignment s.valueType n)) :
    M.Yields (st.config ids p stack) (n.assign M.arithmetic st.store)
      fun σ => State.config ⟨σ, st.output⟩ ids (p + span (Assembly.assignment s.valueType n))
        stack := by
  obtain @⟨k, text, id, value, t, hk, hn, hv, -, he, tv, hnum⟩ := h
  have hid := hN.vars text id t hn hv
  have hpv := hp.right _ rfl
  rcases hk with rfl | hk
  · exact (hM.pushes hN hσ he hpv).yields_store hM hid hc
  · -- a compound assignment computes like the operation on the variable and the value
    obtain rfl := tv.eq_int hpv.self (hnum hk)
    obtain ⟨k', o, hkind, hk', ho, ho'⟩ := exists_compoundKind hk
    have hcode : Assembly.assignment s.valueType (.mk k none (some id)
        (some (Scopes.variableNode text id)) none (some value)) =
          .address id :: (Assembly.values s.valueType (.mk k' none (some id)
            (some (Scopes.variableNode text id)) none (some value)) ++ [.op .st]) := by
      rw [Assembly.values_binary ho', Assembly.assignment, Node.kind, ho]
      simp [Scopes.variableNode, Assembly.values, Assembly.valuesOf, Node.symbol, Node.right]
    have hassign : (Node.mk k none (some id) (some (Scopes.variableNode text id)) none
        (some value)).assign M.arithmetic st.store = ((Node.mk k' none (some id)
          (some (Scopes.variableNode text id)) none (some value)).eval M.arithmetic
            st.store).map (st.store.set id) := by
      rw [Node.eval_binary _ _ _ _ _ _ _ (by simp [hk']), Node.assign, Node.kind, hkind]
      rfl
    rw [hcode] at hc ⊢
    rw [hassign]
    have hvar : s.IsExpression names (Scopes.variableNode text id) := .reference hn hv
    refine (hM.pushes_of_computes hN hσ (.operation (.inr ⟨hk', rfl⟩)
      (.reference hv.hasType (.inl rfl)) (he.computes hN hpv tv) hv.hasType) ?_).yields_store hM
        hid hc
    rw [Node.leaves_binary, List.forall_mem_append]
    exact ⟨hvar.leaves (hp.left _ rfl), he.leaves hpv⟩

theorem Serves.yields_assignAll {start : List Node} (hM : M.Serves s L ids)
    (hN : names.Within s ids) (hσ : st.store.Typed s ids)
    (h : ∀ n ∈ start, s.IsAssignment names n)
    (hp : Node.AllIn (Node.IsPlain s.valueType) (Node.list .assignList start))
    (hc : M.Holds L p (Assembly.assignments s.valueType (Node.list .assignList start))) :
    M.Yields (st.config ids p stack)
      (Node.onStore (Node.assignAll M.arithmetic (Node.list .assignList start)) st)
      fun st' => st'.config ids
        (p + span (Assembly.assignments s.valueType (Node.list .assignList start))) stack := by
  have hl := Node.listed_list fun n hn => Node.kind_ne_of_not_list (h n hn).not_list
    (rfl : Node.Kind.assignList.isList = true)
  have hplain := Node.all_of_list hp
  rw [Assembly.assignments, hl] at hc ⊢
  have hy : M.Yields (st.config ids p stack)
      (start.foldlM (fun σ n => n.assign M.arithmetic σ) st.store)
      fun σ => State.config ⟨σ, st.output⟩ ids
        (p + span (start.flatMap (Assembly.assignment s.valueType))) stack :=
    hc.yields_foldlM (fun σ => σ.Typed s ids)
      (fun σ p => State.config ⟨σ, st.output⟩ ids p stack) hσ
      (fun n hn σ p hσ hc => hM.yields_assign hN hσ (h n hn) (hplain n hn) hc)
      fun n hn σ σ' hσ ha => (h n hn).assign_typed hN (hplain n hn) hσ ha
  rw [Node.onStore, Node.assignAll, hl]
  exact hy.map fun σ _ => .refl _

theorem Serves.yields_printEntry (hM : M.Serves s L ids) (hN : names.Within s ids)
    (hσ : st.store.Typed s ids) (h : s.IsPrintEntry names n)
    (hp : n.All (Node.IsPlain s.valueType))
    (hc : M.Holds L p (Assembly.printEntry s.valueType n)) :
    M.Yields (st.config ids p stack) (n.printEntry M.arithmetic st)
      fun st' => st'.config ids (p + span (Assembly.printEntry s.valueType n)) stack := by
  cases h with
  | @string text id hr hs =>
    obtain ⟨offset, hle, hst, ht⟩ := hM.strings _ id text hr hs
    rw [maxOffset] at hle
    have hv : signedValue (bigEndian 4 (offset : Int)) = offset :=
      signedValue_bigEndian (by omega) (by omega)
    have hc : M.Holds L p [.address id, .op .printString] := hc
    have hprint : M.Leads (st.config ids (p + 5) (.address .constants offset :: stack))
        (State.config ⟨st.store, st.output ++ [.text text]⟩ ids (p + 5 + 1) stack) := by
      refine hc.tail.leads_op rfl ?_
      show (M.string? offset).map _ = _
      rw [ht]
      rfl
    exact Leads.trans (.of_step (hc.step_address hst hv)) hprint
  | value h =>
    rw [Assembly.printEntry, if_neg h.not_string] at hc ⊢
    rw [Node.printEntry, if_neg h.not_string, Option.map_map, span_append, ← Nat.add_assoc]
    refine (hM.pushes hN hσ h hp p stack hc.left).map fun v _ => ?_
    exact hc.right.leads_op rfl rfl

theorem Serves.yields_print {k : Node.Kind} {entries : List Node} (hM : M.Serves s L ids)
    (hN : names.Within s ids) (hσ : st.store.Typed s ids)
    (h : ∀ n ∈ entries, s.IsPrintEntry names n)
    (hp : Node.AllIn (Node.IsPlain s.valueType) (Node.list .printList entries))
    (hc : M.Holds L p (Assembly.print s.valueType
      (.mk k none none (Node.list .printList entries) none none))) :
    M.Yields (st.config ids p stack)
      ((Node.mk k none none (Node.list .printList entries) none none).print M.arithmetic st)
      fun st' => st'.config ids (p + span (Assembly.print s.valueType
        (.mk k none none (Node.list .printList entries) none none))) stack := by
  have hl := Node.listed_list fun n hn => Node.kind_ne_of_not_list (h n hn).not_list
    (rfl : Node.Kind.printList.isList = true)
  have hplain := Node.all_of_list hp
  rw [Assembly.print, Node.left, hl] at hc ⊢
  rw [Node.print, Node.left, hl, span_append, ← Nat.add_assoc]
  have hy : M.Yields (st.config ids p stack)
      (entries.foldlM (fun st n => n.printEntry M.arithmetic st) st)
      fun st' => st'.config ids (p + span (entries.flatMap (Assembly.printEntry s.valueType)))
        stack :=
    hc.left.yields_foldlM (fun st : State => st.store.Typed s ids)
      (fun st p => st.config ids p stack) hσ
      (fun n hn st p hσ hc => hM.yields_printEntry hN hσ (h n hn) (hplain n hn) hc)
      fun n hn st st' hσ he => by rw [Node.store_printEntry he]; exact hσ
  refine hy.map fun st' _ => ?_
  have hr := hc.right
  by_cases hk : (Node.mk k none none (Node.list .printList entries) none none).kind = .println
  · simp only [if_pos hk] at hr ⊢
    exact hr.leads_op rfl rfl
  · simp only [if_neg hk]
    exact .refl _

end Machine

end StackCompiler
