import StackCompiler.Proofs.Machine

/-!
# Steps of lines

What the machine does at a line, if it finds variables in their slots and literals at their
addresses. The slots hold the values of the variables in the order of their declarations.
-/

namespace StackCompiler

/-- The machine finds the variables of a program in its slots, and the literals at their places. -/
structure Machine.Serves (M : Machine) (s L : Scopes) (ids : List Symbol.Id) : Prop where
  nodup : ids.Nodup
  few : ids.length ≤ Emitter.maxHalf
  vars : ∀ k id, ids[k]? = some id → L.Stores id (.ofGlobal k)
  integers : ∀ text id n, s.resolveConstant text = some id →
    s.IsConstant id .intConstant (.integerConstant n) .int →
    ∃ offset ≤ maxOffset, L.Stores id ⟨.constants, offset⟩ ∧ M.integer? offset = some n
  strings : ∀ text id t, s.resolveConstant text = some id →
    s.IsConstant id .stringConstant (.stringConstant t) .string →
    ∃ offset ≤ maxOffset, L.Stores id ⟨.constants, offset⟩ ∧ M.string? offset = some t

/-- The machine in a state of the program. -/
def State.config (st : State) (ids : List Symbol.Id) (p : Nat) (stack : List Cell) :
    Machine.Config :=
  ⟨p, stack, ids.map st.store, st.output⟩

namespace Machine

variable {M : Machine} {s L : Scopes} {ids : List Symbol.Id} {p : Nat} {stack : List Cell}
  {slots : List (Option Value)} {output : List Output} {ys : List Line} {o : Operation}
  {id : Symbol.Id} {st : Storage}

theorem Holds.fetch_op (h : M.Holds L p (.op o :: ys)) (hw : o.width = 0) :
    M.fetch p = some (o, 0) := h.fetch hw.symm

theorem Holds.step_op (h : M.Holds L p (.op o :: ys)) (hw : o.width = 0) :
    M.step ⟨p, stack, slots, output⟩ = M.execute o 0 ⟨p + 1, stack, slots, output⟩ := by
  rw [step, h.fetch_op hw, Option.bind_some, hw]

theorem Holds.not_halted (h : M.Holds L p (.op o :: ys)) (hw : o.width = 0) (hne : o ≠ .halt) :
    ¬ M.Halted ⟨p, stack, slots, output⟩ := by
  rintro ⟨operand, hf⟩
  rw [h.fetch_op hw] at hf
  cases hf
  exact hne rfl

theorem Holds.halted (h : M.Holds L p (.op .halt :: ys)) :
    M.Halted ⟨p, stack, slots, output⟩ := ⟨0, h.fetch_op rfl⟩

theorem Holds.yields_op {α : Type} {x : Option α} {f : α → Config} (h : M.Holds L p (.op o :: ys))
    (hw : o.width = 0) (hne : o ≠ .halt)
    (he : M.execute o 0 ⟨p + 1, stack, slots, output⟩ = x.map f) :
    M.Yields ⟨p, stack, slots, output⟩ x f :=
  yields_step ((h.step_op hw).trans he) (h.not_halted hw hne)

theorem Holds.leads_op {c : Config} (h : M.Holds L p (.op o :: ys)) (hw : o.width = 0)
    (he : M.execute o 0 ⟨p + 1, stack, slots, output⟩ = some c) :
    M.Leads ⟨p, stack, slots, output⟩ c :=
  .of_step ((h.step_op hw).trans he)

theorem Holds.step_jump {target : Nat} (h : M.Holds L p (.jump target :: ys)) :
    M.step ⟨p, stack, slots, output⟩ =
      some ⟨p + 5, .address .constants target :: stack, slots, output⟩ := by
  have hf : M.fetch p = some (.loadAddress .constants, (Emitter.jump target).operand) :=
    h.fetch (length_bigEndian 4 target)
  rw [step, hf, Line.operand_jump h.head_fits]
  rfl

theorem Holds.leads_count {n : Nat} (h : M.Holds L p (.count n :: ys)) :
    M.Leads ⟨p, stack, slots, output⟩
      ⟨p + (Line.count n).instruction.size, .value (.int n) :: stack, slots, output⟩ := by
  have hop := Line.operand_count h.head_fits
  refine .of_step ?_
  have hf := h.fetch
  rw [Line.placed_count] at hf
  rcases Line.operation_count n with ⟨hi, -⟩ | hi
  all_goals
    rw [hi] at hf hop ⊢
    rw [step, hf (length_bigEndian _ _), hop]
    rfl

theorem Holds.fetch_value (h : M.Holds L p (.value id :: ys)) (hst : L.Stores id st)
    (hv : signedValue (bigEndian 4 st.offset) = st.offset) :
    M.fetch p = some (.loadValue st.region, st.offset) := by
  have hf := h.fetch
  rw [Line.placed_value hst] at hf
  rw [hf (length_bigEndian 4 _), Instruction.operand, Instruction.operands, hv]
  rfl

theorem Holds.step_address (h : M.Holds L p (.address id :: ys)) (hst : L.Stores id st)
    (hv : signedValue (bigEndian 4 st.offset) = st.offset) :
    M.step ⟨p, stack, slots, output⟩ =
      some ⟨p + 5, .address st.region st.offset :: stack, slots, output⟩ := by
  have hf := h.fetch
  rw [Line.placed_address hst] at hf
  rw [step, hf (length_bigEndian 4 _), Instruction.operand, Instruction.operands, hv]
  rfl

theorem slot?_mul (k : Nat) : slot? (8 * k) = some k := by
  rw [slot?, if_pos ⟨by omega, by omega⟩, Option.some.injEq]
  omega

theorem map_set_store {σ : Store} {v : Value} {k : Nat} (hnd : ids.Nodup) (hk : ids[k]? = some id) :
    (ids.map σ).set k (some v) = ids.map (σ.set id v) := by
  refine List.ext_getElem? fun j => ?_
  rw [List.getElem?_set, List.length_map, List.getElem?_map, List.getElem?_map]
  have hlt : k < ids.length := (List.getElem?_eq_some_iff.1 hk).1
  by_cases hj : k = j
  · subst hj
    rw [if_pos rfl, if_pos hlt, hk]
    simp [Store.set]
  · rw [if_neg hj]
    cases hi : ids[j]? with
    | none => rfl
    | some other =>
      have hne : other ≠ id := by
        rintro rfl
        exact hj ((List.getElem?_inj hlt hnd).1 (hk.trans hi.symm))
      simp [Store.set, hne]

theorem Serves.slot (hM : M.Serves s L ids) (hid : id ∈ ids) :
    ∃ k, ids[k]? = some id ∧ L.Stores id (.ofGlobal k) ∧
      signedValue (bigEndian 4 (8 * k)) = 8 * k := by
  obtain ⟨k, hk⟩ := List.mem_iff_getElem?.1 hid
  have hlt : k < ids.length := (List.getElem?_eq_some_iff.1 hk).1
  have hfew := hM.few
  rw [Emitter.maxHalf] at hfew
  exact ⟨k, hk, hM.vars k id hk, signedValue_bigEndian (by omega) (by omega)⟩

section Steps

variable {st : State} {id : Symbol.Id}

theorem Holds.yields_variable (h : M.Holds L p (.value id :: ys)) (hM : M.Serves s L ids)
    (hid : id ∈ ids) : M.Yields (st.config ids p stack) (st.store id)
      fun v => st.config ids (p + 5) (.value v :: stack) := by
  obtain ⟨k, hk, hst, hv⟩ := hM.slot hid
  have hf := h.fetch_value hst hv
  refine yields_step ?_ ?_
  · have hslot : (ids.map st.store)[k]?.join = st.store id := by
      rw [List.getElem?_map, hk]
      rfl
    have he : M.step (st.config ids p stack) =
        ((slot? (8 * k)).bind fun k => (ids.map st.store)[k]?.join).map
          fun v => st.config ids (p + 5) (.value v :: stack) := by
      rw [step, State.config, hf]
      rfl
    rw [he, slot?_mul, Option.bind_some, hslot]
  · rintro ⟨operand, hh⟩
    rw [State.config, hf] at hh
    cases hh

theorem Holds.leads_integer {text : String} {n : Int} (h : M.Holds L p (.value id :: ys))
    (hM : M.Serves s L ids) (hr : s.resolveConstant text = some id)
    (hc : s.IsConstant id .intConstant (.integerConstant n) .int) :
    M.Leads (st.config ids p stack) (st.config ids (p + 5) (.value (.int n) :: stack)) := by
  obtain ⟨offset, hle, hst, hn⟩ := hM.integers text id n hr hc
  rw [maxOffset] at hle
  have hv : signedValue (bigEndian 4 (offset : Int)) = offset :=
    signedValue_bigEndian (by omega) (by omega)
  have he : M.step (st.config ids p stack) = (M.integer? offset).map
      fun n => st.config ids (p + 5) (.value (.int n) :: stack) := by
    rw [step, State.config, h.fetch_value hst hv]
    rfl
  exact .of_step (by rw [he, hn]; rfl)

theorem Holds.leads_address (h : M.Holds L p (.address id :: ys)) (hM : M.Serves s L ids)
    (hid : id ∈ ids) : ∃ k : Nat, ids[k]? = some id ∧ M.Leads (st.config ids p stack)
      (st.config ids (p + 5) (.address .globals (8 * k) :: stack)) := by
  obtain ⟨k, hk, hst, hv⟩ := hM.slot hid
  exact ⟨k, hk, .of_step (h.step_address hst hv)⟩

theorem Holds.leads_store {k : Nat} {v : Value} (h : M.Holds L p (.op .st :: ys))
    (hM : M.Serves s L ids) (hk : ids[k]? = some id) :
    M.Leads (st.config ids p (.value v :: .address .globals (8 * k) :: stack))
      (State.config ⟨st.store.set id v, st.output⟩ ids (p + 1) stack) := by
  have hlt : k < ids.length := (List.getElem?_eq_some_iff.1 hk).1
  refine h.leads_op rfl ?_
  show ((slot? (8 * k)).filter (· < (ids.map st.store).length)).map
    (fun k => (⟨p + 1, stack, (ids.map st.store).set k (some v), st.output⟩ : Config)) = _
  rw [slot?_mul, Option.filter_some, List.length_map, if_pos (decide_eq_true hlt), Option.map_some,
    map_set_store hM.nodup hk]
  rfl

end Steps

end Machine

end StackCompiler
