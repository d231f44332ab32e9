import StackCompiler.Proofs.Postfix
import StackCompiler.Proofs.Rebuilding
import StackCompiler.Proofs.Simulation.Basic

/-!
# Expressions in any routine

The code of an expression without calls computes the expression wherever it stands: in main or in a
function, behind any code, over any stack, and with its variables and literals in any places of
memory. It is carried out from its first instruction to its last, so every operand is evaluated, the
left one before the right one.
-/

namespace StackCompiler

variable {L : Scopes} {st : Storage}

abbrev Memory := Storage → Option Value

def Memory.set (m : Memory) (place : Storage) (v : Value) : Memory :=
  fun other => if other = place then some v else m other

def Scopes.recall (L : Scopes) (m : Memory) : Store :=
  fun id => ((L.symbol? id).bind Symbol.storage).bind m

theorem Scopes.Stores.recall {id : Symbol.Id} (h : L.Stores id st) (m : Memory) :
    L.recall m id = m st := by
  obtain ⟨sym, hs, hst⟩ := h
  simp [Scopes.recall, hs, hst]

def Storage.Fits (st : Storage) : Prop := -(maxOffset : Int) - 1 ≤ st.offset ∧ st.offset ≤ maxOffset

instance (st : Storage) : Decidable st.Fits := inferInstanceAs (Decidable (_ ∧ _))

theorem Storage.Fits.signedValue (h : st.Fits) :
    signedValue (bigEndian 4 st.offset) = st.offset := by
  obtain ⟨hl, hu⟩ := h
  rw [maxOffset] at hl hu
  exact signedValue_bigEndian (by omega) (by omega)

/-- Memory holds the operand: a literal has its value there, a variable one of its type. -/
inductive Scopes.Held (L : Scopes) (types : Symbol.Id → DataType) (m : Memory) : Node → Prop
  | literal {text : String} {id : Symbol.Id} {n : Int} {st : Storage}
      (hn : Text.readWord? text = some n) (hst : L.Stores id st) (hf : st.Fits)
      (hv : m st = some (.int n)) :
      Held L types m (.mk .intLiteral (some text) (some id) none none none)
  | truth {k : Node.Kind} {text : Option String} {id : Symbol.Id}
      (hk : k = .trueLiteral ∨ k = .falseLiteral) :
      Held L types m (.mk k text (some id) none none none)
  | reference {text : Option String} {id : Symbol.Id} {st : Storage} {v : Value}
      (hst : L.Stores id st) (hf : st.Fits) (hv : m st = some v) (ht : v.type = types id) :
      Held L types m (.mk .reference text (some id) none none none)

namespace Machine

/-- The machine inside a routine, with all its regions of memory. -/
structure Point where
  position : Nat
  stack : List Cell
  memory : Memory
  output : List Output

structure Executed where
  position : Nat
  operation : Operation
  operand : Int
deriving DecidableEq, Repr

/-- The instruction pushes an operand of an expression. -/
def Executed.isPush (e : Executed) : Bool :=
  match e.operation with
  | .loadValue _ | .pushTrue | .pushFalse => true
  | _ => false

def Executed.ofPlaced (x : Code.Placed) : Executed :=
  ⟨x.position, x.instruction.operation, x.instruction.operand⟩

variable (M : Machine)

/-- Carries out an operation. Memory is there from the start, so that reserving slots takes their
number from the stack and no more; what does not touch memory is as outside of routines. -/
def perform (o : Operation) (operand : Int) (c : Point) : Option Point :=
  match o, c.stack with
  | .loadValue r, stack =>
    (c.memory ⟨r, operand⟩).map fun v => { c with stack := .value v :: stack }
  | .load, .address r offset :: stack =>
    (c.memory ⟨r, offset⟩).map fun v => { c with stack := .value v :: stack }
  | .st, .value v :: .address r offset :: stack =>
    some { c with stack := stack, memory := c.memory.set ⟨r, offset⟩ v }
  | o, stack =>
    (M.execute o operand ⟨c.position, stack, [], c.output⟩).map fun d =>
      { c with position := d.position, stack := d.stack, output := d.output }

/-- The instruction at the position of the machine, and where it leads to. -/
def next (c : Point) : Option (Executed × Point) :=
  (M.fetch c.position).bind fun i =>
    (M.perform i.1 i.2 { c with position := c.position + 1 + i.1.width }).map fun d =>
      (⟨c.position, i.1, i.2⟩, d)

/-- The machine carries out just the given instructions on its way from one point to another. -/
inductive Passes : Point → List Executed → Point → Prop
  | refl (c : Point) : Passes c [] c
  | step {c d e : Point} {i : Executed} {is : List Executed} (h : M.next c = some (i, d))
      (hs : Passes d is e) : Passes c (i :: is) e

variable {M}

def executedOf (L : Scopes) (p : Nat) (lines : List Line) : List Executed :=
  (Code.place p (lines.map (Line.placed L))).map .ofPlaced

theorem executedOf_cons (L : Scopes) (p : Nat) (l : Line) (lines : List Line) :
    executedOf L p (l :: lines) =
      .ofPlaced ⟨p, l.placed L⟩ :: executedOf L (p + l.instruction.size) lines := by
  have hsize : (l.placed L).size = l.instruction.size := Instruction.size_placed L _
  rw [← hsize]
  rfl

section Carries

variable {L : Scopes} {m : Memory} {output : List Output} {p : Nat} {stack : List Cell}
  {x : Option (List Cell)}

variable (M L m output) in
/-- The machine carries out the lines from position `p` on, one after the other, and leaves a stack,
or it cannot carry out one of them if there is none. Memory stays as it is. -/
def Carries (p : Nat) (lines : List Line) (stack : List Cell) (x : Option (List Cell)) : Prop :=
  x.elim
    (∃ done rest c, executedOf L p lines = done ++ rest ∧ rest ≠ [] ∧
      M.Passes ⟨p, stack, m, output⟩ done c ∧ M.next c = none)
    fun stack' => M.Passes ⟨p, stack, m, output⟩ (executedOf L p lines)
      ⟨p + span lines, stack', m, output⟩

theorem Holds.next_line {l : Line} {ys : List Line} (h : M.Holds L p (l :: ys))
    (hw : (l.placed L).operands.length = (l.placed L).operation.width)
    (he : ∀ q, M.perform (l.placed L).operation (l.placed L).operand ⟨q, stack, m, output⟩ =
      x.map fun stack' => ⟨q, stack', m, output⟩) :
    M.next ⟨p, stack, m, output⟩ = x.map fun stack' =>
      (.ofPlaced ⟨p, l.placed L⟩, ⟨p + l.instruction.size, stack', m, output⟩) := by
  have hsize : p + l.instruction.size = p + 1 + (l.placed L).operation.width := by
    have hplaced : (l.placed L).operands.length + 1 = l.instruction.size :=
      Instruction.size_placed L _
    omega
  rw [hsize, next, h.fetch hw, Option.bind_some, he, Option.map_map]
  rfl

variable (M L m) in
/-- The machine does with the stack what the item says. -/
structure Performs (i : Item) : Prop where
  width : (i.line.placed L).operands.length = (i.line.placed L).operation.width
  perform : ∀ q stack output,
    M.perform (i.line.placed L).operation (i.line.placed L).operand ⟨q, stack, m, output⟩ =
      (M.apply (L.recall m) stack i).map fun stack' => ⟨q, stack', m, output⟩

theorem Holds.carries {items : List Item} (hi : ∀ i ∈ items, M.Performs L m i)
    (h : M.Holds L p (items.map Item.line)) :
    M.Carries L m output p (items.map Item.line) stack
      (items.foldlM (M.apply (L.recall m)) stack) := by
  induction items generalizing p stack with
  | nil => exact .refl _
  | cons i items ih =>
    have hnext := h.next_line (hi i (by simp)).width fun q => (hi i (by simp)).perform q stack output
    rw [List.foldlM_cons, List.map_cons]
    cases ha : M.apply (L.recall m) stack i with
    | none =>
      rw [ha] at hnext
      exact ⟨[], _, _, rfl, List.cons_ne_nil _ _, .refl _, hnext⟩
    | some stack' =>
      rw [ha] at hnext
      have hrest : M.Carries L m output _ (items.map Item.line) stack' _ :=
        ih (fun i h => hi i (by simp [h])) h.tail
      show M.Carries L m output p _ stack (items.foldlM _ stack')
      cases hf : items.foldlM (M.apply (L.recall m)) stack' with
      | none =>
        rw [hf] at hrest
        obtain ⟨done, rest, c, hsplit, hne, hpass, hstuck⟩ := hrest
        refine ⟨.ofPlaced ⟨p, i.line.placed L⟩ :: done, rest, c, ?_, hne, .step hnext hpass, hstuck⟩
        rw [executedOf_cons, hsplit, List.cons_append]
      | some stack'' =>
        rw [hf] at hrest
        have hpass : M.Passes _ _ _ := hrest
        show M.Passes _ _ _
        rw [executedOf_cons, span_cons, ← Nat.add_assoc]
        exact .step hnext hpass

theorem performs_op {o : Operation} (ho : o.combines = true) : M.Performs L m (.op o) where
  width := by cases o <;> cases ho <;> rfl
  perform q stack output := by
    have hperform : M.perform o 0 ⟨q, stack, m, output⟩ =
        (M.execute o 0 ⟨q, stack, [], output⟩).map fun d => ⟨d.position, d.stack, m, d.output⟩ := by
      cases o <;> cases ho <;> rfl
    show M.perform o 0 ⟨q, stack, m, output⟩ = (M.compute stack o).map _
    rw [hperform, execute_of_combines ho, Option.map_map]
    rfl

end Carries

end Machine

/-! ## Operands in memory -/

/-- How the machine pushes an operand of an expression. -/
def Node.push? (L : Scopes) (n : Node) : Option (Operation × Int) :=
  match n.kind with
  | .trueLiteral => some (.pushTrue, 0)
  | .falseLiteral => some (.pushFalse, 0)
  | _ => ((n.symbol.bind L.symbol?).bind Symbol.storage).map fun st =>
    (.loadValue st.region, st.offset)

section Held

variable {L : Scopes} {types : Symbol.Id → DataType} {m : Memory} {o : Node}

/-- A truth is pushed by an operation of its own; all else lies at a place. -/
theorem Scopes.Held.push (h : L.Held types m o) :
    (∃ b : Bool, o.load = .op (if b then .pushTrue else .pushFalse) ∧
      o.push? L = some (if b then .pushTrue else .pushFalse, 0) ∧
      ∀ A, o.eval A (L.recall m) = some (.bool b)) ∨
    ∃ id st v, o.load = .value id ∧ L.Stores id st ∧ st.Fits ∧
      o.push? L = some (.loadValue st.region, st.offset) ∧ m st = some v ∧
      ∀ A, o.eval A (L.recall m) = some v := by
  have hstored {k : Node.Kind} {text : Option String} {id : Symbol.Id} {st : Storage}
      (hk : k = .intLiteral ∨ k = .reference) (hst : L.Stores id st) :
      (Node.mk k text (some id) none none none).push? L =
        some (.loadValue st.region, st.offset) := by
    obtain ⟨sym, hs, hst⟩ := hst
    rcases hk with rfl | rfl <;> simp [Node.push?, Node.kind, Node.symbol, hs, hst]
  cases h with
  | literal hn hst hf hv =>
    refine .inr ⟨_, _, _, rfl, hst, hf, hstored (.inl rfl) hst, hv, fun A => ?_⟩
    rw [Node.eval.eq_def]
    simp only [Option.bind_some, hn, Option.map_some]
  | truth hk =>
    rcases hk with rfl | rfl
    · exact .inl ⟨true, rfl, rfl, fun _ => rfl⟩
    · exact .inl ⟨false, rfl, rfl, fun _ => rfl⟩
  | reference hst hf hv ht =>
    exact .inr ⟨_, _, _, rfl, hst, hf, hstored (.inr rfl) hst, hv,
      fun _ => (hst.recall m).trans hv⟩

theorem Scopes.Held.performs (h : L.Held types m o) (M : Machine) :
    M.Performs L m (.operand o) := by
  rcases h.push with ⟨b, hload, -, heval⟩ | ⟨id, st, v, hload, hst, hf, -, hv, heval⟩
  · have hline : (Item.operand o).line = _ := hload
    constructor
    · rw [hline]
      cases b <;> rfl
    · intro q stack output
      rw [hline, Machine.apply, heval]
      cases b <;> rfl
  · have hline : (Item.operand o).line = _ := hload
    constructor
    · rw [hline, Line.placed_value hst]
      exact length_bigEndian 4 _
    · intro q stack output
      rw [hline, Machine.apply, heval, Line.placed_value hst]
      show M.perform (.loadValue st.region) (signedValue (bigEndian 4 st.offset)) _ = _
      rw [hf.signedValue]
      show (m st).map _ = _
      rw [hv]
      rfl

theorem Scopes.typed_of_held {n : Node} (hheld : ∀ o ∈ n.leaves, L.Held types m o) :
    ∀ o ∈ n.leaves, o.kind = .reference →
      ∀ id v, o.symbol = some id → L.recall m id = some v → v.type = types id := by
  intro o ho hk id v hid hv
  cases hheld o ho with
  | reference hst hf hm ht =>
    cases hid
    rw [hst.recall, hm] at hv
    cases hv
    exact ht
  | literal => cases hk
  | truth hk' => rcases hk' with rfl | rfl <;> cases hk

end Held

namespace Machine

/-- The operands that some instructions push, in their order. -/
def pushes (is : List Executed) : List (Option (Operation × Int)) :=
  (is.filter Executed.isPush).map fun i => some (i.operation, i.operand)

section Items

variable {L : Scopes} {types : Symbol.Id → DataType} {m : Memory} {items : List Item}

theorem pushes_items (hop : ∀ o, Item.op o ∈ items → o.combines = true)
    (hheld : ∀ o, Item.operand o ∈ items → L.Held types m o) (p : Nat) :
    pushes (executedOf L p (items.map Item.line)) =
      (items.filterMap Item.operand?).map (Node.push? L) := by
  induction items generalizing p with
  | nil => rfl
  | cons i items ih =>
    have ih := ih (fun o ho => hop o (by simp [ho])) fun o ho => hheld o (by simp [ho])
    rw [List.map_cons, executedOf_cons]
    cases i with
    | op o =>
      have ho := hop o (by simp)
      have hskip : ¬ (Executed.ofPlaced ⟨p, (Item.op o).line.placed L⟩).isPush = true := by
        cases o <;> cases ho <;> exact Bool.false_ne_true
      rw [pushes, List.filter_cons_of_neg hskip]
      exact ih _
    | operand o =>
      obtain ⟨l, hl⟩ : ∃ l, l = (Item.operand o).line := ⟨_, rfl⟩
      have hpush : (Executed.ofPlaced ⟨p, l.placed L⟩).isPush = true ∧ o.push? L =
          some ((l.placed L).operation, (l.placed L).operand) := by
        have hl : l = o.load := hl
        rcases (hheld o (by simp)).push with
          ⟨b, hload, hpush, -⟩ | ⟨id, st, -, hload, hst, hf, hpush, -⟩
        · rw [hpush, hl, hload]
          cases b <;> exact ⟨rfl, rfl⟩
        · rw [hpush, hl, hload, Line.placed_value hst]
          refine ⟨rfl, ?_⟩
          show _ = some (_, signedValue (bigEndian 4 st.offset))
          rw [hf.signedValue]
          rfl
      show _ = o.push? L :: (items.filterMap Item.operand?).map (Node.push? L)
      rw [← hl, pushes, List.filter_cons_of_pos hpush.1, List.map_cons, hpush.2]
      exact congrArg _ (ih _)

theorem resolves_items (hheld : ∀ o, Item.operand o ∈ items → L.Held types m o) :
    ∀ l ∈ items.map Item.line, l.Fits ∧ ∃ j, l.instruction.resolve L = .ok j := by
  intro l hl
  obtain ⟨i, hi, rfl⟩ := List.mem_map.1 hl
  cases i with
  | op o => exact ⟨trivial, _, rfl⟩
  | operand o =>
    show o.load.Fits ∧ ∃ j, o.load.instruction.resolve L = .ok j
    cases hheld o hi with
    | truth hk => rcases hk with rfl | rfl <;> exact ⟨trivial, _, rfl⟩
    | literal _ hst | reference hst => exact ⟨trivial, _, hst.resolve .pendingValue⟩

end Items

end Machine

/-! ## Emitting -/

namespace Emitter

variable {types : Symbol.Id → DataType} {x y : Emitter Unit} {c d : List Line} {t : DataType}
  {s : Scopes} {n : Node}

/-- The emitter appends the lines to any code, given the types of symbols, and changes no scopes. It
cannot fail. -/
def Adds (types : Symbol.Id → DataType) (x : Emitter Unit) (lines : List Line) : Prop :=
  ∀ (s : State) (is : List Instruction), s.scopes.valueType = types → s.code.Is is →
    wp (fun _ _ => False) x (fun _ s' =>
      s'.scopes = s.scopes ∧ s'.code.Is (is ++ lines.map Line.instruction)) s

theorem adds_pure : Adds types (pure ()) [] := by
  intro s is _ hcode
  exact ⟨rfl, by simpa using hcode⟩

theorem adds_line (l : Line) : Adds types (emit l.instruction) [l] := by
  intro s is _ hcode
  exact ⟨rfl, hcode.push l.instruction⟩

theorem adds_op (o : Operation) : Adds types (emitOp o) [.op o] := adds_line (.op o)

theorem Adds.append (hx : Adds types x c) (hy : Adds types y d) :
    Adds types (x >>= fun _ => y) (c ++ d) := by
  intro s is htypes hcode
  rw [wp_bind]
  refine wp_mono (hx s is htypes hcode) fun _ s' hs' => ?_
  obtain ⟨hscopes, hcode'⟩ := hs'
  refine wp_mono (hy s' _ (hscopes ▸ htypes) hcode') fun _ s'' hs'' => ?_
  rw [List.map_append, ← List.append_assoc, ← hscopes]
  exact hs''

theorem adds_relation {k : Node.Kind} {id : Symbol.Id} {o : Operation} (hx : Adds types x c)
    (hy : Adds types y d) (ht : types id = t) (hk : t.isBoolean → k = .equal ∨ k = .notEqual) :
    Adds types (relationCode k (some x) (some y) (some id) o)
      (c ++ d ++ Assembly.relation k t [] o) := by
  intro s is htypes hcode
  have hb (o : Operation) : Adds types (binaryCode k (some x) (some y) o)
      (c ++ d ++ [.op o]) := by
    rw [List.append_assoc]
    exact hx.append (hy.append (adds_op o))
  simp only [relationCode, childOf, pure_bind, wp_bind, wp_get, Option.map_some, Option.getD_some,
    htypes, ht, Assembly.relation, List.nil_append]
  by_cases hbool : t.isBoolean
  · rw [if_pos hbool, if_pos hbool]
    rcases hk hbool with rfl | rfl
    · have := (hb .xor).append (adds_op .not)
      rw [List.append_assoc] at this
      exact this s is htypes hcode
    · have := (hb .xor).append adds_pure
      rw [List.append_assoc] at this
      exact this s is htypes hcode
  · rw [if_neg hbool, if_neg hbool]
    have := (hb .sub).append (adds_op o)
    rw [List.append_assoc] at this
    exact this s is htypes hcode

theorem value_of_computes (h : s.Computes n t) : value n = values n := by
  refine if_neg ?_
  cases h with
  | truth hk => rcases hk with rfl | rfl <;> simp [Node.kind]
  | operation hk => exact ne_of_mem_of_not_mem (Node.Kind.mem_of_operation hk) (by decide)
  | relation hk => exact ne_of_mem_of_not_mem hk (by decide)
  | _ => simp [Node.kind]

theorem adds_value (h : s.Computes n t) :
    Adds s.valueType (value n) (Assembly.values s.valueType n) := by
  rw [value_of_computes h]
  induction h with
  | @integer text id => exact adds_line (.value id)
  | truth hk => rcases hk with rfl | rfl <;> exact adds_op _
  | @reference text id => exact adds_line (.value id)
  | not hn ht ih =>
    rw [← value_of_computes hn] at ih
    exact ih.append (adds_op .not)
  | operation hk hl hr ht ihl ihr =>
    rw [← value_of_computes hl] at ihl
    rw [← value_of_computes hr] at ihr
    obtain ⟨o, ho⟩ := exists_binaryOperation (Node.Kind.mem_of_operation hk)
    rw [values_binary ho, Assembly.values_binary ho]
    exact ihl.append (ihr.append (adds_op o))
  | relation hk hc hl hr ht ihl ihr =>
    rw [← value_of_computes hl] at ihl
    rw [← value_of_computes hr] at ihr
    obtain ⟨o, ho⟩ := exists_relationOperation hk
    obtain ⟨id, hid, hty⟩ := hl.typed
    rw [values_relation ho, Assembly.values_relation ho, Assembly.relation_eq, hid,
      Option.map_some, Option.getD_some, hty.valueType]
    refine adds_relation ihl ihr hty.valueType fun hb => ?_
    rcases hc with rfl | ⟨hk, -⟩
    · cases hb
    · exact hk

end Emitter

theorem Code.resolves_of_fillUp {xs : List Code.Placed} (h : (Code.fillUp L xs).1 = .ok ()) :
    ∀ x ∈ xs, ∃ i, x.instruction.resolve L = .ok i := by
  induction xs with
  | nil => simp
  | cons x xs ih =>
    cases hx : x.instruction.resolve L with
    | ok i =>
      rw [Code.fillUp_cons_ok hx] at h
      rw [List.forall_mem_cons]
      exact ⟨⟨i, hx⟩, ih h⟩
    | error d =>
      rw [Code.fillUp_cons_error hx] at h
      cases h

theorem Code.Is.resolves {c : Code} {is : List Instruction} (h : c.Is is)
    (hok : (c.resolve L).1 = .ok ()) : ∀ i ∈ is, ∃ j, i.resolve L = .ok j := by
  intro i hi
  rw [Code.resolve_eq_fillUp, h.instructions] at hok
  obtain ⟨as, bs, rfl⟩ := List.append_of_mem hi
  exact Code.resolves_of_fillUp hok ⟨0 + sizeOfAll as, i⟩ (Code.mem_place.2 ⟨as, bs, rfl, rfl⟩)

theorem Code.Is.exists_resolve {c : Code} {is : List Instruction} {lines : List Line}
    (h : c.Is (is ++ lines.map Line.instruction)) (his : ∀ i ∈ is, ∃ j, i.resolve L = .ok j)
    (hlines : ∀ i ∈ lines.map Line.instruction, ∃ j, i.resolve L = .ok j) :
    ∃ c', c.resolve L = (.ok (), c') ∧
      (c'.instructions.toList.drop is.length).map .ofPlaced =
        Machine.executedOf L (sizeOfAll is) lines ∧
      ∃ bytes, c'.codeBytes = bytes ++ bytesOf L lines ∧ bytes.length = sizeOfAll is := by
  obtain ⟨c', hresolve, hcode', -⟩ := h.resolve (List.forall_mem_append.2 ⟨his, hlines⟩)
  have hplaced : (lines.map Line.instruction).map (Instruction.placed L) =
      lines.map (Line.placed L) := List.map_map
  have hsize := Code.sizeOfAll_map_placed L is
  rw [List.map_append, hplaced] at hcode'
  refine ⟨c', hresolve, ?_, (is.map (Instruction.placed L)).flatMap Instruction.bytes, ?_, ?_⟩
  · have hlength : is.length = (Code.place 0 (is.map (Instruction.placed L))).length := by simp
    rw [hcode'.instructions, Code.place_append, hlength, List.drop_left, hsize, Nat.zero_add]
    rfl
  · simp only [hcode'.codeBytes, List.flatMap_append, List.flatMap_map, bytesOf]
  · rw [List.length_flatMap, ← hsize, sizeOfAll]
    rfl

namespace Machine

/-- The code of an expression, filled in and carried out from its first position, runs straight
through to its end, pushes the value of the expression on the stack and leaves memory as it is. It
pushes the operands from left to right, all of them. If an operation on integers has no result, the
machine cannot go on there. -/
theorem value_code_computes {s : Emitter.State} {is : List Instruction} {L : Scopes} {m : Memory}
    {n : Node} {t : DataType} (hcode : s.code.Is is) (hbefore : (s.code.resolve L).1 = .ok ())
    (hn : s.scopes.Computes n t)
    (hheld : ∀ o ∈ n.leaves, L.Held s.scopes.valueType m o) :
    ∃ s' code', Emitter.value n s = .ok () s' ∧ s'.scopes = s.scopes ∧
      s'.code.resolve L = (.ok (), code') ∧
      ∀ (M : Machine) (after : List UInt8) (stack : List Cell) (output : List Output),
        M.bytes = code'.codeBytes ++ after →
        let emitted := (code'.instructions.toList.drop is.length).map Executed.ofPlaced
        let start : Point := ⟨s.code.size, stack, m, output⟩
        let value := n.eval M.arithmetic (L.recall m)
        pushes emitted = n.leaves.map (Node.push? L) ∧
        (∀ v, value = some v → v.type = t ∧
          M.Passes start emitted ⟨s'.code.size, .value v :: stack, m, output⟩) ∧
        (value = none → ∃ done rest c, emitted = done ++ rest ∧ rest ≠ [] ∧
          M.Passes start done c ∧ M.next c = none) ∧
        (M.arithmetic.Total → ∃ v, value = some v) := by
  have hadds := Emitter.adds_value hn s is rfl hcode
  obtain ⟨items, hitems⟩ := exists_evaluates hn (Scopes.typed_of_held hheld)
  have hitem (o : Node) (hm : Item.operand o ∈ items) : L.Held s.scopes.valueType m o := by
    refine hheld o ?_
    rw [← hitems.leaves]
    exact List.mem_filterMap.2 ⟨_, hm, rfl⟩
  have hresolves := resolves_items hitem
  rw [hitems.code] at hadds
  cases hemit : Emitter.value n s with
  | error d s' => exact (wp_of_error hadds hemit).elim
  | ok u s' =>
    obtain ⟨hscopes, hcode'⟩ := wp_of_ok hadds hemit
    obtain ⟨code', hresolve, hemitted, bytes, hbytes, hlength⟩ := hcode'.exists_resolve
      (hcode.resolves hbefore) (List.forall_mem_map.2 fun l hl => (hresolves l hl).2)
    have hsize : s'.code.size = s.code.size + span (items.map Item.line) := by
      rw [hcode'.size, hcode.size, sizeOfAll_append]
      rfl
    refine ⟨s', code', rfl, hscopes, hresolve, fun M after stack output hM => ?_⟩
    have hholds : M.Holds L s.code.size (items.map Item.line) := by
      refine ⟨⟨bytes, after, ?_, hlength.trans hcode.size.symm⟩, fun l hl => (hresolves l hl).1⟩
      rw [hM, hbytes, List.append_assoc]
    have hcarries : M.Carries L m output s.code.size _ stack _ := hholds.carries fun i hi => by
      cases i with
      | operand o => exact (hitem o hi).performs M
      | op o => exact performs_op (hitems.combines o hi)
    rw [hitems.result] at hcarries
    rw [hemitted, ← hcode.size, hsize, ← hitems.leaves]
    refine ⟨pushes_items hitems.combines hitem _, fun v hv => ⟨hitems.type _ v hv, ?_⟩,
      fun hv => ?_, fun hA => ?_⟩
    · rw [hv] at hcarries
      exact hcarries
    · rw [hv] at hcarries
      exact hcarries
    · refine Option.isSome_iff_exists.1 (hitems.total _ hA fun o ho => ?_)
      rcases (hheld o ho).push with ⟨b, -, -, heval⟩ | ⟨id, st, v, -, -, -, -, -, heval⟩ <;>
        simp [heval]

end Machine

namespace Routine

/-- Symbols of a function: the parameter `n` and the local `k` with their places in the frame, a
literal, a global constant `flag`, and the types of what is computed from them. -/
def scopes : Scopes := { Scopes.empty with symbols := #[
  ⟨.intVariable, "n", .start, "f", [.dataType .int], some ⟨.declarations, -16⟩⟩,
  ⟨.intConstant, "2", .start, "", [.integerConstant 2, .dataType .int], some ⟨.constants, 40⟩⟩,
  ⟨.temporary, "", .start, "", [.dataType .int], none⟩,
  ⟨.intVariable, "k", .start, "f", [.dataType .int], some ⟨.declarations, 16⟩⟩,
  ⟨.temporary, "", .start, "", [.dataType .bool], none⟩,
  ⟨.boolConstant, "flag", .start, "", [.dataType .bool], some ⟨.globals, 0⟩⟩,
  ⟨.temporary, "", .start, "", [.dataType .bool], none⟩] }

def memory : Memory :=
  (((Memory.set (fun _ => none) ⟨.declarations, -16⟩ (.int 5)).set ⟨.constants, 40⟩ (.int 2)).set
    ⟨.declarations, 16⟩ (.int 4)).set ⟨.globals, 0⟩ (.bool false)

/-- The condition `n - 2 < k == flag`, which compares numbers first and then truths. -/
def condition : Node :=
  .mk .equal none (some 6)
    (some (.mk .less none (some 4)
      (some (.mk .subtract none (some 2)
        (some (.mk .reference (some "n") (some 0) none none none)) none
        (some (.mk .intLiteral (some "2") (some 1) none none none)))) none
      (some (.mk .reference (some "k") (some 3) none none none)))) none
    (some (.mk .reference (some "flag") (some 5) none none none))

def start : Emitter.State := ⟨scopes, Code.empty.push (.ofOperation .zero), #[]⟩

theorem computes_condition : scopes.Computes condition .bool := by
  have htwo : Text.readWord? "2" = some 2 := by decide
  refine .relation (by decide) (.inr ⟨.inl rfl, rfl⟩) (.relation (by decide) (.inl rfl)
    (.operation (.inr ⟨by decide, rfl⟩) (.reference ?_ (.inl rfl)) (.integer htwo ?_) ?_)
    (.reference ?_ (.inl rfl)) ?_) (.reference ?_ (.inr rfl)) ?_
  all_goals exact ⟨_, rfl, rfl⟩

theorem held_condition :
    ∀ o ∈ condition.leaves, scopes.Held scopes.valueType memory o := by
  have htwo : Text.readWord? "2" = some 2 := by decide
  have hoperands : condition.leaves = [.mk .reference (some "n") (some 0) none none none,
      .mk .intLiteral (some "2") (some 1) none none none,
      .mk .reference (some "k") (some 3) none none none,
      .mk .reference (some "flag") (some 5) none none none] := rfl
  simp only [hoperands, List.forall_mem_cons]
  refine ⟨?_, ?_, ?_, ?_, by simp⟩
  · exact .reference ⟨_, rfl, rfl⟩ (by decide) (v := .int 5) (by decide) rfl
  · exact .literal htwo ⟨_, rfl, rfl⟩ (by decide) (by decide)
  · exact .reference ⟨_, rfl, rfl⟩ (by decide) (v := .int 4) (by decide) rfl
  · exact .reference ⟨_, rfl, rfl⟩ (by decide) (v := .bool false) (by decide) rfl

/-- The condition is false where `n` is 5 and `k` is 4. -/
theorem eval_condition (A : Arithmetic) :
    condition.eval A (scopes.recall memory) = some (.bool false) := by
  rfl

theorem value_code_computes_condition :
    (start.code.resolve scopes).1 = .ok () ∧ scopes.Computes condition .bool ∧
    ∃ s' code', Emitter.value condition start = .ok () s' ∧
      s'.code.resolve scopes = (.ok (), code') ∧
      ∀ (M : Machine) (after : List UInt8) (stack : List Cell) (output : List Output),
        M.bytes = code'.codeBytes ++ after →
        M.Passes ⟨1, stack, memory, output⟩
          ((code'.instructions.toList.drop 1).map .ofPlaced)
          ⟨s'.code.size, .value (.bool false) :: stack, memory, output⟩ := by
  have hbefore : (start.code.resolve scopes).1 = .ok () := by
    rw [Code.resolve_eq_fillUp]
    rfl
  obtain ⟨s', code', hemit, -, hresolve, hrun⟩ := Machine.value_code_computes
    (Code.is_empty.push _) hbefore computes_condition held_condition
  refine ⟨hbefore, computes_condition, s', code', hemit, hresolve, ?_⟩
  intro M after stack output hM
  exact ((hrun M after stack output hM).2.1 _ (eval_condition _)).2

end Routine

end StackCompiler
