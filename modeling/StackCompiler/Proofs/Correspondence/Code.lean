import StackCompiler.Proofs.Completeness
import StackCompiler.Proofs.Correspondence.Programs

/-!
# Code of programs that correspond

No instruction depends on a name or on a place in the source. The emitters of two trees that differ
in their texts only therefore append the same instructions, find the same sizes of frames, and run
into the same limits of the machine.
-/

namespace StackCompiler.Correspondence

open StackCompiler.Emitter

variable (r : Correspondence)

/-- The emitters have appended the same code, in scopes that correspond. -/
structure SameCode (s t : Emitter.State) : Prop where
  code : s.code = t.code
  scopes : r.SameScopes s.scopes t.scopes

/-- The same defect, unless it is one of a broken tree. -/
def SameDefect (d d' : Defect) : Prop :=
  d = d' ∨ d.tellsLimit = false ∧ d'.tellsLimit = false

variable {r}

section

variable {α β : Type} {R : α → β → Prop}

variable (r) in
/-- For the two programs, the emitters run in step. -/
abbrev CodeAlike (R : α → β → Prop) (x : Emitter α) (y : Emitter β) : Prop :=
  Lockstep r.SameCode SameDefect R x y

variable (r) in
/-- The emitters append the same code. -/
abbrev SameUnit (x y : Emitter Unit) : Prop := r.CodeAlike (fun _ _ => True) x y

variable {a b : String} {o o' : Option Node} {n n' : Node} {x y x' y' : Emitter Unit}

theorem codeAlike_fail (d : Defect) : r.CodeAlike R (throw d) (throw d) := .throw (.inl rfl)

theorem sameUnit_emit (i : Instruction) : r.SameUnit (emit i) (emit i) :=
  .modify fun _ _ h => ⟨congrArg (Code.push · i) h.code, h.scopes⟩

theorem sameUnit_emitOp (op : Operation) : r.SameUnit (emitOp op) (emitOp op) := sameUnit_emit _

theorem sameUnit_emitValue (id : Symbol.Id) : r.SameUnit (emitValue id) (emitValue id) :=
  sameUnit_emit _

theorem sameUnit_emitAddress (id : Symbol.Id) : r.SameUnit (emitAddress id) (emitAddress id) :=
  sameUnit_emit _

theorem sameUnit_emitCount (count : Nat) : r.SameUnit (emitCount count) (emitCount count) := by
  unfold emitCount
  split
  · exact sameUnit_emit _
  · split
    · exact sameUnit_emit _
    · exact codeAlike_fail _

theorem sameUnit_emitAlloc (slots : Nat) : r.SameUnit (emitAlloc slots) (emitAlloc slots) := by
  unfold emitAlloc
  split
  · exact .pure trivial
  · exact (sameUnit_emitCount slots).bind fun _ _ _ => sameUnit_emitOp _

theorem codeAlike_position : r.CodeAlike Eq position position :=
  fun _ _ h => .ok (congrArg Code.size h.code) h

theorem codeAlike_jumpTarget (position : Nat) :
    r.CodeAlike Eq (jumpTarget position) (jumpTarget position) := by
  unfold jumpTarget
  split
  · exact .pure rfl
  · exact codeAlike_fail _

theorem codeAlike_emitOpenJump : r.CodeAlike Eq emitOpenJump emitOpenJump := by
  refine codeAlike_position.bind fun p q hpq => ?_
  exact (sameUnit_emit _).bind fun _ _ _ => .pure hpq

theorem sameUnit_emitJump (target : Nat) : r.SameUnit (emitJump target) (emitJump target) := by
  refine (codeAlike_jumpTarget target).bind ?_
  rintro p _ rfl
  exact sameUnit_emit _

theorem sameUnit_closeJump (position : Nat) :
    r.SameUnit (closeJump position) (closeJump position) := by
  refine codeAlike_position.bind ?_
  rintro p _ rfl
  refine (codeAlike_jumpTarget p).bind ?_
  rintro target _ rfl
  refine Lockstep.get.bind fun s t hs => ?_
  rw [hs.code]
  cases t.code.patch position (bigEndian 4 target) with
  | ok code => exact .modify fun _ _ h => ⟨rfl, h.scopes⟩
  | error d => exact codeAlike_fail d

theorem sameUnit_enterScope (h : r.SameScope a b) :
    r.SameUnit (enterScope a) (enterScope b) := by
  refine Lockstep.get.bind fun s t hs => ?_
  have he := hs.scopes.enter? h
  generalize s.scopes.enter? a = o, t.scopes.enter? b = o' at he
  cases he with
  | none => exact .throw (.inr ⟨rfl, rfl⟩)
  | some he => exact .modify fun _ _ h => ⟨h.code, he⟩

theorem sameUnit_leaveScope : r.SameUnit leaveScope leaveScope :=
  .modify fun _ _ h => ⟨h.code, h.scopes.leave⟩

theorem codeAlike_valueType (id : Symbol.Id) :
    r.CodeAlike r.SameType (valueType id) (valueType id) :=
  fun _ _ h => .ok (h.scopes.valueType id) h

theorem codeAlike_symbolOf (k : Node.Kind) (symbol : Option Symbol.Id) :
    r.CodeAlike Eq (symbolOf k symbol) (symbolOf k symbol) := by
  cases symbol with
  | none => exact codeAlike_fail _
  | some id => exact .pure rfl

theorem codeAlike_childOf (k : Node.Kind) {c : Option α} {d : Option β} (h : Option.Rel R c d) :
    r.CodeAlike R (childOf k c) (childOf k d) := by
  cases h with
  | none => exact codeAlike_fail _
  | some h => exact .pure h

theorem SameTree.rel (h : r.SameTree o o') : Option.Rel r.SameNode o o' := by
  cases h with
  | none => exact .none
  | node hv hl hc hm => exact .some (.node hv hl hc hm)

theorem sameUnit_binaryCode {l l' m m' : Option (Emitter Unit)} (hl : Option.Rel r.SameUnit l l')
    (hm : Option.Rel r.SameUnit m m') (k : Node.Kind) (op : Operation) :
    r.SameUnit (binaryCode k l m op) (binaryCode k l' m' op) := by
  refine (codeAlike_childOf k hl).bind fun x y hxy => ?_
  refine (codeAlike_childOf k hm).bind fun x' y' hxy' => ?_
  refine hxy.bind fun _ _ _ => ?_
  exact hxy'.bind fun _ _ _ => sameUnit_emitOp op

theorem sameUnit_relationCode {l l' m m' : Option (Emitter Unit)}
    (hl : Option.Rel r.SameUnit l l') (hm : Option.Rel r.SameUnit m m') (k : Node.Kind)
    (symbol : Option Symbol.Id) (op : Operation) :
    r.SameUnit (relationCode k l m symbol op) (relationCode k l' m' symbol op) := by
  refine (codeAlike_childOf k hl).bind fun _ _ _ => ?_
  refine Lockstep.get.bind fun s t hs => ?_
  have htype : r.SameType ((symbol.map s.scopes.valueType).getD .void)
      ((symbol.map t.scopes.valueType).getD .void) := by
    cases symbol with
    | none => exact .void
    | some id => exact hs.scopes.valueType id
  refine .ite (by rw [htype.isBoolean]) (fun _ => ?_) fun _ => ?_
  · refine (sameUnit_binaryCode hl hm k .xor).bind fun _ _ _ => ?_
    split
    · exact sameUnit_emitOp _
    · exact .pure trivial
    · exact codeAlike_fail _
  · exact (sameUnit_binaryCode hl hm k .sub).bind fun _ _ _ => sameUnit_emitOp op

theorem sameUnit_callCode (k : Node.Kind) (symbol : Option Symbol.Id) (count : Nat)
    (h : r.SameUnit x y) : r.SameUnit (callCode k symbol count x) (callCode k symbol count y) := by
  refine (codeAlike_symbolOf k symbol).bind ?_
  rintro id _ rfl
  refine Lockstep.get.bind fun s t hs => ?_
  have hcall : r.SameUnit
      (do
        x
        emitCount count
        emitAddress id
        emitOp .js2)
      (do
        y
        emitCount count
        emitAddress id
        emitOp .js2) := by
    refine h.bind fun _ _ _ => ?_
    refine (sameUnit_emitCount count).bind fun _ _ _ => ?_
    exact (sameUnit_emitAddress id).bind fun _ _ _ => sameUnit_emitOp _
  have hfunction : (s.scopes.symbol? id).map (fun s => s.kind.isFunction) =
      (t.scopes.symbol? id).map fun s => s.kind.isFunction :=
    map_eq_of_rel (hs.scopes.symbol? id) fun _ _ h => by rw [h.kind]
  refine .ite (by rw [hfunction]) (fun _ => ?_) fun _ => .throw_bind (.inl rfl)
  refine (codeAlike_valueType id).bind fun _ _ htype => ?_
  refine .ite (by rw [htype.isVoid]) (fun _ => hcall) fun _ => ?_
  exact (sameUnit_emitOp _).bind fun _ _ _ => hcall

theorem length_argumentItems (h : r.SameTree o o') :
    (argumentItems o).length = (argumentItems o').length :=
  (h.listed .expressionList).length_eq

theorem sameUnit_single (hn : r.SameNode n n') (h : r.SameUnit x y) :
    r.SameUnit (single n.kind x) (single n'.kind y) := by
  unfold single
  rw [hn.kind]
  exact .ite Iff.rfl (fun _ => codeAlike_fail _) fun _ => h

theorem rel_single (o o' : Option Node) : r.SameTree o o' →
    r.SameUnit (match o with | some n => values n | none => pure ())
      (match o' with | some n => values n | none => pure ()) →
    Option.Rel r.SameUnit
      (match o with | some n => some (single n.kind (values n)) | none => none)
      (match o' with | some n => some (single n.kind (values n)) | none => none) := by
  intro h hv
  cases h with
  | none => exact .none
  | node ht hl hc hm => exact .some (sameUnit_single (.node ht hl hc hm) hv)

theorem sameUnit_values (o o' : Option Node) : r.SameTree o o' →
    r.SameUnit (match o with | some n => values n | none => pure ())
      (match o' with | some n => values n | none => pure ()) := by
  intro h
  induction h with
  | none => exact .pure trivial
  | @node k v v' s l l' c c' m m' hv hl hc hm ihl ihc ihm =>
    have hleft := rel_single l l' hl ihl
    have hright := rel_single m m' hm ihm
    have hsymbol : l.bind Node.symbol = l'.bind Node.symbol :=
      bind_eq_of_rel hl.rel fun _ _ h => h.symbol
    have hload (k : Node.Kind) : r.SameUnit (do emitValue (← symbolOf k s))
        (do emitValue (← symbolOf k s)) := by
      refine (codeAlike_symbolOf k s).bind ?_
      rintro id _ rfl
      exact sameUnit_emitValue id
    show r.SameUnit (values _) (values _)
    rw [values.eq_def, values.eq_def]
    simp only [length_argumentItems hl, hsymbol]
    split
    · exact ihm.bind fun _ _ _ => rel_getD hleft (.pure trivial)
    · exact hload _
    · exact hload _
    · exact hload _
    · exact sameUnit_emitOp _
    · exact sameUnit_emitOp _
    · exact sameUnit_callCode _ _ _ ihl
    · refine (codeAlike_childOf _ hleft).bind fun _ _ hxy => ?_
      exact hxy.bind fun _ _ _ => sameUnit_emitOp _
    · split
      · exact sameUnit_binaryCode hleft hright _ _
      · exact sameUnit_relationCode hleft hright _ _ _
      · exact codeAlike_fail _

theorem sameUnit_valuesOf (h : r.SameTree o o') :
    r.SameUnit ((o.map values).getD (pure ())) ((o'.map values).getD (pure ())) := by
  have hv := sameUnit_values o o' h
  cases h with
  | none => exact hv
  | node => exact hv

theorem sameUnit_value (h : r.SameNode n n') : r.SameUnit (value n) (value n') :=
  sameUnit_single h (sameUnit_values (some n) (some n') h)

/-! ## Statements -/

theorem sameUnit_assignmentCode (h : r.SameNode n n') :
    r.SameUnit (assignmentCode n) (assignmentCode n') := by
  unfold assignmentCode
  rw [h.kind, h.symbol]
  refine (codeAlike_symbolOf _ _).bind ?_
  rintro id _ rfl
  refine (codeAlike_childOf _ h.right.rel).bind fun a b hab => ?_
  split
  · refine (sameUnit_emitAddress id).bind fun _ _ _ => ?_
    exact (sameUnit_value hab).bind fun _ _ _ => sameUnit_emitOp _
  · refine (sameUnit_emitAddress id).bind fun _ _ _ => ?_
    refine (sameUnit_emitValue id).bind fun _ _ _ => ?_
    refine (sameUnit_value hab).bind fun _ _ _ => ?_
    exact (sameUnit_emitOp _).bind fun _ _ _ => sameUnit_emitOp _
  · exact codeAlike_fail _

theorem sameUnit_assignmentsCode (h : r.SameTree o o') :
    r.SameUnit (assignmentsCode o) (assignmentsCode o') := by
  have hitems := h.listed .assignList
  cases h with
  | none => exact .pure trivial
  | node =>
    refine (Lockstep.forIn hitems fun _ _ h => sameUnit_assignmentCode h).bind fun _ _ _ => ?_
    exact .pure trivial

theorem sameUnit_readCode (h : r.SameNode n n') : r.SameUnit (readCode n) (readCode n') := by
  unfold readCode
  rw [h.kind, h.symbol]
  refine (codeAlike_symbolOf _ _).bind ?_
  rintro id _ rfl
  refine (codeAlike_valueType id).bind fun x y hxy => ?_
  cases hxy with
  | int | real =>
    refine (sameUnit_emitAddress id).bind fun _ _ _ => ?_
    exact (sameUnit_emitOp _).bind fun _ _ _ => sameUnit_emitOp _
  | _ => exact codeAlike_fail _

theorem sameUnit_inputCode (h : r.SameNode n n') : r.SameUnit (inputCode n) (inputCode n') := by
  unfold inputCode
  rw [h.kind]
  refine (codeAlike_childOf _ h.left.rel).bind fun a b hab => ?_
  refine (Lockstep.forIn (hab.listed .variableList) fun _ _ h => sameUnit_readCode h).bind
    fun _ _ _ => ?_
  exact .pure trivial

theorem sameUnit_printEntryCode (h : r.SameNode n n') :
    r.SameUnit (printEntryCode n) (printEntryCode n') := by
  unfold printEntryCode
  rw [h.kind, h.symbol]
  refine .ite Iff.rfl (fun _ => ?_) fun _ => ?_
  · refine (codeAlike_symbolOf _ _).bind ?_
    rintro id _ rfl
    exact (sameUnit_emitAddress id).bind fun _ _ _ => sameUnit_emitOp _
  · exact (sameUnit_value h).bind fun _ _ _ => sameUnit_emitOp _

theorem sameUnit_printCode (h : r.SameNode n n') : r.SameUnit (printCode n) (printCode n') := by
  unfold printCode
  rw [h.kind]
  refine (codeAlike_childOf _ h.left.rel).bind fun a b hab => ?_
  refine (Lockstep.forIn (hab.listed .printList) fun _ _ h => sameUnit_printEntryCode h).bind
    fun _ _ _ => ?_
  exact .ite Iff.rfl (fun _ => sameUnit_emitOp _) fun _ => .pure trivial

theorem sameUnit_returnCode (routine : Routine) (h : r.SameNode n n') :
    r.SameUnit (returnCode routine n) (returnCode routine n') := by
  cases routine with
  | main => exact sameUnit_emitOp _
  | function =>
    cases h with
    | node _ hl _ _ =>
      cases hl with
      | none => exact sameUnit_emitOp _
      | node hv hl hc hm =>
        refine (sameUnit_value (.node hv hl hc hm)).bind fun _ _ _ => ?_
        exact (sameUnit_emitOp _).bind fun _ _ _ => sameUnit_emitOp _

theorem sameUnit_ifCode (k : Node.Kind) (hscope : r.SameScope a b) (ht : r.SameTree o o')
    (hx : r.SameUnit x y) (hy : r.SameUnit x' y') :
    r.SameUnit (ifCode k a o x x') (ifCode k b o' y y') := by
  refine (sameUnit_enterScope hscope).bind fun _ _ _ => ?_
  refine (codeAlike_childOf k ht.rel).bind fun n n' hn => ?_
  refine codeAlike_emitOpenJump.bind ?_
  rintro skip _ rfl
  refine (sameUnit_value hn).bind fun _ _ _ => ?_
  refine (sameUnit_emitOp _).bind fun _ _ _ => ?_
  refine hx.bind fun _ _ _ => ?_
  split
  · refine codeAlike_emitOpenJump.bind ?_
    rintro done _ rfl
    refine (sameUnit_emitOp _).bind fun _ _ _ => ?_
    refine (sameUnit_closeJump skip).bind fun _ _ _ => ?_
    refine hy.bind fun _ _ _ => ?_
    exact (sameUnit_closeJump done).bind fun _ _ _ => sameUnit_leaveScope
  · exact (sameUnit_closeJump skip).bind fun _ _ _ => sameUnit_leaveScope

variable {c c' : Option Node}

theorem sameUnit_forCode (k : Node.Kind) (hscope : r.SameScope a b) (hs : r.SameTree o o')
    (ht : r.SameTree c c') (hx : r.SameUnit x y) :
    r.SameUnit (forCode k a o c x) (forCode k b o' c' y) := by
  refine (sameUnit_enterScope hscope).bind fun _ _ _ => ?_
  refine (sameUnit_assignmentsCode hs).bind fun _ _ _ => ?_
  refine codeAlike_position.bind ?_
  rintro top _ rfl
  refine codeAlike_emitOpenJump.bind ?_
  rintro done _ rfl
  refine (codeAlike_childOf k ht.rel).bind fun n n' hn => ?_
  refine (sameUnit_value hn).bind fun _ _ _ => ?_
  refine (sameUnit_emitOp _).bind fun _ _ _ => ?_
  refine hx.bind fun _ _ _ => ?_
  refine (sameUnit_emitJump top).bind fun _ _ _ => ?_
  refine (sameUnit_emitOp _).bind fun _ _ _ => ?_
  exact (sameUnit_closeJump done).bind fun _ _ _ => sameUnit_leaveScope

theorem sameUnit_repeatCode (k : Node.Kind) (hscope : r.SameScope a b) (hs : r.SameTree o o')
    (ht : r.SameTree c c') (hx : r.SameUnit x y) :
    r.SameUnit (repeatCode k a o c x) (repeatCode k b o' c' y) := by
  refine (sameUnit_enterScope hscope).bind fun _ _ _ => ?_
  refine (sameUnit_assignmentsCode hs).bind fun _ _ _ => ?_
  refine codeAlike_position.bind ?_
  rintro top _ rfl
  refine hx.bind fun _ _ _ => ?_
  refine (sameUnit_emitJump top).bind fun _ _ _ => ?_
  refine (codeAlike_childOf k ht.rel).bind fun n n' hn => ?_
  refine (sameUnit_value hn).bind fun _ _ _ => ?_
  exact (sameUnit_emitOp _).bind fun _ _ _ => sameUnit_leaveScope

theorem sameUnit_blockOfCode (routine : Routine) (h : r.SameTree o o') :
    r.SameUnit (blockOfCode routine o) (blockOfCode routine o') := by
  induction h with
  | none => exact .pure trivial
  | @node k v v' s l l' c c' m m' hv hl hc hm ihl ihc ihm =>
    have hnode : r.SameNode (.mk k v s l c m) (.mk k v' s l' c' m') := .node hv hl hc hm
    show r.SameUnit (blockCode routine _) (blockCode routine _)
    cases k with
    | statements =>
      cases hl with
      | none =>
        rw [blockCode_tail, blockCode_tail]
        exact ihm
      | node =>
        rw [blockCode_chain, blockCode_chain]
        exact .ite Iff.rfl (fun _ => .throw_bind (.inl rfl)) fun _ => ihl.bind fun _ _ _ => ihm
    | assign | addAssign | subAssign | mulAssign | divAssign =>
      rw [blockCode_assignment (by decide), blockCode_assignment (by decide)]
      exact sameUnit_assignmentCode hnode
    | forLoop =>
      rw [blockCode_forLoop, blockCode_forLoop]
      exact sameUnit_forCode _ hv.2 hl hc ihm
    | ifThen =>
      rw [blockCode_ifThen, blockCode_ifThen]
      exact sameUnit_ifCode _ hv.2 hl ihc ihm
    | ifElse =>
      rw [blockCode_ifElse, blockCode_ifElse]
      exact sameUnit_ifCode _ hv.2 hl ihc ihm
    | repeatLoop =>
      rw [blockCode_repeatLoop, blockCode_repeatLoop]
      exact sameUnit_repeatCode _ hv.2 hl hm ihc
    | input =>
      rw [blockCode_input, blockCode_input]
      exact sameUnit_inputCode hnode
    | print | println =>
      rw [blockCode_print (by decide), blockCode_print (by decide)]
      exact sameUnit_printCode hnode
    | returns =>
      rw [blockCode_returns, blockCode_returns]
      exact sameUnit_returnCode routine hnode
    | callStatement =>
      rw [blockCode_callStatement, blockCode_callStatement, length_argumentItems hl]
      exact sameUnit_callCode _ _ _ (sameUnit_valuesOf hl)
    | _ =>
      rw [blockCode_misplaced (by decide), blockCode_misplaced (by decide)]
      exact codeAlike_fail _

variable {s t : Scopes}

theorem addLiteral_eq {x y : Symbol} (h : r.SameSymbol x y) (id : Symbol.Id) (c : Code) :
    addLiteral id x c = addLiteral id y c := by
  unfold addLiteral
  rw [h.findSome? (fun _ => rfl) (fun _ => rfl), h.findSome? (fun _ => rfl) (fun _ => rfl),
    h.findSome? (fun _ => rfl) (fun _ => rfl)]

theorem sameUnit_addLiterals : r.SameUnit addLiterals addLiterals := by
  refine .modify fun s t h => ⟨?_, h.scopes⟩
  dsimp only
  rw [h.scopes.constants, h.code]
  congr 1
  funext c id
  have hs := h.scopes.symbol? id
  generalize s.scopes.symbol? id = o, t.scopes.symbol? id = o' at hs
  cases hs with
  | none => rfl
  | some hs => exact addLiteral_eq hs id c

theorem takesSlot_eq {x y : Symbol} (h : r.SameSymbol x y) (region : Region) :
    takesSlot region x = takesSlot region y := by
  rw [takesSlot, takesSlot, h.isParameter, h.storage]

theorem countP_takesSlot (h : r.SameScopes s t) (region : Region) (ids : List Symbol.Id) :
    (ids.filterMap s.symbol?).countP (takesSlot region) =
      (ids.filterMap t.symbol?).countP (takesSlot region) := by
  induction ids with
  | nil => rfl
  | cons id ids ih =>
    have hs := h.symbol? id
    rw [List.filterMap_cons, List.filterMap_cons]
    generalize s.symbol? id = o, t.symbol? id = o' at hs
    cases hs with
    | none => exact ih
    | some hs => rw [List.countP_cons, List.countP_cons, ih, takesSlot_eq hs]

theorem frameSize_eq (h : r.SameScopes s t) (hab : r.SameScope a b) (region : Region) :
    frameSize s a region = frameSize t b region := by
  have ht := h.table? hab
  unfold frameSize
  generalize s.table? a = o, t.table? b = o' at ht
  cases ht with
  | none => rfl
  | some ht =>
    simp only [SymbolTable.symbols, ht.order]
    exact countP_takesSlot h region _

/-! ## Programs -/

theorem sameUnit_constantCode (h : r.SameNode n n') :
    r.SameUnit (constantCode n) (constantCode n') := by
  unfold constantCode
  rw [h.kind, h.symbol]
  refine (codeAlike_symbolOf _ _).bind ?_
  rintro id _ rfl
  refine (codeAlike_childOf _ h.left.rel).bind fun a b hab => ?_
  refine (sameUnit_emitAddress id).bind fun _ _ _ => ?_
  exact (sameUnit_value hab).bind fun _ _ _ => sameUnit_emitOp _

theorem sameUnit_globalsCode (h : r.SameNode n n') :
    r.SameUnit (globalsCode n) (globalsCode n') := by
  cases h with
  | node _ hl _ _ =>
    have hitems := hl.listed .initList
    cases hl with
    | none => exact .pure trivial
    | node =>
      refine (Lockstep.forIn hitems fun _ _ h => sameUnit_constantCode h).bind fun _ _ _ => ?_
      exact .pure trivial

theorem sameUnit_mainCode (h : r.SameNode n n') : r.SameUnit (mainCode n) (mainCode n') := by
  refine (sameUnit_enterScope r.scope_main).bind fun _ _ _ => ?_
  cases h with
  | node _ _ _ hm =>
    have hblock := sameUnit_blockOfCode .main hm
    cases hm with
    | none => exact sameUnit_leaveScope
    | node => exact hblock.bind fun _ _ _ => sameUnit_leaveScope

theorem rel_getLast? {xs ys : List Node} (h : List.Forall₂ r.SameNode xs ys) :
    Option.Rel r.SameNode xs.getLast? ys.getLast? := by
  rw [List.getLast?_eq_head?_reverse, List.getLast?_eq_head?_reverse]
  have h : List.Forall₂ r.SameNode xs.reverse ys.reverse := List.rel_reverse h
  generalize xs.reverse = as, ys.reverse = bs at h
  cases h with
  | nil => exact .none
  | cons hab _ => exact .some hab

theorem endsWithReturn_eq (h : r.SameTree o o') : endsWithReturn o = endsWithReturn o' := by
  have hlast : Option.Rel r.SameNode (o.bind fun n => (n.items .statements).getLast?)
      (o'.bind fun n => (n.items .statements).getLast?) :=
    rel_bind h.rel fun _ _ h => rel_getLast? (h.listed .statements)
  unfold endsWithReturn
  generalize (o.bind fun n => (n.items .statements).getLast?) = last,
    (o'.bind fun n => (n.items .statements).getLast?) = last' at hlast
  cases hlast with
  | none => rfl
  | some h => simp only [h.kind]

theorem sameUnit_functionCode (h : r.SameNode n n') (hk : n.kind = .functionDef) :
    r.SameUnit (functionCode n) (functionCode n') := by
  have hscope : r.SameScope (Parser.functionScope n.valueText)
      (Parser.functionScope n'.valueText) := by
    have ht := h.text.2
    rwa [hk] at ht
  cases h with
  | @node k v v' s l l' c c' m m' _ _ _ hm =>
    refine (codeAlike_symbolOf k s).bind ?_
    rintro id _ rfl
    refine codeAlike_position.bind ?_
    rintro p _ rfl
    refine (codeAlike_jumpTarget p).bind ?_
    rintro start _ rfl
    refine (Lockstep.modify fun _ _ hs => ⟨hs.code, hs.scopes.setStorage id _⟩).bind
      fun _ _ _ => ?_
    refine (sameUnit_enterScope hscope).bind fun _ _ _ => ?_
    refine Lockstep.get.bind fun s t hs => ?_
    rw [frameSize_eq hs.scopes hscope]
    refine (sameUnit_emitAlloc _).bind fun _ _ _ => ?_
    have hreturn := endsWithReturn_eq hm
    have hblock := sameUnit_blockOfCode .function hm
    have hend : r.SameUnit
        (do
          unless endsWithReturn m do
            emitOp .retn
          leaveScope)
        (do
          unless endsWithReturn m' do
            emitOp .retn
          leaveScope) := by
      rw [hreturn]
      refine .ite Iff.rfl (fun _ => sameUnit_leaveScope) fun _ => ?_
      exact (sameUnit_emitOp _).bind fun _ _ _ => sameUnit_leaveScope
    cases hm with
    | none => exact hend
    | node => exact hblock.bind fun _ _ _ => hend

theorem sameUnit_programCode (h : r.SameNode n n')
    (hf : ∀ f ∈ n.functionNodes, f.kind = .functionDef) :
    r.SameUnit (programCode n) (programCode n') := by
  cases h with
  | @node k v v' s l l' c c' m m' _ hl hc hm =>
    have hfunctions : List.Forall₂ (fun f f' => f.kind = .functionDef ∧ r.SameNode f f')
        (Node.listed .functions c) (Node.listed .functions c') :=
      List.forall₂_and_left _ _ |>.2 ⟨hf, hc.listed .functions⟩
    refine .ite Iff.rfl (fun _ => ?_) fun _ => .throw_bind (.inl rfl)
    refine (sameUnit_enterScope r.scope_global).bind fun _ _ _ => ?_
    refine sameUnit_addLiterals.bind fun _ _ _ => ?_
    refine Lockstep.get.bind fun s t hs => ?_
    dsimp only
    rw [frameSize_eq hs.scopes r.scope_global, frameSize_eq hs.scopes r.scope_main]
    refine (Lockstep.modify fun _ _ hs => ⟨hs.code, hs.scopes⟩).bind fun _ _ _ => ?_
    refine (sameUnit_emitAlloc _).bind fun _ _ _ => ?_
    cases hl
    case' node hv hl' hc' hm' _ =>
      refine (sameUnit_globalsCode (.node hv hl' hc' hm')).bind fun _ _ _ => ?_
    all_goals
      refine (codeAlike_childOf k hm.rel).bind fun a b hab => ?_
      refine (sameUnit_mainCode hab).bind fun _ _ _ => ?_
      refine (sameUnit_emitOp _).bind fun _ _ _ => ?_
      cases hc with
      | none => exact sameUnit_leaveScope
      | node =>
        refine (Lockstep.forIn hfunctions fun _ _ h => sameUnit_functionCode h.2 h.1).bind
          fun _ _ _ => ?_
        exact sameUnit_leaveScope

end

end StackCompiler.Correspondence
