import StackCompiler.Proofs.Emission.Expressions

/-!
# The code of statements

The emitter of a well-formed statement appends the assembly of the statement. A jump that is closed
late ends up with the target that the assembly has from the start.
-/

namespace StackCompiler

theorem Code.Is.patchJump {c : Code} {as bs : List Line} {target : Nat}
    (h : c.Is ((as ++ Line.jump target :: bs).map Line.instruction)) (new : Nat) :
    ∃ c', c.patch (span as) (bigEndian 4 new) = .ok c' ∧
      c'.Is ((as ++ Line.jump new :: bs).map Line.instruction) ∧ c'.literals = c.literals := by
  simp only [List.map_append, List.map_cons] at h ⊢
  exact h.patch (by simp)

namespace Emitter

variable {S₀ S : Scopes} {names : Names} {literals : Code.Literals} {fits : Prop} {n : Node}

section Steps

variable {E : Defect → State → Prop} {is as bs : List Line} {s : State} {size target : Nat}
  {Q : Unit → State → Prop}

theorem State.At.position {Q : Nat → State → Prop} (h : s.At S literals is)
    (hQ : Q (span is) s) : wp E position Q s := by
  show Q s.code.size s
  rwa [h.code.size]

theorem State.At.openJump {Q : Nat → State → Prop} (h : s.At S literals is)
    (hQ : ∀ s', s'.At S literals (is ++ [Line.jump 0]) → Q (span is) s') :
    wp E emitOpenJump Q s := by
  rw [emitOpenJump, wp_bind]
  refine h.position ?_
  rw [wp_bind]
  exact hQ _ (h.emit (l := .jump 0) (Nat.zero_le _) _)

theorem State.At.jump (h : s.At S literals is) (ht : target ≤ size)
    (hQ : ∀ s', s'.At S literals (is ++ [Line.jump target]) → Q () s') :
    wp (fun d _ => d.IsLimit fits size) (emitJump target) Q s := by
  rw [emitJump, wp_bind, jumpTarget]
  split
  · next hp =>
    exact hQ _ (h.emit (l := .jump target) hp _)
  · next hp => exact .inr ⟨target, rfl, Nat.lt_of_not_le hp, ht⟩

theorem State.At.closeJump (h : s.At S literals (as ++ Line.jump target :: bs))
    (ht : span as + 5 + span bs ≤ size)
    (hQ : ∀ s', s'.At S literals
      (as ++ Line.jump (span as + 5 + span bs) :: bs) → Q () s') :
    wp (fun d _ => d.IsLimit fits size) (closeJump (span as)) Q s := by
  have hsize : span (as ++ Line.jump target :: bs) = span as + 5 + span bs := by
    simp [Nat.add_assoc]
  rw [Emitter.closeJump, wp_bind]
  refine h.position ?_
  rw [wp_bind, jumpTarget, hsize]
  split
  · next hp =>
    rw [wp_pure, wp_bind, wp_get]
    obtain ⟨c, hpatch, hc, hl⟩ := h.code.patchJump (span as + 5 + span bs)
    rw [hpatch]
    refine hQ _ ⟨hc, fun l hl => ?_, hl.trans h.literals, h.symbols, h.tables, h.index,
      h.constants⟩
    rcases List.mem_append.1 hl with hl | hl
    · exact h.fit l (by simp [hl])
    · rcases List.mem_cons.1 hl with rfl | hl
      · exact hp
      · exact h.fit l (by simp [hl])
  · next hp => exact .inr ⟨_, rfl, Nat.lt_of_not_le hp, ht⟩

theorem State.At.scoped (h : s.At S literals is) (stack : List Nat) (l p : Int) :
    ({ s with scopes := { s.scopes with stack := stack, nextLocal := l, nextParameter := p } } :
      State).At S literals is :=
  ⟨h.code, h.fit, h.literals, h.symbols, h.tables, h.index, h.constants⟩

theorem State.At.enterScope {scope : String} (h : s.At S literals is) (hm : S.Made scope)
    (hQ : ∀ s', s'.At S literals is → Q () s') : wp E (enterScope scope) Q s := by
  obtain ⟨i, hi⟩ := hm
  have he : s.scopes.enter? scope = some (s.scopes.push i) := by
    rw [Scopes.enter?, h.index, hi]
    rfl
  rw [Emitter.enterScope, wp_bind, wp_get, he]
  exact hQ _ (h.scoped _ _ _)

theorem State.At.leaveScope (h : s.At S literals is) (hQ : ∀ s', s'.At S literals is → Q () s') :
    wp E leaveScope Q s :=
  hQ _ (h.scoped _ _ _)

end Steps

/-! ## Statements with a block -/

section Blocks

variable {scope : String} {test : Node} {start : Option Node} {body otherwise : Emitter Unit}
  {t a : List Line} {b o : Nat → List Line} (hm : S.Made scope)
  (ht : Emits S literals fits (value test) fun _ => t) (hb : Emits S literals fits body b)
include hm ht hb

theorem emits_ifThen :
    Emits S literals fits (ifCode .ifThen scope (some test) body otherwise)
      fun p => Assembly.ifThen p t b := by
  intro is s ha
  have hsize : span (Assembly.ifThen (span is) t b) =
      5 + span t + 1 + span (b (span is + 5 + span t + 1)) := by
    simp [Assembly.ifThen]
    omega
  rw [hsize]
  simp only [ifCode, childOf, pure_bind, wp_bind, reduceCtorEq, if_false]
  refine ha.enterScope hm fun s ha => ?_
  refine ha.openJump fun s ha => ?_
  refine ht.step ha id (by simp; omega) fun s ha => ?_
  refine (emits_op .bf).step ha id (by simp; omega) fun s ha => ?_
  have hq : span (is ++ [Line.jump 0] ++ t ++ [Line.op .bf]) =
    span is + 5 + span t + 1 := by simp [Nat.add_assoc]
  refine hb.step ha id (by rw [hq]; omega) fun s ha => ?_
  rw [hq] at ha
  simp only [List.append_assoc, List.cons_append, List.nil_append] at ha
  refine ha.closeJump (by simp; omega) fun s ha => ?_
  refine ha.leaveScope fun s ha => ?_
  simpa [Assembly.ifThen, Nat.add_assoc] using ha

theorem emits_ifElse (ho : Emits S literals fits otherwise o) :
    Emits S literals fits (ifCode .ifElse scope (some test) body otherwise)
      fun p => Assembly.ifElse p t b o := by
  intro is s ha
  obtain ⟨q, hq⟩ : ∃ q, q = span is + 5 + span t + 1 := ⟨_, rfl⟩
  obtain ⟨q', hq'⟩ : ∃ q', q' = q + span (b q) + 5 + 1 := ⟨_, rfl⟩
  have hl : Assembly.ifElse (span is) t b o = Line.jump q' :: (t ++ Line.op .bf :: (b q ++
      Line.jump (q' + span (o q')) :: Line.op .br :: o q')) := by
    simp [Assembly.ifElse, ← hq, ← hq']
  have hsize : span is + span (Assembly.ifElse (span is) t b o) =
      q' + span (o q') := by
    simp [hl]
    omega
  rw [hsize]
  simp only [ifCode, childOf, pure_bind, wp_bind, if_true]
  refine ha.enterScope hm fun s ha => ?_
  refine ha.openJump fun s ha => ?_
  refine ht.step ha id (by simp; omega) fun s ha => ?_
  refine (emits_op .bf).step ha id (by simp; omega) fun s ha => ?_
  have hbody : span (is ++ [Line.jump 0] ++ t ++ [Line.op .bf]) = q := by
    simp [hq, Nat.add_assoc]
  refine hb.step ha id (by rw [hbody]; omega) fun s ha => ?_
  rw [hbody] at ha
  refine ha.openJump fun s ha => ?_
  refine (emits_op .br).step ha id (by simp; omega) fun s ha => ?_
  simp only [List.append_assoc, List.cons_append, List.nil_append] at ha
  refine ha.closeJump (by simp; omega) fun s ha => ?_
  have htarget : span is + 5 + span (t ++ Line.op .bf :: (b q ++
      [Line.jump 0, Line.op .br])) = q' := by
    simp
    omega
  rw [htarget] at ha
  have hend : span (is ++ Line.jump q' :: (t ++ Line.op .bf :: (b q ++
      [Line.jump 0, Line.op .br]))) = q' := by
    simp
    omega
  refine ho.step ha id (by simp only [hend, Nat.le_refl]) fun s ha => ?_
  -- The jump over the second branch is still open; everything before it has its final form.
  have hdone : span (is ++ [Line.jump 0] ++ t ++ [Line.op .bf] ++ b q) =
      span (is ++ Line.jump q' :: (t ++ Line.op .bf :: b q)) := by simp
  have hsplit : is ++ Line.jump q' :: (t ++ Line.op .bf :: (b q ++
      [Line.jump 0, Line.op .br])) ++ o q' =
      is ++ Line.jump q' :: (t ++ Line.op .bf :: b q) ++
        Line.jump 0 :: Line.op .br :: o q' := by simp
  rw [hend, hsplit] at ha
  rw [hdone]
  refine ha.closeJump (by simp; omega) fun s ha => ?_
  refine ha.leaveScope fun s ha => ?_
  have hlast : span (is ++ Line.jump q' :: (t ++ Line.op .bf :: b q)) + 5 +
      span (Line.op .br :: o q') = q' + span (o q') := by
    simp
    omega
  rw [hlast] at ha
  simpa [hl] using ha

theorem emits_forLoop (hs : Emits S literals fits (assignmentsCode start) fun _ => a) :
    Emits S literals fits (forCode .forLoop scope start (some test) body)
      fun p => Assembly.forLoop p a t b := by
  intro is s ha
  obtain ⟨q, hq⟩ : ∃ q, q = span is + span a + 5 + span t + 1 := ⟨_, rfl⟩
  have hl : Assembly.forLoop (span is) a t b = a ++ Line.jump (q + span (b q) + 5 + 1) ::
      (t ++ Line.op .bf ::
        (b q ++ [Line.jump (span is + span a), Line.op .br])) := by
    simp [Assembly.forLoop, ← hq]
  have hsize : span is + span (Assembly.forLoop (span is) a t b) =
      q + span (b q) + 5 + 1 := by
    simp [hl]
    omega
  rw [hsize]
  simp only [forCode, childOf, pure_bind, wp_bind]
  refine ha.enterScope hm fun s ha => ?_
  refine hs.step ha id (by omega) fun s ha => ?_
  refine ha.position ?_
  -- the jump out of the loop gets its target when the loop is closed
  refine ha.openJump fun s ha => ?_
  refine ht.step ha id (by simp; omega) fun s ha => ?_
  refine (emits_op .bf).step ha id (by simp; omega) fun s ha => ?_
  have hbody : span (is ++ a ++ [Line.jump 0] ++ t ++ [Line.op .bf]) = q := by
    simp [hq, Nat.add_assoc]
  refine hb.step ha id (by rw [hbody]; omega) fun s ha => ?_
  rw [hbody] at ha
  refine ha.jump (by simp; omega) fun s ha => ?_
  refine (emits_op .br).step ha id (by simp; omega) fun s ha => ?_
  have hsplit : is ++ a ++ [Line.jump 0] ++ t ++ [Line.op .bf] ++ b q ++
      [Line.jump (span (is ++ a))] ++ [Line.op .br] = (is ++ a) ++ Line.jump 0 ::
        (t ++ Line.op .bf :: (b q ++ [Line.jump (span (is ++ a)), Line.op .br])) := by
    simp
  rw [hsplit] at ha
  have hlast : span (is ++ a) + 5 + span (t ++ Line.op .bf ::
      (b q ++ [Line.jump (span (is ++ a)), Line.op .br])) =
      q + span (b q) + 5 + 1 := by
    simp
    omega
  refine ha.closeJump (Nat.le_of_eq hlast) fun s ha => ?_
  refine ha.leaveScope fun s ha => ?_
  rw [hlast] at ha
  simpa [hl] using ha

theorem emits_repeatLoop (hs : Emits S literals fits (assignmentsCode start) fun _ => a) :
    Emits S literals fits (repeatCode .repeatLoop scope start (some test) body)
      fun p => Assembly.repeatLoop p a t b := by
  intro is s ha
  have hl : span (Assembly.repeatLoop (span is) a t b) = span a +
      span (b (span is + span a)) + 5 + span t + 1 := by
    simp [Assembly.repeatLoop]
    omega
  rw [hl]
  simp only [repeatCode, childOf, pure_bind, wp_bind]
  refine ha.enterScope hm fun s ha => ?_
  refine hs.step ha id (by omega) fun s ha => ?_
  refine ha.position ?_
  refine hb.step ha id (by simp only [span_append]; omega) fun s ha => ?_
  refine ha.jump (by simp only [span_append]; omega) fun s ha => ?_
  refine ht.step ha id (by simp; omega) fun s ha => ?_
  refine (emits_op .bf).step ha id (by simp; omega) fun s ha => ?_
  refine ha.leaveScope fun s ha => ?_
  simpa [Assembly.repeatLoop] using ha

end Blocks

/-! ## Statements without a block -/

section Simple

theorem exists_compoundOperation {k : Node.Kind} (hk : k ∈ Node.Kind.compoundAssignments) :
    ∃ o, compoundOperation? k = some o :=
  Option.isSome_iff_exists.1 ((by decide : ∀ k ∈ Node.Kind.compoundAssignments,
    (compoundOperation? k).isSome) k hk)

theorem assignmentCode_compound {k : Node.Kind} {o : Operation} {v : Option String} {id : Symbol.Id}
    {l c : Option Node} {source : Node} (hk : compoundOperation? k = some o) :
    assignmentCode (.mk k v (some id) l c (some source)) =
      emitAddress id >>= fun _ => emitValue id >>= fun _ => value source >>= fun _ =>
        emitOp o >>= fun _ => emitOp .st := by
  cases k <;> cases hk <;> rfl

theorem emits_assignment (hS : S₀.Alike S) (h : S₀.IsAssignment names n) :
    Emits S literals n.CallsFit (assignmentCode n) fun _ => Assembly.assignment S₀.valueType n := by
  cases h with
  | @intro k text id source t hk hn hv hm he tv hc =>
    refine Emits.weaken (f := source.CallsFit) ?_ fun hf => hf.right _ rfl
    rcases hk with rfl | hk
    · exact (emits_address _).append ((emits_expression hS he).append (emits_op .st))
    · obtain ⟨o, ho⟩ := exists_compoundOperation hk
      rw [assignmentCode_compound ho, Assembly.assignment]
      simp only [Node.kind, ho]
      exact (emits_address _).append ((emits_value _).append
        ((emits_expression hS he).append ((emits_op o).append (emits_op .st))))

theorem emits_assignments {start : List Node} (hS : S₀.Alike S)
    (h : ∀ n ∈ start, S₀.IsAssignment names n) :
    Emits S literals (∀ n ∈ start, n.CallsFit) (assignmentsCode (Node.list .assignList start))
      fun _ => Assembly.assignments S₀.valueType (Node.list .assignList start) := by
  have hl := Node.listed_list fun n hn => Node.kind_ne_of_not_list (h n hn).not_list
    (rfl : Node.Kind.assignList.isList = true)
  have he : assignmentsCode (Node.list .assignList start) =
      forIn start PUnit.unit fun n _ => assignmentCode n >>= fun _ => pure (.yield PUnit.unit) := by
    conv => rhs; rw [← hl]
    cases Node.list .assignList start <;> simp [assignmentsCode, Node.listed]
  rw [he, Assembly.assignments, hl]
  exact emits_forIn fun n hn => (emits_assignment hS (h n hn)).weaken fun hf => hf n hn

theorem emits_read (hS : S₀.Alike S) (h : S₀.IsInputTarget names n) :
    Emits S literals fits (readCode n) fun _ => Assembly.read S₀.valueType n := by
  cases h with
  | @intro text id t hn hv hm ht =>
    intro is s ha
    have htype := hv.hasType.valueType
    have hread (o : Operation) : Emits S literals fits
        (emitAddress id >>= fun _ => emitOp o >>= fun _ => emitOp .st)
        fun _ => [Line.address id, Line.op o, Line.op .st] :=
      (emits_address id).append ((emits_op o).append (emits_op .st))
    simp only [readCode, Scopes.variableNode, Node.symbol, symbolOf, pure_bind, valueType, wp_bind,
      wp_get, wp_pure, ha.valueType, hS.valueType, Assembly.read, Option.getD_some, htype]
    cases t with
    | int => exact hread .readInt is s ha
    | real => exact hread .readReal is s ha
    | _ => cases ht

theorem emits_input {targets : List Node} (hS : S₀.Alike S) (hne : targets ≠ [])
    (h : ∀ n ∈ targets, S₀.IsInputTarget names n) :
    Emits S literals fits
      (inputCode (.mk .input none none (Node.list .variableList targets) none none))
      fun _ => Assembly.input S₀.valueType
        (.mk .input none none (Node.list .variableList targets) none none) := by
  have hl := Node.listed_list fun n hn => (h n hn).kind_ne
  have he : inputCode (.mk .input none none (Node.list .variableList targets) none none) =
      forIn targets PUnit.unit fun n _ => readCode n >>= fun _ => pure (.yield PUnit.unit) := by
    conv => rhs; rw [← hl]
    cases hc : Node.list .variableList targets with
    | none => exact absurd (Node.list_eq_none.1 hc) hne
    | some chain => simp [inputCode, childOf, Node.left, Node.listed]
  rw [he, Assembly.input, Node.left, hl]
  exact emits_forIn fun n hn => emits_read hS (h n hn)

theorem emits_printEntry (hS : S₀.Alike S) (h : S₀.IsPrintEntry names n) :
    Emits S literals n.CallsFit (printEntryCode n)
      fun _ => Assembly.printEntry S₀.valueType n := by
  cases h with
  | string => exact (emits_address _).append (emits_op .printString)
  | value h =>
    rw [printEntryCode, Assembly.printEntry, if_neg h.not_string, if_neg h.not_string]
    exact (emits_expression hS h).append (emits_op .printValue)

theorem emits_print {k : Node.Kind} {entries : List Node} (hS : S₀.Alike S) (hne : entries ≠ [])
    (h : ∀ n ∈ entries, S₀.IsPrintEntry names n) :
    Emits S literals (∀ n ∈ entries, n.CallsFit)
      (printCode (.mk k none none (Node.list .printList entries) none none))
      fun _ => Assembly.print S₀.valueType
        (.mk k none none (Node.list .printList entries) none none) := by
  have hl := Node.listed_list fun n hn => Node.kind_ne_of_not_list (h n hn).not_list
    (rfl : Node.Kind.printList.isList = true)
  have he : printCode (.mk k none none (Node.list .printList entries) none none) =
      (forIn entries PUnit.unit fun n _ =>
        printEntryCode n >>= fun _ => pure (.yield PUnit.unit)) >>= fun _ =>
          if k = .println then emitOp .newLine else pure () := by
    conv => rhs; rw [← hl]
    cases hc : Node.list .printList entries with
    | none => exact absurd (Node.list_eq_none.1 hc) hne
    | some chain => rfl
  rw [he, Assembly.print, Node.left, hl]
  refine (emits_forIn fun n hn => (emits_printEntry hS (h n hn)).weaken fun hf => hf n hn).append ?_
  rw [Node.kind]
  split
  · exact emits_op .newLine
  · exact emits_pure

theorem emits_return {ret : Option DataType} {routine : Routine} {value : Option Node}
    (hS : S₀.Alike S) (h : S₀.IsReturn names ret value) :
    Emits S literals (Node.CallsFitIn value)
      (returnCode routine (.mk .returns none none value none none))
      fun _ => Assembly.returns S₀.valueType routine (.mk .returns none none value none none) := by
  cases routine with
  | main => exact emits_op .halt
  | function =>
    cases h with
    | main | void => exact emits_op .retn
    | @value t n hv he ht =>
      refine Emits.weaken (f := n.CallsFit) ?_ fun hf => hf n rfl
      exact (emits_expression hS he).append ((emits_op .rval).append (emits_op .retn))

end Simple

section Shapes

variable {routine : Routine} {v : Option String} {s : Option Symbol.Id} {l c r : Option Node}

def blockOfCode (routine : Routine) (n : Option Node) : Emitter Unit :=
  (n.map (blockCode routine)).getD (pure ())

theorem blockCode_forLoop : blockCode routine (.mk .forLoop v s l c r) =
    forCode .forLoop (v.getD "") l c (blockOfCode routine r) := by
  cases c <;> cases r <;> rfl

theorem blockCode_ifThen : blockCode routine (.mk .ifThen v s l c r) =
    ifCode .ifThen (v.getD "") l (blockOfCode routine c) (blockOfCode routine r) := by
  cases c <;> cases r <;> rfl

theorem blockCode_ifElse : blockCode routine (.mk .ifElse v s l c r) =
    ifCode .ifElse (v.getD "") l (blockOfCode routine c) (blockOfCode routine r) := by
  cases c <;> cases r <;> rfl

theorem blockCode_repeatLoop : blockCode routine (.mk .repeatLoop v s l c r) =
    repeatCode .repeatLoop (v.getD "") l r (blockOfCode routine c) := by
  cases c <;> cases r <;> rfl

theorem blockCode_assignment {k : Node.Kind}
    (hk : k = .assign ∨ k ∈ Node.Kind.compoundAssignments) :
    blockCode routine (.mk k v s l c r) = assignmentCode (.mk k v s l c r) := by
  rw [← List.mem_cons] at hk
  fin_cases hk <;> cases c <;> cases r <;> rfl

theorem blockCode_input : blockCode routine (.mk .input v s l c r) =
    inputCode (.mk .input v s l c r) := by
  cases c <;> cases r <;> rfl

theorem blockCode_print {k : Node.Kind} (hk : k = .print ∨ k = .println) :
    blockCode routine (.mk k v s l c r) = printCode (.mk k v s l c r) := by
  rcases hk with rfl | rfl <;> cases c <;> cases r <;> rfl

theorem blockCode_returns : blockCode routine (.mk .returns v s l c r) =
    returnCode routine (.mk .returns v s l c r) := by
  cases c <;> cases r <;> rfl

theorem blockCode_callStatement : blockCode routine (.mk .callStatement v s l c r) =
    callCode .callStatement s (argumentItems l).length ((l.map values).getD (pure ())) := by
  cases c <;> cases r <;> rfl

theorem blockCode_binary {m rest : Node} (hm : m.kind ≠ .statements) :
    blockCode routine (Node.binary .statements m rest) =
      blockCode routine m >>= fun _ => blockCode routine rest :=
  if_neg hm

theorem blockCode_chain {n : Node} : blockCode routine (.mk .statements v s (some n) c r) =
    if n.kind = .statements then
      misplaced n.kind .statement >>= fun _ : Unit => blockOfCode routine r
    else blockCode routine n >>= fun _ => blockOfCode routine r := by
  cases c <;> cases r <;> rfl

theorem blockCode_tail : blockCode routine (.mk .statements v s none c r) =
    blockOfCode routine r := by
  cases c <;> cases r <;> rfl

theorem blockCode_misplaced {k : Node.Kind}
    (hk : k ∉ [.statements, .assign, .addAssign, .subAssign, .mulAssign, .divAssign, .forLoop,
      .ifThen, .ifElse, .repeatLoop, .input, .print, .println, .returns, .callStatement]) :
    blockCode routine (.mk k v s l c r) = misplaced k .statement := by
  cases k <;> first | exact absurd (by decide) hk | (cases c <;> cases r <;> rfl)

end Shapes

theorem emits_blockOf {routine : Routine} {body : List Node} {types : Symbol.Id → DataType}
    (h : ∀ m ∈ body, m.kind.isList = false ∧
      Emits S literals fits (blockCode routine m) (Assembly.block types routine m)) :
    Emits S literals fits (blockOfCode routine (Node.list .statements body))
      (Assembly.blockOf types routine (Node.list .statements body)) := by
  induction body with
  | nil => exact emits_pure
  | cons m body ih =>
    obtain ⟨hl, hm⟩ := h m (by simp)
    have ih := ih fun b hb => h b (by simp [hb])
    rw [Node.list_cons]
    cases hr : Node.list .statements body with
    | none => exact hm
    | some rest =>
      rw [hr] at ih
      rw [Option.elim_some, blockOfCode, Option.map_some, Option.getD_some,
        blockCode_binary (Node.kind_ne_of_not_list hl rfl), Assembly.blockOf_binary]
      exact hm.bind ih

theorem emits_statement {ret : Option DataType} {routine : Routine} (hS : S₀.Alike S)
    (h : S₀.IsStatement names ret n) :
    Emits S literals n.CallsFit (blockCode routine n) (Assembly.block S₀.valueType routine n) := by
  induction h with
  | assignment h =>
    obtain ⟨hk, _, _, _, _, _, _⟩ := id h
    rw [blockCode_assignment hk]
    refine Emits.congr ?_ fun p => Assembly.block_assignment hk
    exact emits_assignment hS h
  | forLoop hs ha he ht hb ih =>
    rw [blockCode_forLoop]
    refine Emits.congr ?_ fun p => Assembly.block_forLoop
    refine emits_forLoop (hS.made hs) ((emits_expression hS he).weaken fun hf => hf.centre _ rfl)
      (emits_blockOf fun m hm =>
        ⟨(hb m hm).not_list, (ih m hm).weaken fun hf => Node.all_of_list hf.right m hm⟩)
      ((emits_assignments hS ha).weaken fun hf => ?_)
    exact Node.all_of_list hf.left
  | ifThen hs he ht hb ih =>
    rw [blockCode_ifThen]
    refine Emits.congr ?_ fun p => Assembly.block_ifThen
    exact emits_ifThen (hS.made hs) ((emits_expression hS he).weaken fun hf => hf.left _ rfl)
      (emits_blockOf fun m hm =>
        ⟨(hb m hm).not_list, (ih m hm).weaken fun hf => Node.all_of_list hf.centre m hm⟩)
  | ifElse hs he ht hb ho ihb iho =>
    rw [blockCode_ifElse]
    refine Emits.congr ?_ fun p => Assembly.block_ifElse
    exact emits_ifElse (hS.made hs) ((emits_expression hS he).weaken fun hf => hf.left _ rfl)
      (emits_blockOf fun m hm =>
        ⟨(hb m hm).not_list, (ihb m hm).weaken fun hf => Node.all_of_list hf.centre m hm⟩)
      (emits_blockOf fun m hm =>
        ⟨(ho m hm).not_list, (iho m hm).weaken fun hf => Node.all_of_list hf.right m hm⟩)
  | repeatLoop hs ha he ht hb ih =>
    rw [blockCode_repeatLoop]
    refine Emits.congr ?_ fun p => Assembly.block_repeatLoop
    refine emits_repeatLoop (hS.made hs) ((emits_expression hS he).weaken fun hf => hf.right _ rfl)
      (emits_blockOf fun m hm =>
        ⟨(hb m hm).not_list, (ih m hm).weaken fun hf => Node.all_of_list hf.centre m hm⟩)
      ((emits_assignments hS ha).weaken fun hf => ?_)
    exact Node.all_of_list hf.left
  | input hne ht =>
    rw [blockCode_input]
    refine Emits.congr ?_ fun p => Assembly.block_input
    exact emits_input hS hne ht
  | print hk hne he =>
    rw [blockCode_print hk]
    refine Emits.congr ?_ fun p => Assembly.block_print hk
    exact (emits_print hS hne he).weaken fun hf => Node.all_of_list hf.left
  | returns h =>
    rw [blockCode_returns]
    refine Emits.congr ?_ fun p => Assembly.block_returns
    exact (emits_return hS h).weaken fun hf => hf.left
  | call hn hc ha =>
    rw [blockCode_callStatement]
    refine Emits.congr ?_ fun p => Assembly.block_callStatement
    exact emits_takes hS hc (fun a h => ⟨(ha a h).not_list,
      (emits_expression hS (ha a h)).weaken fun hf => Node.all_of_list hf.left a h⟩)
      fun hf => hf.self

theorem emits_block {ret : Option DataType} {routine : Routine} {b : Option Node} (hS : S₀.Alike S)
    (h : S₀.IsBlock names ret b) :
    Emits S literals (Node.CallsFitIn b) (blockOfCode routine b)
      (Assembly.blockOf S₀.valueType routine b) := by
  obtain ⟨body, rfl, hb⟩ := h
  exact emits_blockOf fun m hm => ⟨(hb m hm).not_list,
    (emits_statement hS (hb m hm)).weaken fun hf => Node.all_of_list hf m hm⟩

end Emitter

end StackCompiler
