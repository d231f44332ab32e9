import StackCompiler.Proofs.Recovery.Expressions
import StackCompiler.Statement.Parser

/-!
# Statements of a repaired program

A statement ends where a semicolon may have been missing. Behind `return`, that semicolon stands for
the same as the keyword that closes the block: there is no value.
-/

namespace StackCompiler.Parser

variable {ι : Type} {place : Token → Position} {n : ι → Nat} {Q : Junction}

theorem mends_condition : Repeats place n 0 Begins Ends condition := by
  refine mends_peek_bind fun t => ?_
  refine mends_expression.bind fun node => ?_
  refine (aside_typeOf node).mendsBind fun type => ?_
  exact mends_check (fails_fail_bind _ _ _) fun _ => mends_pure fun _ => rfl

theorem mends_assignmentTo (name : Token) : Repeats place n 0 Ends Ends (assignmentTo name) := by
  refine (mends_variableNamed name).bindOf (fun target => ?_) fun _ _ => Same.before
  refine mends_peek_same fun op => ?_
  cases hop : assignOperator? op.kind with
  | none => exact (fails_unexpected _).mends.when
  | some c =>
    cases target.symbol with
    | none => exact (fails_fail _ _).mends.when
    | some id =>
      have hne : ¬ .eof = op.kind := by
        intro h
        rw [← h] at hop
        cases hop
      refine (mendsWhen_advance_bind (J := Begins) hne fun _ _ => ?_).weaken
      refine (aside_isImmutable id).mendsBind fun immutable => ?_
      refine mends_refuse (fails_fail_bind _ _ _) fun _ => ?_
      refine mends_peek_bind fun t => ?_
      refine mends_expression.bind fun value => ?_
      refine (aside_typeOf target).mendsBind fun targetType => ?_
      refine (aside_typeOf value).mendsBind fun valueType => ?_
      refine mends_check (fails_fail_bind _ _ _) fun _ => ?_
      exact mends_check (fails_fail_bind _ _ _) fun _ => mends_pure fun _ => rfl

theorem mends_assignments : Repeats place n 0 Same Ends assignments := by
  have hitem : Repeats place n 0 Same Ends (do assignmentTo (← expect .ident)) :=
    mends_expect_next nofun fun name _ => mends_assignmentTo name
  exact (mends_items hitem).bind fun _ => mends_pure fun _ => rfl

theorem mends_inputTarget : Repeats place n 0 Same Ends inputTarget := by
  refine mends_expect_next (J := Ends) nofun fun name _ => ?_
  refine (mends_variableNamed name).bind fun node => ?_
  have hnumeric : Repeats place n 0 Ends Ends (do
        unless (← typeOf node).isNumeric do
          fail name (.inputNotNumeric name.text)
        return node) := by
    refine (aside_typeOf node).mendsBind fun type => ?_
    exact mends_check (fails_fail_bind _ _ _) fun _ => mends_pure fun _ => rfl
  cases node.symbol with
  | none => exact hnumeric
  | some id =>
    refine (aside_isImmutable id).mendsBind fun immutable => ?_
    exact mends_refuse (fails_fail_bind _ _ _) fun _ => hnumeric

theorem mends_inputStatement : Repeats place n 1 Same Ends inputStatement := by
  refine mends_expect_bind (J := Same) nofun fun _ _ => ?_
  exact (mends_items mends_inputTarget).bind fun _ => mends_pure fun _ => rfl

theorem mends_printEntry : Repeats place n 0 Begins Ends printEntry := by
  refine mends_is_begins (by decide) ?_ mends_expression
  refine (mendsWhen_advance_bind (J := Ends) nofun fun t _ => ?_).weaken
  exact (aside_intern _ _ _ _ _).mendsBind fun id => mends_pure fun _ => rfl

theorem mendsWhen_printStatement {w : Token.Kind} (hw : ¬ .eof = w) (c : Node.Kind) :
    MendsWhen place (· = w) n 1 Same Ends Eq (printStatement c) (fun _ => printStatement c) := by
  refine mendsWhen_advance_bind (J := Begins) hw fun _ _ => ?_
  exact (mends_items mends_printEntry).bind fun _ => mends_pure fun _ => rfl

theorem steady_checkReturn (t : Token) (value : Option Node) (first : Token) (first' : ι → Token) :
    Steady (checkReturn t (value.map (first, ·)))
      (fun i => checkReturn t (value.map (first' i, ·))) := by
  refine steady_get fun s => ?_
  have hfunction (i : ι × Subtype s.Agrees) : i.2.1.function = s.function := i.2.2.function.symm
  simp only [hfunction]
  cases s.function with
  | none =>
    cases value with
    | none => exact steady_pure ()
    | some node => exact (fails_fail _ _).steady
  | some id =>
    refine (aside_symbol? id).steady.bind fun sym => ?_
    cases value with
    | none => exact steady_check (fails_fail _ _) fun _ => steady_pure ()
    | some node =>
      refine steady_refuse (fails_fail_bind _ _ _) fun _ => ?_
      refine (aside_typeOf node).steady.bind fun type => ?_
      exact steady_check (fails_fail _ _) fun _ => steady_pure ()

def closesBlock (k : Token.Kind) : Bool :=
  k = .keyword .endWord || k = .keyword .elseWord || k = .keyword .untilWord

/-- What behind `return` shows that there is no value. -/
def endsReturn (k : Token.Kind) : Bool := k = .semicolon || closesBlock k

/-- What follows `return`, once it is known whether there is a value. -/
def returned (t : Token) (bare : Bool) : Parser Node :=
  if bare then do
    checkReturn t none
    return .branch .returns none none none
  else do
    let first ← peek
    let node ← expression
    checkReturn t (some (first, node))
    return .branch .returns (some node) none none

theorem mends_returnStatement : Repeats place n 1 Same Ends returnStatement := by
  refine mends_expect_bind (J := fun _ _ => True) nofun fun t _ => ?_
  refine mends_look_bind (φ := endsReturn) (f := returned t) (g := fun _ => returned t)
    (J := fun c => if c then Ends else Begins) (fun c => ?_) fun l r hJ => ?_
  · cases c with
    | true =>
      refine Mends.when ((steady_checkReturn t none t fun _ => t).mendsBind fun _ => ?_)
      exact mends_pure fun _ => rfl
    | false =>
      refine Mends.when (mends_peek_bind fun first => ?_)
      refine mends_expression.bind fun node => ?_
      refine (steady_checkReturn t (some node) first Prod.snd).mendsBind fun _ => ?_
      exact mends_pure fun _ => rfl
  · refine ⟨?_, trivial⟩
    cases hl : endsReturn (headKind l) with
    | true =>
      rw [hl] at hJ
      rcases hJ with hsame | ⟨-, hr⟩
      · rw [hsame.headKind, hl]
      · rw [hr]
        rfl
    | false =>
      rw [hl] at hJ
      rcases hJ with hsame | ⟨-, hr⟩
      · rw [hsame.headKind, hl]
      · have hkinds : ∀ c ∈ operandKinds, endsReturn c = false := by decide
        exact hkinds _ hr

theorem mendsWhen_namedStatement : MendsWhen place (· = .ident) n 1 Same Ends Eq namedStatement
    (fun _ => namedStatement) := by
  refine mendsWhen_advance_bind (J := Ends) nofun fun name _ => ?_
  refine mends_is_ends nofun (Mends.when ?_) (mends_assignmentTo name)
  exact (mends_callNamed mends_expression name .callStatement).weaken

section Blocks

variable {p : Parser (Option Node)} {q : ι → Parser (Option Node)}

/-- What follows a statement of a list. -/
def listedUpTo (before : List Node) (node : Node) : Parser (List Node ⊕ List Node) :=
  look (fun c => closesBlock c || c = .eof) >>= fun last =>
    if last then return .inr (node :: before).reverse else return .inl (node :: before)

theorem mends_optional {α : Type} {w : Token.Kind} {start : Parser (Option α)}
    {f : Option α → Parser Node} {g : ι → Option α → Parser Node}
    (h : Repeats place n 0 Same Ends start)
    (hrest : ∀ a, Mends place n 0 Same Q Eq (f a) (fun i => g i a)) :
    Mends place n 0 Same Q Eq
      (is w >>= fun c => if c then pure none >>= f else start >>= f)
      (fun i => is w >>= fun c => if c then pure none >>= g i else start >>= g i) :=
  mends_is_same (hrest none).when (h.bindOf hrest fun _ _ => Same.before)

variable (h : Mends place (fun i => n i - 1) 0 Same Same Eq p q)
include h

theorem mends_forStatement :
    Mends place n 1 Same Q Eq (forStatement p) (fun i => forStatement (q i)) := by
  refine mends_expect_bind (J := Same) nofun fun t _ => ?_
  refine (aside_statementScope "for" t).mendsBind fun scope => ?_
  refine (steady_createScope scope).mendsBind fun _ => ?_
  refine mends_skip Same nofun ?_
  refine mends_optional mends_assignments fun start => ?_
  refine mends_skip Begins nofun ?_
  refine mends_condition.bindOf (fun test => ?_) fun _ _ => Same.before
  refine mends_skip Same nofun ?_
  refine h.bind fun body => ?_
  refine mends_skip Q nofun ?_
  exact aside_leaveScope.mendsBind fun _ => mends_pure fun _ => rfl

theorem mends_ifStatement :
    Mends place n 1 Same Q Eq (ifStatement p) (fun i => ifStatement (q i)) := by
  refine mends_expect_bind (J := Same) nofun fun t _ => ?_
  refine (aside_statementScope "if" t).mendsBind fun scope => ?_
  refine (steady_createScope scope).mendsBind fun _ => ?_
  refine mends_skip Begins nofun ?_
  refine mends_condition.bindOf (fun test => ?_) fun _ _ => Same.before
  refine mends_skip Same nofun ?_
  refine h.bind fun body => ?_
  have hrest {ι : Type} {n : ι → Nat} (node : Node) : Repeats place n 0 Same Q (do
        let _ ← expect (.keyword .endWord)
        leaveScope
        return node.withValue scope) := by
    refine mends_skip Q nofun ?_
    exact aside_leaveScope.mendsBind fun _ => mends_pure fun _ => rfl
  refine mends_accept_same (J := Same) nofun ?_ (hrest _)
  exact h.lower.bind fun otherwise => hrest (.branch .ifElse (some test) body otherwise)

theorem mends_repeatStatement :
    Mends place n 1 Same Ends Eq (repeatStatement p) (fun i => repeatStatement (q i)) := by
  refine mends_expect_bind (J := Same) nofun fun t _ => ?_
  refine (aside_statementScope "repeat" t).mendsBind fun scope => ?_
  refine (steady_createScope scope).mendsBind fun _ => ?_
  refine mends_skip Same nofun ?_
  refine mends_optional mends_assignments fun start => ?_
  refine mends_skip Same nofun ?_
  refine h.bind fun body => ?_
  refine mends_skip Begins nofun ?_
  refine mends_condition.bind fun test => ?_
  exact aside_leaveScope.mendsBind fun _ => mends_pure fun _ => rfl

theorem mends_inlineStatement :
    Mends place n 1 Same Ends Eq (inlineStatement p) (fun i => inlineStatement (q i)) := by
  refine mends_peek_same fun t => ?_
  split
  · exact (mends_repeatStatement h).when
  · exact mends_inputStatement.when
  · next hk => exact mendsWhen_printStatement (hk ▸ nofun) _
  · next hk => exact mendsWhen_printStatement (hk ▸ nofun) _
  · exact mends_returnStatement.when
  · next hk =>
    rw [hk]
    exact mendsWhen_namedStatement
  · exact (fails_unexpected _).mends.when

theorem mends_statement :
    Mends place n 1 Same Same Eq (statement p) (fun i => statement (q i)) := by
  refine mends_peek_same fun t => ?_
  split
  · exact (mends_forStatement h).when
  · exact (mends_ifStatement h).when
  · refine Mends.when ((mends_inlineStatement h).bindNext fun node => ?_)
    exact (mends_separator (.inr rfl)).bind fun _ => mends_pure fun _ => rfl

theorem mends_statementList :
    Mends place n 0 Same Same Eq (statementList p) (fun i => statementList (q i)) := by
  refine mends_repeat (f := fun before => statement p >>= listedUpTo before)
    (g := fun i before => statement (q i) >>= listedUpTo before) (fun φ m hm p' q' ih before => ?_)
    []
  simp only [listedUpTo, bind_assoc]
  have hblock : Mends place (fun i => m i - 1) 0 Same Same Eq p (fun i => q (φ i)) :=
    h.reindex φ (fun i => Nat.sub_le_sub_right (hm i) 1) fun _ => rfl
  refine ((mends_statement hblock).bindNext fun node => ?_).weaken
  refine mends_look_same fun c => ?_
  cases c with
  | true => exact (mends_pure fun _ => rfl).when
  | false => exact (ih (node :: before)).when

end Blocks

theorem mends_warn_emptyBlock : Mends place n 0 Same Same Eq (do warn (← peek) .emptyBlock)
    (fun _ => do warn (← peek) .emptyBlock) := by
  intro s a s' hp whole F hF
  cases hp
  obtain ⟨reports, tokens, repair, total⟩ := F
  obtain ⟨x, hx, hr⟩ := hF
  obtain ⟨l, hs⟩ := List.head?_eq_some_iff.1 hx
  have htotal := State.total_reported total
  have hcur : s.stream.current = x := State.current_of_ahead hs
  rw [hcur] at htotal
  have hrepair : Repair place (x :: l) reports tokens := hs ▸ repair
  refine ⟨⟨_, tokens, by rw [show s.ahead = x :: l from hs]; exact .pass hrepair, htotal⟩,
    ⟨x, hx, hr⟩, Nat.le_refl _, fun i left t _ hmeets => ?_⟩
  have hcur' : t.stream.current = x := by
    rw [State.current_eq, hmeets.ahead, hr]
    rfl
  refine ⟨(), t.reported (.warning x .emptyBlock), ?_, rfl,
    ⟨hmeets.agrees.scopes, hmeets.agrees.function, hmeets.agrees.depth⟩, hmeets.ahead, ?_⟩
  · show warn t.stream.current .emptyBlock t = _
    rw [hcur']
    rfl
  · have hleft := hmeets.total
    rw [State.reported, Array.toList_push, List.append_assoc]
    exact hleft

theorem mends_block : Repeats place n 0 Same Same block := by
  refine mends_fix fun φ m hm p q ih => ?_
  refine mends_look_same (φ := closesBlock) fun c => ?_
  cases c with
  | true =>
    refine Mends.when ?_
    exact mends_warn_emptyBlock.bind fun _ => mends_pure fun _ => rfl
  | false =>
    refine Mends.when ?_
    exact (mends_statementList ih).bind fun _ => mends_pure fun _ => rfl

end StackCompiler.Parser
