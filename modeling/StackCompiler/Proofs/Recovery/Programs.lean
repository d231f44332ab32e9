import StackCompiler.Program.Parser
import StackCompiler.Proofs.Recovery.Statements

/-!
# Programs that are repaired

A program that the parser accepts has the same tree and the same symbols once it is repaired. The
only reports that stay are those about blocks without statements.
-/

namespace StackCompiler.Parser

variable {ι α β : Type} {place : Token → Position} {n : ι → Nat} {k : Nat} {P Q : Junction}
  {R : α → β → Prop}

theorem mends_scalarType : Repeats place n 0 Same Q scalarType := by
  refine mends_peek_same fun t => ?_
  have hword {w : Keyword} (hk : t.kind = .keyword w) (type : DataType) :
      MendsWhen place (· = t.kind) n 0 Same Q Eq (do let _ ← advance; return type)
        (fun _ => do let _ ← advance; return type) := by
    have hne : ¬ .eof = t.kind := by
      rw [hk]
      exact nofun
    exact (mendsWhen_advance_bind (J := Q) hne fun _ _ => mends_pure fun _ => rfl).weaken
  split
  · next hk => exact hword hk .int
  · next hk => exact hword hk .real
  · next hk => exact hword hk .bool
  · exact (fails_fail _ _).mends.when
  · exact (fails_unexpected _).mends.when

theorem mends_declaration (region : Option Region) (isParameter : Bool) :
    Repeats place n 0 Same Q (declaration region isParameter) := by
  refine mends_expect_next (J := Before .colon) nofun fun t _ => ?_
  refine (mends_separator (.inl rfl)).bind fun _ => ?_
  refine (mends_scalarType (Q := Q)).bind fun type => ?_
  exact (steady_declare _ _ _).mendsBind fun id => mends_pure fun _ => rfl

theorem mends_declarations (region : Region) :
    Repeats place n 0 Same Same (declarations region) := by
  refine mends_is_same (Mends.when ?_) (mends_pure fun _ => rfl)
  exact (mends_items (mends_declaration _ _)).bindOf (fun _ => mends_pure fun _ => rfl)
    fun _ _ => Same.before

theorem mends_constant : Repeats place n 0 Same Ends constant := by
  refine mends_expect_next (J := Same) nofun fun t _ => ?_
  refine (aside_checkFresh t).mendsBind fun _ => ?_
  refine mends_skip Begins nofun ?_
  refine mends_sumExpression.bind fun value => ?_
  refine (aside_typeOf value).mendsBind fun type => ?_
  exact (steady_declare _ _ _).mendsBind fun id => mends_pure fun _ => rfl

theorem mends_constants : Repeats place n 0 Same Same constants :=
  (mends_items mends_constant).bindOf (fun _ => mends_pure fun _ => rfl) fun _ _ => Same.before

theorem mends_arrayType (name : Token) : Repeats place n 0 Same Q (arrayType name) := by
  refine mends_skip Begins nofun ?_
  refine mends_peek_bind fun first => ?_
  refine mends_sumExpression.bindOf (fun length => ?_) fun _ _ => Same.before
  refine (aside_typeOf length).mendsBind fun type => ?_
  refine mends_check (fails_fail_bind _ _ _) fun _ => ?_
  refine mends_skip Same nofun ?_
  refine mends_skip Same nofun ?_
  refine mends_expect_next (J := Q) nofun fun element _ => ?_
  refine (aside_resolve element.text).mendsBind fun elementId => ?_
  cases elementId with
  | none => exact (fails_fail _ _).mends
  | some elementId =>
    refine (aside_namesType _ elementId).mendsBind fun isStruct => ?_
    refine mends_check (fails_fail_bind _ _ _) fun _ => ?_
    exact (steady_declare _ _ _).mendsBind fun id => mends_pure fun _ => rfl

theorem mends_recordType (name : Token) : Repeats place n 0 Same Q (recordType name) := by
  refine (steady_declare _ _ _).mendsBind fun id => ?_
  refine (steady_createScope _).mendsBind fun _ => ?_
  refine (mends_items (mends_declaration _ _)).bindOf (fun fields => ?_) fun _ _ => Same.before
  refine mends_skip Q nofun ?_
  exact aside_leaveScope.mendsBind fun _ => mends_pure fun _ => rfl

theorem mends_typeDefinition : Repeats place n 1 Same Q typeDefinition := by
  refine mends_expect_bind (J := Same) nofun fun name _ => ?_
  refine mends_skip Same nofun ?_
  exact mends_accept_same (J := Same) nofun (mends_arrayType name) (mends_recordType name)

theorem mends_typeDefinitions : Repeats place n 0 Same Same typeDefinitions := by
  refine (mends_typeDefinition (Q := Same)).bind fun first => ?_
  exact (mends_whileList mends_typeDefinition).bind fun _ => mends_pure fun _ => rfl

theorem mends_arrayDeclaration : Repeats place n 0 Same Q arrayDeclaration := by
  refine mends_expect_next (J := Before .colon) nofun fun t _ => ?_
  refine (mends_separator (.inl rfl)).bind fun _ => ?_
  refine mends_expect_next (J := Q) nofun fun type _ => ?_
  refine (aside_resolve type.text).mendsBind fun typeId => ?_
  cases typeId with
  | none => exact (fails_of_error fun _ => ⟨_, _, rfl⟩).mends
  | some typeId =>
    refine (aside_namesType _ typeId).mendsBind fun isArray => ?_
    refine mends_check (fails_fail_bind _ _ _) fun _ => ?_
    exact (steady_declare _ _ _).mendsBind fun id => mends_pure fun _ => rfl

theorem mends_arrayDeclarations : Repeats place n 0 Same Same arrayDeclarations :=
  (mends_items mends_arrayDeclaration).bindOf (fun _ => mends_pure fun _ => rfl)
    fun _ _ => Same.before

theorem mends_introduced (w : Keyword) {p : Parser (Option Node)}
    (h : ∀ {ι : Type} {n : ι → Nat}, Repeats place n 0 Same Same p) :
    Repeats place n 0 Same Same (introduced w p) :=
  mends_accept_same (J := Same) nofun h (mends_pure fun _ => rfl)

theorem mends_globals : Repeats place n 0 Same Same globals := by
  refine (mends_introduced .constants mends_constants).bind fun constants => ?_
  refine (mends_introduced .types mends_typeDefinitions).bind fun types => ?_
  refine (mends_introduced .arrays mends_arrayDeclarations).bind fun arrays => ?_
  exact mends_pure fun _ => rfl

theorem Mends.within {p : Parser α} {q : ι → Parser β} (h : Mends place n k P Q R p q)
    (function : Symbol.Id) :
    Mends place n k P Q R (within function p) (fun i => Parser.within function (q i)) := by
  have hwithin {α : Type} (p : Parser α) (s : State) : Parser.within function p s =
      (do
        let a ← p
        modify fun s' => { s' with function := s.function }
        return a : Parser α) { s with function := some function } := rfl
  intro s a s' hp whole F hF
  rw [hwithin] at hp
  cases hr : p { s with function := some function } with
  | error e s₁ =>
    rw [bind_of_error hr] at hp
    cases hp
  | ok b s₁ =>
    rw [bind_of_ok hr] at hp
    cases hp
    obtain ⟨E, hE, hlen, hrun⟩ :=
      h _ _ _ hr whole ⟨F.reports, F.tokens, F.repair, F.total⟩ hF
    refine ⟨⟨E.reports, E.tokens, E.repair, E.total⟩, hE, hlen, fun i left t hi hmeets => ?_⟩
    have hin : E.Meets left { t with function := some function } :=
      ⟨⟨hmeets.agrees.scopes, rfl, hmeets.agrees.depth⟩, hmeets.ahead, hmeets.total⟩
    obtain ⟨b, t₁, hq, hab, hout⟩ := hrun i left _ hi hin
    refine ⟨b, { t₁ with function := t.function }, ?_, hab,
      ⟨hout.agrees.scopes, hmeets.agrees.function, hout.agrees.depth⟩, hout.ahead, hout.total⟩
    show Parser.within function (q i) t = _
    rw [hwithin, bind_of_ok hq]
    rfl

theorem mends_parameters : Repeats place n 0 Same Same parameters := by
  refine mends_is_same (mends_pure fun _ => rfl).when ?_
  exact (mends_items (mends_declaration _ _)).conseq (fun _ _ h => h) fun _ _ => Same.before

theorem mends_returnType : Repeats place n 0 Same Q returnType :=
  mends_accept_same (J := Q) nofun (mends_pure fun _ => rfl) mends_scalarType

theorem mends_function : Repeats place n 1 Same Q function := by
  refine mends_expect_bind (J := Same) nofun fun _ _ => ?_
  refine mends_expect_next (J := Same) nofun fun name _ => ?_
  refine (steady_declare _ _ _).mendsBind fun id => ?_
  refine (steady_createScope _).mendsBind fun _ => ?_
  refine mends_skip Same nofun ?_
  refine mends_parameters.bind fun params => ?_
  refine mends_skip (Before .colon) nofun ?_
  refine (Aside.forIn (fun param => aside_addAttribute id (.parameter param)) _).mendsBind
    fun _ => ?_
  refine (mends_separator (.inl rfl)).bind fun _ => ?_
  refine (mends_returnType (Q := Same)).bind fun type => ?_
  refine (aside_addAttribute id _).mendsBind fun _ => ?_
  refine (mends_declarations _).bind fun locals => ?_
  refine mends_skip Same nofun ?_
  refine (mends_block.within id).bind fun body => ?_
  refine mends_skip Q nofun ?_
  exact aside_leaveScope.mendsBind fun _ => mends_pure fun _ => rfl

theorem mends_functions : Repeats place n 0 Same Same functions :=
  (mends_whileList mends_function).bind fun _ => mends_pure fun _ => rfl

theorem mends_mainBody : Repeats place n 0 Same Q mainBody := by
  refine mends_skip Same nofun ?_
  refine (steady_createScope _).mendsBind fun _ => ?_
  refine (mends_declarations _).bind fun declared => ?_
  refine mends_skip Same nofun ?_
  refine mends_block.bind fun body => ?_
  refine mends_skip Q nofun ?_
  exact aside_leaveScope.mendsBind fun _ => mends_pure fun _ => rfl

/-! ## Programs -/

/-- A program up to its name at the end. -/
def programBody : Parser Node := do
  createScope globalScope
  let _ ← expect (.keyword .cd20)
  let name ← expect .ident
  let globals ← globals
  let functions ← functions
  let main ← mainBody
  let _ ← expect (.keyword .cd20)
  let endName ← expect .ident
  unless endName.text = name.text do
    fail endName (.endsWith endName.text name.text)
  return (Node.branch .program (some globals) functions (some main)).withValue name.text

/-- What follows the name at the end of a program. -/
def programEnd (node : Node) : Parser Node := do
  unless ← atEnd do
    warn (← peek) .trailingInput
  leaveScope
  return node

theorem program_eq : program = programBody >>= programEnd := by
  have hcheck (c : Prop) [Decidable c] (p q : Parser Node) :
      (if c then p else q) >>= programEnd = if c then p >>= programEnd else q >>= programEnd :=
    apply_ite (· >>= programEnd) c p q
  simp only [program, programBody, bind_assoc, hcheck, pure_bind]
  rfl

theorem mends_programBody : Repeats place n 0 Same (fun _ _ => True) programBody := by
  refine (steady_createScope _).mendsBind fun _ => ?_
  refine mends_skip Same nofun ?_
  refine mends_expect_next (J := Same) nofun fun name _ => ?_
  refine mends_globals.bind fun globals => ?_
  refine mends_functions.bind fun functions => ?_
  refine (mends_mainBody (Q := Same)).bind fun main => ?_
  refine mends_skip Same nofun ?_
  refine mends_expect_next (J := fun _ _ => True) nofun fun endName _ => ?_
  exact mends_check (fails_fail_bind _ _ _) fun _ => mends_pure fun _ => rfl

theorem programEnd_eq (node : Node) (s : State) : programEnd node s =
    if s.stream.kind = .eof then .ok node { s with scopes := s.scopes.leave }
    else .ok node { s.reported (.warning s.stream.current .trailingInput) with
      scopes := s.scopes.leave } := by
  show (if decide (s.stream.kind = .eof) then leaveScope >>= fun _ => pure node else
    peek >>= fun t => warn t .trailingInput >>= fun _ => leaveScope >>= fun _ => pure node) s = _
  simp only [decide_eq_true_eq]
  split <;> rfl

/-- What the first run leaves behind the program is kept, or cut off where it is reported. -/
theorem exists_prospect_programEnd (place : Token → Position) {node a : Node} {s s' : State}
    (hp : programEnd node s = .ok a s') :
    ∃ F : Prospect place s'.diagnostics.toList s, ∀ left t, F.Meets left t →
      ∃ t', programEnd node t = .ok a t' ∧ s'.Agrees t' ∧ t'.diagnostics.toList = left := by
  rw [programEnd_eq] at hp
  have hends (t : State) (ht : t.stream.kind = .eof) :
      programEnd node t = .ok node { t with scopes := t.scopes.leave } := by
    rw [programEnd_eq, if_pos ht]
  by_cases hk : s.stream.kind = .eof
  · rw [if_pos hk] at hp
    cases hp
    refine ⟨⟨[], s.ahead, .refl _, List.append_nil _⟩, fun left t hmeets => ?_⟩
    have hkt : t.stream.kind = .eof := by rwa [State.kind_eq, hmeets.ahead, ← State.kind_eq]
    refine ⟨_, hends t hkt, ⟨congrArg Scopes.leave hmeets.agrees.scopes, hmeets.agrees.function,
      hmeets.agrees.depth⟩, ?_⟩
    rw [← hmeets.total]
    exact (List.append_nil _).symm
  · -- the input reported behind the program is cut off
    rw [if_neg hk] at hp
    cases hp
    obtain ⟨x, l, hs⟩ := State.exists_ahead hk
    have hcur := State.current_of_ahead hs
    refine ⟨⟨[.warning x .trailingInput], [], by rw [hs]; exact .cut x l, ?_⟩,
      fun left t hmeets => ?_⟩
    · rw [← hcur]
      exact (Array.toList_push ..).symm
    · have hkt : t.stream.kind = .eof := by
        rw [State.kind_eq, hmeets.ahead]
        rfl
      refine ⟨_, hends t hkt, ⟨congrArg Scopes.leave hmeets.agrees.scopes, hmeets.agrees.function,
        hmeets.agrees.depth⟩, ?_⟩
      rw [← hmeets.total]
      exact (List.append_nil _).symm

theorem program_repaired (place : Token → Position) {root : Node} {s s' : State}
    (hp : program s = .ok root s') :
    ∃ E : Prospect place s'.diagnostics.toList s, ∀ left t, E.Meets left t →
      ∃ t', program t = .ok root t' ∧ s'.Agrees t' ∧ t'.diagnostics.toList = left := by
  rw [program_eq] at hp ⊢
  simp only [Bind.bind, EStateM.bind] at hp
  cases hbody : programBody s with
  | error e s₁ =>
    rw [hbody] at hp
    cases hp
  | ok node s₁ =>
    rw [hbody] at hp
    obtain ⟨F, hend⟩ := exists_prospect_programEnd place hp
    -- The second run is indexed by the number of tokens that it may have.
    obtain ⟨E, -, -, hrun⟩ := mends_programBody (n := id) s node s₁ hbody _ F trivial
    refine ⟨E, fun left t hmeets => ?_⟩
    obtain ⟨b, t₁, hq, rfl, hmeets₁⟩ := hrun (E.tokens.length + 1) left t (Nat.lt_succ_self _) hmeets
    obtain ⟨t', ht', hrest⟩ := hend left t₁ hmeets₁
    refine ⟨t', ?_, hrest⟩
    simp only [Bind.bind, EStateM.bind, hq]
    exact ht'

end StackCompiler.Parser

namespace StackCompiler

open StackCompiler.Parser

variable {ts : List Token} {scopes : Scopes}

/-- The repaired tokens of a program that is accepted give the same tree and the same symbols. What
is reported about them is what was reported about blocks without statements. If no token occurs
twice, there is only one way to repair them. -/
theorem parse_repaired (place : Token → Position) {finish : Position} {root : Node}
    (h : (parse ⟨ts.toArray, finish, 0⟩ scopes).root = some root) :
    ∃ ts', Repair place ts (parse ⟨ts.toArray, finish, 0⟩ scopes).diagnostics ts' ∧
      (∀ finish', (parse ⟨ts'.toArray, finish', 0⟩ scopes).root = some root ∧
        (parse ⟨ts'.toArray, finish', 0⟩ scopes).scopes =
          (parse ⟨ts.toArray, finish, 0⟩ scopes).scopes ∧
        (parse ⟨ts'.toArray, finish', 0⟩ scopes).diagnostics =
          (parse ⟨ts.toArray, finish, 0⟩ scopes).diagnostics.filter Diagnostic.isEmptyBlock) ∧
      (ts.Nodup → ∀ ts'', Repair place ts (parse ⟨ts.toArray, finish, 0⟩ scopes).diagnostics ts'' →
        ts'' = ts') := by
  unfold parse at h ⊢
  cases hp : program ⟨⟨ts.toArray, finish, 0⟩, scopes, #[], #[], none, 0⟩ with
  | error e s =>
    rw [hp] at h
    cases h
  | ok a s =>
    rw [hp] at h
    obtain rfl := Option.some.inj h
    obtain ⟨⟨reports, ts', hrepair, htotal⟩, hrun⟩ := program_repaired place hp
    obtain rfl : reports = s.diagnostics.toList := htotal
    refine ⟨ts', hrepair, fun finish' => ?_, fun hnodup ts'' h'' => h''.unique hnodup hrepair⟩
    obtain ⟨t', ht', hagrees, hleft⟩ :=
      hrun _ ⟨⟨ts'.toArray, finish', 0⟩, scopes, #[], #[], none, 0⟩ ⟨⟨rfl, rfl, rfl⟩, rfl, rfl⟩
    rw [ht']
    exact ⟨rfl, hagrees.scopes.symm, hleft⟩

/-- A colon and a semicolon are missing, a minus sign negates no number, a block has no statements,
and there are tokens behind the end. -/
def flawedSource : String :=
  "CD20 p main a int begin a = -(1) a = 2; if (a > 1) end end CD20 p x y"

/-- There is one way to repair it, and only the report of the block without statements stays. -/
theorem parse_repaired_flawed : ∃ root ts',
    (parse (.ofTokens (tokensOf flawedSource)) .empty).root = some root ∧
    (parse (.ofTokens (tokensOf flawedSource)) .empty).diagnostics.length = 5 ∧
    (∀ ts'', Repair Token.position (tokensOf flawedSource)
      (parse (.ofTokens (tokensOf flawedSource)) .empty).diagnostics ts'' ↔ ts'' = ts') ∧
    (parse (.ofTokens ts') .empty).root = some root ∧
    (parse (.ofTokens ts') .empty).scopes =
      (parse (.ofTokens (tokensOf flawedSource)) .empty).scopes ∧
    (parse (.ofTokens ts') .empty).diagnostics.length = 1 := by
  obtain ⟨haccepted, hreports, hleft⟩ :
      (parse (.ofTokens (tokensOf flawedSource)) .empty).root.isSome = true ∧
      (parse (.ofTokens (tokensOf flawedSource)) .empty).diagnostics.length = 5 ∧
      ((parse (.ofTokens (tokensOf flawedSource)) .empty).diagnostics.filter
        Diagnostic.isEmptyBlock).length = 1 := by decide +kernel
  have hnodup : (tokensOf flawedSource).Nodup := by decide +kernel
  obtain ⟨root, hroot⟩ := Option.isSome_iff_exists.1 haccepted
  obtain ⟨ts', hrepair, hsame, hunique⟩ := parse_repaired Token.position hroot
  obtain ⟨hroot', hscopes, hdiagnostics⟩ := hsame ⟨0, 0⟩
  have hlength := congrArg List.length hdiagnostics
  refine ⟨root, ts', hroot, hreports, fun ts'' => ⟨hunique hnodup ts'', ?_⟩, hroot', hscopes,
    hlength.trans hleft⟩
  rintro rfl
  exact hrepair

end StackCompiler
