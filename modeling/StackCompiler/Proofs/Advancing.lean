import StackCompiler.Proofs.Aside
import StackCompiler.Program.Parser

/-!
# Parsers consume tokens

Recursion and repetition are guarded: a parser that has consumed nothing may not run itself again.
The guards are never needed. Every list item, every statement and every operand consumes a token,
so no program makes the parser fail for want of progress.
-/

namespace StackCompiler.Parser

variable {α β : Type} {n m : Nat} {k l : α → Nat} {p q : Parser α} {s : State} {w : Token.Kind}

/-- Where fewer than `n` tokens are left, the parser consumes `k a` tokens at least before it ends
with `a`, and if it fails, then not because it consumed none. -/
def AdvancesAt (n : Nat) (k : α → Nat) (p : Parser α) (s : State) : Prop :=
  s.stream.remaining < n → wp (fun e _ => e.fault ≠ .noProgress) p
    (fun a s' => s'.stream.remaining + k a ≤ s.stream.remaining) s

def Advances (n : Nat) (k : α → Nat) (p : Parser α) : Prop := ∀ s, AdvancesAt n k p s

abbrev Proceeds (n : Nat) (p : Parser α) : Prop := Advances n (fun _ => 0) p

abbrev Consumes (n : Nat) (p : Parser α) : Prop := Advances n (fun _ => 1) p

namespace Advances

theorem mono (h : Advances m k p) (hn : n ≤ m) : Advances n k p :=
  fun s hs => h s (Nat.lt_of_lt_of_le hs hn)

theorem proceeds (h : Advances n k p) : Proceeds n p :=
  fun s hs => wp_mono (h s hs) fun _ _ ha => Nat.le_trans (Nat.le_add_right _ _) ha

theorem pure {a : α} (h : k a = 0) : Advances n k (pure a) :=
  fun s _ => Nat.le_of_eq (by rw [h, Nat.add_zero])

theorem fail (t : Token) {f : Fault} (hf : f ≠ .noProgress) :
    Advances n k (fail t f : Parser α) := fun _ _ => hf

theorem unexpected (what : String) : Advances n k (unexpected what : Parser α) := fun s _ =>
  show (Fault.unexpected what s.stream.current) ≠ .noProgress by
    unfold Fault.unexpected
    split <;> simp

theorem ite {c : Prop} [Decidable c] (h : Advances n k p) (h' : Advances n k q) :
    Advances n k (if c then p else q) := by
  split
  · exact h
  · exact h'

theorem check {c : Prop} [Decidable c] {t : Token} {f : Fault} {g : β → Parser α}
    (hf : f ≠ .noProgress) (h : Advances n k p) :
    Advances n k (if c then p else Parser.fail t f >>= g) := h.ite fun _ _ => hf

theorem refuse {c : Prop} [Decidable c] {t : Token} {f : Fault} {g : β → Parser α}
    (hf : f ≠ .noProgress) (h : Advances n k p) :
    Advances n k (if c then Parser.fail t f >>= g else p) := ite (fun _ _ => hf) h

theorem of_aside (h : Aside p) : Proceeds n p := by
  intro s _
  rw [wp]
  cases hp : p s with
  | error e s' => exact (wp_of_error (h s s) hp).1
  | ok a s' =>
    show s'.stream.remaining ≤ _
    rw [(h.of_ok hp).1]
    exact Nat.le_refl _

end Advances

section Rules

variable {k : β → Nat} {f : α → Parser β}

/-- What was consumed first counts, and lowers the number of tokens that are left. -/
theorem AdvancesAt.step (h : AdvancesAt n (fun _ => 1) p s)
    (hf : ∀ a, Advances (n - 1) (fun b => k b - 1) (f a)) : AdvancesAt n k (p >>= f) s := by
  intro hs
  rw [wp_bind]
  refine wp_mono (h hs) fun a s' ha => ?_
  have hlt : s'.stream.remaining < s.stream.remaining := ha
  refine wp_mono (hf a s' (by omega)) fun b s'' hb => ?_
  have hleft : s''.stream.remaining + (k b - 1) ≤ s'.stream.remaining := hb
  omega

theorem Advances.step (h : Consumes n p) (hf : ∀ a, Advances (n - 1) (fun b => k b - 1) (f a)) :
    Advances n k (p >>= f) := fun s => (h s).step hf

theorem Advances.next (h : Advances n l p) (hf : ∀ a, Advances n k (f a)) :
    Advances n k (p >>= f) := by
  intro s hs
  rw [wp_bind]
  refine wp_mono (h s hs) fun a s' ha => wp_mono (hf a s' (by omega)) fun b s'' hb => ?_
  omega

theorem Aside.next (h : Aside p) (hf : ∀ a, Advances n k (f a)) : Advances n k (p >>= f) :=
  (Advances.of_aside h).next hf

end Rules

theorem AdvancesAt.peek {f : Token → Parser α} (h : AdvancesAt n k (f s.stream.current) s) :
    AdvancesAt n k (Parser.peek >>= f) s := h

theorem AdvancesAt.warn {t : Token} {w : Notice}
    (h : AdvancesAt n k p { s with
      diagnostics := s.diagnostics.push (.warning t w)
      log := s.log.push (.warned (Diagnostic.warning t w).remark) }) :
    AdvancesAt n k (Parser.warn t w >>= fun _ => p) s := h

theorem advancesAt_advance (h : s.stream.current.kind = w) (hw : w ≠ .eof) :
    AdvancesAt n (fun _ => 1) advance s :=
  fun _ => s.stream.remaining_advance_lt (decide_eq_false fun heof => hw (h.symm.trans heof))

theorem proceeds_advance : Proceeds n advance := fun _ _ =>
  Nat.sub_le_sub_left (Nat.le_succ _) _

theorem proceeds_get : Proceeds n (get : Parser State) := fun s _ => Nat.le_refl s.stream.remaining

theorem proceeds_peek : Proceeds n peek := proceeds_get.next fun _ => .pure rfl

theorem proceeds_is (w : Token.Kind) : Proceeds n (is w) := proceeds_get.next fun _ => .pure rfl

theorem proceeds_modify {g : State → State} (h : ∀ s, (g s).stream = s.stream) :
    Proceeds n (modify g : Parser Unit) := fun s _ =>
  Nat.le_of_eq (congrArg TokenStream.remaining (h s))

theorem proceeds_warn (t : Token) (w : Notice) : Proceeds n (warn t w) :=
  proceeds_modify fun _ => rfl

theorem proceeds_createScope (name : String) : Proceeds n (createScope name) :=
  proceeds_modify fun _ => rfl

theorem proceeds_declare (t : Token) (sym : Symbol) (region : Option Region) :
    Proceeds n (declare t sym region) :=
  (aside_checkFresh t).next fun _ s _ => Nat.le_refl s.stream.remaining

theorem Advances.is_then (h : ∀ s, s.stream.current.kind = w → AdvancesAt n k p s)
    (h' : Advances n k q) : Advances n k (is w >>= fun b => if b then p else q) := by
  intro s
  show AdvancesAt _ _ (if decide (s.stream.kind = w) = true then _ else _) s
  by_cases hk : s.stream.kind = w
  · rw [if_pos (decide_eq_true hk)]
    exact h s hk
  · rw [if_neg (by simpa using hk)]
    exact h' s

theorem consumes_expect (hw : w ≠ .eof) : Consumes n (expect w) := by
  intro s _
  simp only [wp, expect, TokenStream.expect]
  by_cases hk : s.stream.kind = w
  · rw [if_pos hk]
    exact s.stream.remaining_advance_lt (decide_eq_false (hk ▸ hw))
  · rw [if_neg hk]
    exact Advances.unexpected (α := Unit) (n := s.stream.remaining + 1) (k := fun _ => 0) _ s
      (Nat.lt_succ_self _)

theorem Advances.skip {f : Token → Parser α} (hw : w ≠ .eof) (hf : ∀ t, Advances n k (f t)) :
    Advances n k (expect w >>= f) := (consumes_expect hw).next hf

theorem proceeds_accept (w : Token.Kind) : Proceeds n (accept w) := by
  intro s hs
  simp only [accept, wp_modifyGet, TokenStream.accept]
  split
  · exact proceeds_advance s hs
  · exact Nat.le_refl _

theorem proceeds_separator (w : Token.Kind) : Proceeds n (separator w) :=
  (proceeds_accept w).next fun _ => .ite (.pure rfl) <| proceeds_peek.next fun _ =>
    proceeds_warn _ _

/-! ## Recursion and repetition -/

theorem advances_fix {body : Parser α → Parser α}
    (h : ∀ m < n, ∀ p, Advances m k p → Advances (m + 1) k (body p)) :
    Advances n k (fix body) := by
  intro s
  induction hr : s.stream.remaining using Nat.strongRecOn generalizing s with
  | _ r ih =>
    subst hr
    intro hs
    rw [wp, fix]
    -- below what is left now, the guarded parser is the parser itself
    refine h s.stream.remaining hs _ (fun s' hs' => ?_) s (Nat.lt_succ_self _)
    simp only [wp, hs', if_true]
    exact ih _ hs' s' rfl (Nat.lt_trans hs' hs)

theorem advances_loop {step : β → Parser (β ⊕ α)}
    (h : ∀ b, Advances n (Sum.elim (fun _ => 1) k) (step b)) (b : β) :
    Advances n k (loop step b) := by
  intro s
  induction hr : s.stream.remaining using Nat.strongRecOn generalizing b s with
  | _ r ih =>
    subst hr
    intro hs
    have hstep := h b s hs
    rw [wp] at hstep ⊢
    rw [loop]
    cases hx : step b s with
    | error e s' =>
      rw [hx] at hstep
      exact hstep
    | ok x s' =>
      rw [hx] at hstep
      cases x with
      | inr a => exact hstep
      | inl b' =>
        have hlt : s'.stream.remaining < s.stream.remaining := hstep
        simp only [hlt, if_true]
        refine wp_mono (ih _ hlt b' s' rfl (Nat.lt_trans hlt hs)) fun a s'' ha => ?_
        omega

theorem consumes_commaList (h : Consumes n p) : Consumes n (commaList p) :=
  advances_loop (fun _ => h.step fun _ =>
    (proceeds_accept _).next fun _ => .ite (.pure rfl) (.pure rfl)) []

theorem proceeds_whileList (w : Token.Kind) (h : Consumes n p) :
    Proceeds n (whileList (is w) p) :=
  advances_loop (fun _ => (proceeds_is w).next fun _ =>
    .ite (h.step fun _ => .pure rfl) (.pure rfl)) []

theorem consumes_leftChain {operand : Parser Node} {operator? : Token.Kind → Option Node.Kind}
    {combine : Node.Kind → Node → Node → Token → Token → Token → Parser Node}
    (h : Consumes n operand) (hc : ∀ k a b t u o, Aside (combine k a b t u o)) :
    Consumes n (leftChain operand operator? combine) := by
  refine proceeds_peek.next fun first => h.step fun left => advances_loop (fun left => ?_) left
  refine proceeds_peek.next fun t => ?_
  cases operator? t.kind with
  | none => exact .pure rfl
  | some k =>
    refine proceeds_advance.next fun op => proceeds_peek.next fun next => ?_
    refine (h.mono (Nat.sub_le n 1)).step fun right => ?_
    exact (hc k left right first next op).next fun _ => .pure rfl

theorem Advances.grouped (h : Advances n k p) : Advances n k (Parser.grouped p) := by
  intro s hs
  have hp := h { s with depth := s.depth + 1 } hs
  rw [wp] at hp ⊢
  rw [Parser.grouped]
  cases hr : p { s with depth := s.depth + 1 } with
  | error e s' =>
    rw [hr] at hp
    exact hp
  | ok a s' =>
    rw [hr] at hp
    exact hp

/-! ## Expressions -/

theorem proceeds_variableNamed (name : Token) : Proceeds n (variableNamed name) := by
  refine (proceeds_is _).next fun _ => .refuse (by simp) ?_
  refine (aside_resolve name.text).next fun found => ?_
  cases found with
  | none => exact .fail name (by simp)
  | some id =>
    refine (aside_symbol? id).next fun sym => ?_
    split
    case h_4 => exact .pure rfl
    all_goals exact .fail name (by simp)

section Expressions

variable {e : Parser Node} (he : Consumes n e)
include he

theorem proceeds_callNamed (name : Token) (kind : Node.Kind) :
    Proceeds (n + 1) (callNamed e name kind) := by
  refine (aside_resolve name.text).next fun found => ?_
  cases found with
  | none => exact .fail name (by simp)
  | some id =>
    refine (aside_symbol? id).next fun _ => .check (by simp) ?_
    -- the arguments are read behind a parenthesis, with `n` tokens at most
    have hargs : Proceeds n (arguments e) := (proceeds_is _).next fun _ => .ite (.pure rfl) <|
      (consumes_commaList (proceeds_peek.next fun _ => he.step fun _ => .pure rfl)).proceeds
    refine (consumes_expect (by simp)).step fun _ => hargs.next fun args => ?_
    refine .skip (by simp) fun _ => (aside_symbol? id).next fun _ => .check (by simp) ?_
    exact (aside_checkArguments args _).next fun _ => .pure rfl

theorem proceeds_named (name : Token) : Proceeds (n + 1) (named e name) := by
  refine (proceeds_is _).next fun _ => .ite ?_ (proceeds_variableNamed name)
  refine (proceeds_callNamed he name .call).next fun node => ?_
  exact (aside_typeOf node).next fun _ => .refuse (by simp) (.pure rfl)

theorem advancesAt_operand : AdvancesAt (n + 1) (fun _ => 1) (operand e s.stream.current) s := by
  unfold operand
  split
  · next hk =>
    exact (advancesAt_advance hk (by simp)).step fun _ => .of_aside (aside_typed _ _ _)
  · next hk =>
    exact (advancesAt_advance hk (by simp)).step fun _ => .of_aside (aside_typed _ _ _)
  · next hk =>
    show AdvancesAt _ _ (if s.depth ≥ maxDepth then _ else _) s
    split
    · exact fun _ => Fault.noConfusion
    · refine (advancesAt_advance hk (by simp)).step fun _ => he.grouped.next fun _ => ?_
      exact .skip (by simp) fun _ => .pure rfl
  · next hk =>
    refine (advancesAt_advance hk (by simp)).step fun name => ?_
    exact (proceeds_named he name).mono (Nat.le_succ n)
  · exact Advances.unexpected _ s

theorem consumes_primary : Consumes (n + 1) (primary e) := by
  refine (proceeds_accept _).next fun negative s => .peek ?_
  dsimp only
  split
  · next hk =>
    exact (advancesAt_advance hk (by simp)).step fun _ => .of_aside (aside_integerLiteral _ _)
  · next hk =>
    exact (advancesAt_advance hk (by simp)).step fun _ => .of_aside (aside_realLiteral _ _)
  · cases negative with
    | false => exact advancesAt_operand he
    | true => exact .warn (advancesAt_operand he)

theorem consumes_power : Consumes (n + 1) (power e) := by
  refine advances_fix fun m hm p hp => proceeds_peek.next fun first => ?_
  refine ((consumes_primary he).mono hm).step fun base => ?_
  refine (proceeds_is _).next fun _ => .ite ?_ (.pure rfl)
  refine proceeds_advance.next fun op => proceeds_peek.next fun next => hp.next fun exponent => ?_
  exact .of_aside (aside_arithmetic _ _ _ _ _ _)

theorem consumes_sum : Consumes (n + 1) (sum e) :=
  consumes_leftChain (consumes_leftChain (consumes_power he) aside_arithmetic) aside_arithmetic

theorem consumes_relation : Consumes (n + 1) (relation e) := by
  have hnot : Proceeds (n + 1) (some <$> advance) := fun s hs => proceeds_advance s hs
  refine (proceeds_is _).next fun _ => .ite (hnot.next fun negation => ?_)
    (.next (l := fun _ => 0) (.pure rfl) fun negation => ?_)
  all_goals
    refine proceeds_peek.next fun first => (consumes_sum he).step fun left => ?_
    refine proceeds_peek.next fun t => ?_
    dsimp only
    split
    case h_1 =>
      refine proceeds_advance.next fun op => ?_
      refine ((consumes_sum he).mono (Nat.le_succ n)).next fun _ => ?_
      refine (aside_compare _ left _ op).next fun node => ?_
      cases negation with
      | none => exact .pure rfl
      | some t => exact (aside_checkBoolean node first).next fun _ => .of_aside (aside_typed _ _ t)
    case h_2 =>
      cases negation with
      | none => exact .pure rfl
      | some t => exact (aside_checkBoolean left first).next fun _ => .of_aside (aside_typed _ _ t)

theorem consumes_logicalChain : Consumes (n + 1) (logicalChain e) :=
  consumes_leftChain (consumes_relation he) aside_logical

end Expressions

theorem consumes_expression : Consumes n expression :=
  advances_fix fun _ _ _ hp => consumes_logicalChain hp

/-! ## Statements -/

theorem consumes_condition : Consumes n condition :=
  proceeds_peek.next fun _ => consumes_expression.step fun node =>
    (aside_typeOf node).next fun _ => .check (by simp) (.pure rfl)

theorem proceeds_assignmentTo (name : Token) : Proceeds n (assignmentTo name) := by
  refine (proceeds_variableNamed name).next fun target => proceeds_peek.next fun op => ?_
  split
  · exact .unexpected _
  · exact .fail name (by simp)
  · refine proceeds_advance.next fun _ => (aside_isImmutable _).next fun _ => .refuse (by simp) ?_
    refine proceeds_peek.next fun t => consumes_expression.next fun value => ?_
    refine (aside_typeOf target).next fun _ => (aside_typeOf value).next fun _ => ?_
    exact .check (by simp) (.check (by simp) (.pure rfl))

theorem consumes_assignments : Consumes n assignments :=
  (consumes_commaList ((consumes_expect (by simp)).step proceeds_assignmentTo)).step
    fun _ => .pure rfl

theorem consumes_inputTarget : Consumes n inputTarget := by
  refine (consumes_expect (by simp)).step fun name => ?_
  refine (proceeds_variableNamed name).next fun node => ?_
  dsimp only
  split
  · refine (aside_isImmutable _).next fun _ => .refuse (by simp) ?_
    exact (aside_typeOf node).next fun _ => .check (by simp) (.pure rfl)
  · exact (aside_typeOf node).next fun _ => .check (by simp) (.pure rfl)

theorem consumes_printEntry : Consumes n printEntry := by
  refine .is_then (fun s hs => ?_) consumes_expression
  refine (advancesAt_advance hs (by simp)).step fun t => ?_
  exact (aside_intern _ _ _ _ _).next fun _ => .pure rfl

theorem advancesAt_printStatement (h : s.stream.current.kind = w) (hw : w ≠ .eof)
    (k : Node.Kind) : AdvancesAt n (fun _ => 1) (printStatement k) s :=
  (advancesAt_advance h hw).step fun _ => (consumes_commaList consumes_printEntry).next
    fun _ => .pure rfl

theorem proceeds_checkReturn (t : Token) (value : Option (Token × Node)) :
    Proceeds n (checkReturn t value) := by
  refine proceeds_get.next fun s => ?_
  cases s.function with
  | none =>
    cases value with
    | none => exact .pure rfl
    | some _ => exact .fail _ (by simp)
  | some id =>
    refine (aside_symbol? id).next fun function => ?_
    cases value with
    | none => exact .ite (.pure rfl) (.fail t (by simp))
    | some value =>
      refine .refuse (by simp) ((aside_typeOf value.2).next fun _ => ?_)
      exact .ite (.pure rfl) (.fail _ (by simp))

theorem proceeds_atBlockEnd : Proceeds n atBlockEnd := proceeds_peek.next fun _ => .pure rfl

theorem consumes_returnStatement : Consumes n returnStatement := by
  refine (consumes_expect (by simp)).step fun t => ?_
  refine (proceeds_is _).next fun _ => proceeds_atBlockEnd.next fun _ => .ite ?_ ?_
  · exact (proceeds_checkReturn t none).next fun _ => .pure rfl
  · refine proceeds_peek.next fun first => consumes_expression.next fun node => ?_
    exact (proceeds_checkReturn t (some (first, node))).next fun _ => .pure rfl

theorem advancesAt_namedStatement (h : s.stream.current.kind = .ident) :
    AdvancesAt n (fun _ => 1) namedStatement s := by
  refine (advancesAt_advance h (by simp)).step fun name => (proceeds_is _).next fun _ => ?_
  refine .ite ?_ (proceeds_assignmentTo name)
  exact (proceeds_callNamed consumes_expression name .callStatement).mono (Nat.le_succ _)

theorem proceeds_ending (hw : w ≠ .eof) (a : α) :
    Proceeds n (expect w >>= fun _ => leaveScope >>= fun _ => pure a) :=
  .skip hw fun _ => aside_leaveScope.next fun _ => .pure rfl

theorem Advances.opening {word : Token.Kind} {construct : String} {f : String → Parser α}
    (hw : word ≠ .eof) (hf : ∀ scope, Proceeds n (f scope)) :
    Consumes (n + 1) (expect word >>= fun t => statementScope construct t >>= fun scope =>
      createScope scope >>= fun _ => expect .leftParen >>= fun _ => f scope) :=
  (consumes_expect hw).step fun t => (aside_statementScope construct t).next fun scope =>
    (proceeds_createScope scope).next fun _ => .skip (by simp) fun _ => hf scope

section Blocks

variable {b : Parser (Option Node)} (hb : Proceeds n b)
include hb

theorem consumes_forStatement : Consumes (n + 1) (forStatement b) := by
  refine .opening (by simp) fun scope => (proceeds_is _).next fun _ =>
    .ite (.next (l := fun _ => 0) (.pure rfl) fun _ => ?_) (consumes_assignments.next fun _ => ?_)
  all_goals
    refine .skip (by simp) fun _ => consumes_condition.next fun _ => ?_
    exact .skip (by simp) fun _ => hb.next fun _ => proceeds_ending (by simp) _

theorem consumes_ifStatement : Consumes (n + 1) (ifStatement b) := by
  refine .opening (by simp) fun scope => consumes_condition.next fun _ => ?_
  refine .skip (by simp) fun _ => hb.next fun _ => (proceeds_accept _).next fun _ => .ite ?_ ?_
  · exact hb.next fun _ => proceeds_ending (by simp) _
  · exact proceeds_ending (by simp) _

theorem consumes_repeatStatement : Consumes (n + 1) (repeatStatement b) := by
  refine .opening (by simp) fun scope => (proceeds_is _).next fun _ =>
    .ite (.next (l := fun _ => 0) (.pure rfl) fun _ => ?_) (consumes_assignments.next fun _ => ?_)
  all_goals
    refine .skip (by simp) fun _ => hb.next fun _ => .skip (by simp) fun _ => ?_
    exact consumes_condition.next fun _ => aside_leaveScope.next fun _ => .pure rfl

theorem consumes_statement : Consumes (n + 1) (statement b) := by
  have hinline : Consumes (n + 1) (inlineStatement b) := by
    refine fun s => .peek ?_
    split
    · exact consumes_repeatStatement hb s
    · exact (consumes_expect (by simp)).step (fun _ => (consumes_commaList
        consumes_inputTarget).next fun _ => .pure rfl) s
    · next hk => exact advancesAt_printStatement hk (by simp) _
    · next hk => exact advancesAt_printStatement hk (by simp) _
    · exact consumes_returnStatement s
    · next hk => exact advancesAt_namedStatement hk
    · exact Advances.unexpected _ s
  refine proceeds_peek.next fun t => ?_
  split
  · exact consumes_forStatement hb
  · exact consumes_ifStatement hb
  · exact hinline.step fun _ => (proceeds_separator _).next fun _ => .pure rfl

end Blocks

theorem proceeds_block : Proceeds n block := by
  refine advances_fix fun m _ b hb => proceeds_atBlockEnd.next fun _ => .ite ?_ ?_
  · exact proceeds_peek.next fun t => (proceeds_warn t _).next fun _ => .pure rfl
  · refine Advances.next (l := fun _ => 1) (advances_loop (fun before => ?_) []) fun _ => .pure rfl
    refine (consumes_statement hb).step fun _ => proceeds_atBlockEnd.next fun _ => ?_
    exact (proceeds_is _).next fun _ => .ite (.pure rfl) (.pure rfl)

/-! ## Declarations and programs -/

theorem proceeds_scalarType : Proceeds n scalarType := by
  refine proceeds_peek.next fun t => ?_
  split
  case h_4 => exact .fail t (by simp)
  case h_5 => exact .unexpected _
  all_goals exact proceeds_advance.next fun _ => .pure rfl

theorem consumes_declaration (region : Option Region) (isParameter : Bool) :
    Consumes n (declaration region isParameter) :=
  (consumes_expect (by simp)).step fun _ => (proceeds_separator _).next fun _ =>
    proceeds_scalarType.next fun _ => (proceeds_declare _ _ _).next fun _ => .pure rfl

theorem proceeds_declarations (region : Region) : Proceeds n (declarations region) :=
  (proceeds_is _).next fun _ => .ite ((consumes_commaList (consumes_declaration _ _)).next
    fun _ => .pure rfl) (.pure rfl)

theorem consumes_sumExpression : Consumes n sumExpression :=
  (consumes_sum consumes_expression).mono (Nat.le_succ n)

theorem consumes_constant : Consumes n constant :=
  (consumes_expect (by simp)).step fun t => (aside_checkFresh t).next fun _ =>
    .skip (by simp) fun _ => consumes_sumExpression.next fun value =>
      (aside_typeOf value).next fun _ => (proceeds_declare t _ _).next fun _ => .pure rfl

theorem proceeds_arrayType (name : Token) : Proceeds n (arrayType name) := by
  refine .skip (by simp) fun _ => proceeds_peek.next fun first => ?_
  refine consumes_sumExpression.next fun length => (aside_typeOf length).next fun _ => ?_
  refine .check (by simp) (.skip (by simp) fun _ => .skip (by simp) fun _ => ?_)
  refine .skip (by simp) fun element => (aside_resolve _).next fun found => ?_
  cases found with
  | none => exact .fail element (by simp)
  | some id =>
    refine (aside_namesType _ id).next fun _ => .check (by simp) ?_
    exact (proceeds_declare name _ _).next fun _ => .pure rfl

theorem proceeds_recordType (name : Token) : Proceeds n (recordType name) :=
  (proceeds_declare name _ _).next fun _ => (proceeds_createScope _).next fun _ =>
    (consumes_commaList (consumes_declaration _ _)).next fun _ => proceeds_ending (by simp) _

theorem consumes_typeDefinition : Consumes n typeDefinition :=
  (consumes_expect (by simp)).step fun name => .skip (by simp) fun _ =>
    (proceeds_accept _).next fun _ => .ite (proceeds_arrayType name) (proceeds_recordType name)

theorem consumes_arrayDeclaration : Consumes n arrayDeclaration := by
  refine (consumes_expect (by simp)).step fun t => (proceeds_separator _).next fun _ => ?_
  refine .skip (by simp) fun type => (aside_resolve _).next fun found => ?_
  cases found with
  | none =>
    refine .next (l := fun _ => 0) (.pure rfl) fun _ => .check (by simp) ?_
    exact (proceeds_declare t _ _).next fun _ => .pure rfl
  | some id =>
    refine (aside_namesType _ id).next fun _ => .check (by simp) ?_
    exact (proceeds_declare t _ _).next fun _ => .pure rfl

theorem proceeds_introduced (w : Keyword) {p : Parser (Option Node)} (h : Proceeds n p) :
    Proceeds n (introduced w p) :=
  (proceeds_accept _).next fun _ => .ite h (.pure rfl)

theorem proceeds_globals : Proceeds n globals := by
  refine .next (proceeds_introduced _ ?_) fun _ => .next (proceeds_introduced _ ?_) fun _ =>
    .next (proceeds_introduced _ ?_) fun _ => .pure rfl
  · exact (consumes_commaList consumes_constant).next fun _ => .pure rfl
  · refine consumes_typeDefinition.next fun _ => ?_
    exact (proceeds_whileList _ consumes_typeDefinition).next fun _ => .pure rfl
  · exact (consumes_commaList consumes_arrayDeclaration).next fun _ => .pure rfl

theorem consumes_function : Consumes n function := by
  have hparams : Proceeds (n - 1) parameters := (proceeds_is _).next fun _ =>
    .ite (.pure rfl) (consumes_commaList (consumes_declaration _ _)).proceeds
  have htype : Proceeds (n - 1) returnType := (proceeds_accept _).next fun _ =>
    .ite (.pure rfl) proceeds_scalarType
  have hbody (id : Symbol.Id) : Proceeds (n - 1) (within id block) :=
    proceeds_get.next fun _ => .next (proceeds_modify fun _ => rfl) fun _ =>
      proceeds_block.next fun _ => .next (proceeds_modify fun _ => rfl) fun _ => .pure rfl
  refine (consumes_expect (by simp)).step fun _ => .skip (by simp) fun name => ?_
  refine (proceeds_declare name _ _).next fun id => (proceeds_createScope _).next fun _ => ?_
  refine .skip (by simp) fun _ => hparams.next fun params => .skip (by simp) fun _ => ?_
  refine (Aside.forIn (fun _ => aside_addAttribute id _) _).next fun _ => ?_
  refine (proceeds_separator _).next fun _ => htype.next fun type => ?_
  refine (aside_addAttribute id _).next fun _ => (proceeds_declarations _).next fun _ => ?_
  exact .skip (by simp) fun _ => (hbody id).next fun _ => proceeds_ending (by simp) _

theorem proceeds_program : Proceeds n program := by
  refine (proceeds_createScope _).next fun _ => .skip (by simp) fun _ => ?_
  refine .skip (by simp) fun name => proceeds_globals.next fun _ => ?_
  have hfunctions : Proceeds n functions :=
    (proceeds_whileList _ consumes_function).next fun _ => .pure rfl
  have hmain : Proceeds n mainBody :=
    .skip (by simp) fun _ => (proceeds_createScope _).next fun _ =>
      (proceeds_declarations _).next fun _ => .skip (by simp) fun _ =>
        proceeds_block.next fun _ => proceeds_ending (by simp) _
  refine hfunctions.next fun _ => hmain.next fun _ => .skip (by simp) fun _ => ?_
  refine .skip (by simp) fun endName => .check (by simp) ((proceeds_is _).next fun _ => .ite ?_ ?_)
  · exact aside_leaveScope.next fun _ => .pure rfl
  · refine proceeds_peek.next fun t => (proceeds_warn t _).next fun _ => ?_
    exact aside_leaveScope.next fun _ => .pure rfl

/-- No program is rejected because a parser did not consume a token. -/
theorem program_progresses {e : ParseError} {s' : State} (h : program s = .error e s') :
    e.fault ≠ .noProgress :=
  wp_of_error (E := fun e _ => e.fault ≠ .noProgress) (proceeds_program s (Nat.lt_succ_self _)) h

end StackCompiler.Parser
