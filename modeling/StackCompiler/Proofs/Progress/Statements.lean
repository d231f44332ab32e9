import StackCompiler.Proofs.Progress.Expressions
import StackCompiler.Statement.Parser

/-!
# How far the parsers of statements come
-/

namespace StackCompiler.Parser

variable {o s : State} {st : List Nat} {ts : List Token} {ls : List Node}

theorem wp_atBlockEnd {E : ParseError → State → Prop} (Q : Bool → State → Prop) :
    wp E atBlockEnd Q s ↔
      Q (s.stream.kind = .keyword .endWord || s.stream.kind = .keyword .elseWord ||
        s.stream.kind = .keyword .untilWord) s := Iff.rfl

theorem wp_isImmutable {E : ParseError → State → Prop} (id : Symbol.Id) (Q : Bool → State → Prop) :
    wp E (isImmutable id) Q s ↔
      Q (((s.scopes.symbol? id).map Symbol.isImmutable).getD false) s := Iff.rfl

theorem readsOperand_condition (o : State) : ReadsOperand o condition := by
  intro st ts ls s h hd
  simp only [condition, wp_bind, wp_peek]
  refine wp_mono (readsOperand_expression o _ _ _ _ h.see hd) fun n s₁ ⟨h₁, hd₁⟩ => ?_
  simp only [wp_typeOf, wp_ite, wp_bind, wp_pure]
  exact ⟨fun _ => ⟨h₁.tail, hd₁⟩, fun _ => h₁.fail List.mem_cons_self⟩

theorem plain_of_assignOperator {k : Token.Kind} {n : Node.Kind} (h : assignOperator? k = some n) :
    k.isPlain = true ∧ n.isLiteral = false := by
  unfold assignOperator? at h
  split at h <;> cases h <;> exact ⟨rfl, rfl⟩

theorem at_assignmentTo {name : Token} (h : At o st ts ls s) (hn : name ∈ ts) :
    Tracks o st ts ls Node.literals (assignmentTo name) s := by
  simp only [assignmentTo, wp_bind]
  refine wp_mono (at_variableNamed h hn) ?_
  rintro target s₁ ⟨rfl, htarget⟩
  simp only [wp_peek]
  split
  · exact h.unexpected _
  · exact h.fail hn
  · next k id hk _ =>
    obtain ⟨hplain, hlit⟩ := plain_of_assignOperator hk
    simp only [wp_bind, wp_advance, wp_isImmutable, wp_ite, wp_pure, wp_peek, wp_typeOf]
    have h₁ := h.see.advance (Token.Kind.isLiteral_of_isPlain hplain)
    refine ⟨fun _ => h₁.fail (by simp [hn]), fun _ => ?_⟩
    refine wp_mono (readsOperand_expression o _ _ _ _ h₁.see (h.due hplain)) ?_
    rintro value s₂ ⟨h₂, _⟩
    refine ⟨fun _ => ⟨fun _ => ?_, fun _ => h₂.fail (by simp)⟩, fun _ => h₂.fail (by simp)⟩
    rw [Node.literals_typedBinary id hlit, htarget, List.nil_append]
    exact h₂.tail.tail

theorem at_assignments (h : At o st ts ls s) : Tracks o st ts ls Node.literalsIn assignments s := by
  simp only [assignments, wp_bind, wp_pure]
  refine wp_mono (at_commaList (P := fun _ => True) (L := Node.literals) (fun _ _ => trivial)
    (fun ls s h _ => ?_) h trivial) fun items s₁ h₁ => ?_
  · simp only [wp_bind]
    refine wp_mono (at_expect h rfl) fun name s₁ ⟨h₁, _⟩ => ?_
    exact wp_mono (at_assignmentTo h₁ List.mem_cons_self) fun n s₂ h₂ => h₂.tail
  · rwa [Node.literalsIn_list rfl]

theorem at_inputTarget (h : At o st ts ls s) : Tracks o st ts ls Node.literals inputTarget s := by
  simp only [inputTarget, wp_bind]
  refine wp_mono (at_expect h rfl) fun name s₁ ⟨h₁, _⟩ => ?_
  refine wp_mono (at_variableNamed h₁ List.mem_cons_self) ?_
  rintro n s₂ ⟨rfl, hn⟩
  have hend : At o st ts (ls ++ n.literals) s₂ := by
    rw [hn, List.append_nil]
    exact h₁.tail
  split
  · simp only [wp_bind, wp_isImmutable, wp_ite, wp_typeOf, wp_pure]
    exact ⟨fun _ => h₁.fail List.mem_cons_self,
      fun _ => ⟨fun _ => hend, fun _ => h₁.fail List.mem_cons_self⟩⟩
  · simp only [wp_bind, wp_ite, wp_typeOf, wp_pure]
    exact ⟨fun _ => hend, fun _ => h₁.fail List.mem_cons_self⟩

theorem at_inputStatement (h : At o st ts ls s) :
    Tracks o st ts ls Node.literals inputStatement s := by
  simp only [inputStatement, wp_bind, wp_pure]
  refine wp_mono (at_skip h rfl) fun _ s₁ ⟨h₁, _⟩ => ?_
  refine wp_mono (at_commaList (P := fun _ => True) (L := Node.literals) (fun _ _ => trivial)
    (fun ls s h _ => at_inputTarget h) h₁ trivial) fun items s₂ h₂ => ?_
  rw [Node.branch, Node.literals_mk rfl, Node.literalsIn_list rfl]
  simpa using h₂

theorem at_printEntry (h : At o st ts ls s) (hd : Due o s) :
    Tracks o st ts ls Node.literals printEntry s := by
  simp only [printEntry, wp_bind, wp_is, wp_ite, decide_eq_true_eq, wp_advance, wp_pure]
  refine ⟨fun hk => ?_, fun _ => ?_⟩
  · have hl : o.stream.literal? s.stream.index = some ⟨.string, s.stream.current.text⟩ := by
      rw [TokenStream.kind] at hk
      rw [TokenStream.literal?, ← h.current, hk]
    exact wp_mono (at_intern h hl fun _ => rfl) fun id s₁ h₁ => h₁.2
  · exact wp_mono (readsOperand_expression o _ _ _ _ h hd) fun n s₁ h₁ => h₁.1

theorem at_printStatement {k : Node.Kind} (hk : k.isLiteral = false) (h : At o st ts ls s)
    (hplain : s.stream.kind.isPlain = true) :
    Tracks o st ts ls Node.literals (printStatement k) s := by
  simp only [printStatement, wp_bind, wp_advance, wp_pure]
  have h₁ := h.advance (Token.Kind.isLiteral_of_isPlain hplain)
  refine wp_mono (at_commaList (P := Due o) (L := Node.literals) (fun _ hd => hd)
    (fun ls s h hd => at_printEntry h hd) h₁ (h.due hplain)) fun items s₂ h₂ => ?_
  rw [Node.branch, Node.literals_mk hk, Node.literalsIn_list rfl]
  simpa using h₂

theorem at_checkReturn {t : Token} {value : Option (Token × Node)} (h : At o st ts ls s)
    (ht : t ∈ ts) (hv : ∀ v, value = some v → v.1 ∈ ts) :
    wp (Broken o) (checkReturn t value) (fun _ s' => s' = s) s := by
  simp only [checkReturn, wp_bind, wp_get]
  split
  · split
    · exact h.fail (hv _ rfl)
    · exact rfl
  · simp only [wp_bind, wp_symbol?]
    split
    · simp only [wp_bind, wp_ite, wp_typeOf, wp_pure]
      exact ⟨fun _ => h.fail (hv _ rfl), fun _ => ⟨fun _ => trivial, fun _ => h.fail (hv _ rfl)⟩⟩
    · simp only [wp_ite, wp_pure]
      exact ⟨fun _ => trivial, fun _ => h.fail ht⟩

theorem at_returnStatement (h : At o st ts ls s) :
    Tracks o st ts ls Node.literals returnStatement s := by
  simp only [returnStatement, wp_bind]
  refine wp_mono (at_expect h rfl) ?_
  rintro t s₁ ⟨h₁, _, hd₁, _⟩
  simp only [wp_is, wp_atBlockEnd, wp_ite, wp_bind, wp_pure, wp_peek]
  refine ⟨fun _ => ?_, fun _ => ?_⟩
  · refine wp_mono (at_checkReturn h₁ List.mem_cons_self (by simp)) fun _ s₂ hs₂ => ?_
    subst hs₂
    rw [Node.branch, Node.literals_mk rfl]
    simpa using h₁.tail
  · refine wp_mono (readsOperand_expression o _ _ _ _ h₁.see (hd₁ rfl)) ?_
    rintro n s₂ ⟨h₂, _⟩
    refine wp_mono (at_checkReturn h₂ (by simp) ?_) fun _ s₃ hs₃ => ?_
    · rintro v ⟨⟩
      exact List.mem_cons_self
    · subst hs₃
      rw [Node.branch, Node.literals_mk rfl]
      simpa using h₂.tail.tail

theorem at_namedStatement (h : At o st ts ls s) (hk : s.stream.kind = .ident) :
    Tracks o st ts ls Node.literals namedStatement s := by
  simp only [namedStatement, wp_bind, wp_advance, wp_is, wp_ite]
  have h₁ := h.see.advance (by rw [hk]; rfl)
  refine ⟨fun _ => ?_, fun _ => ?_⟩
  · exact wp_mono (at_callNamed (readsOperand_expression o) rfl h₁ List.mem_cons_self)
      fun n s₂ h₂ => h₂.1.tail
  · exact wp_mono (at_assignmentTo h₁ List.mem_cons_self) fun n s₂ h₂ => h₂.tail

def ReadsStatements (o : State) (p : Parser (Option Node)) : Prop :=
  ∀ st ts ls s, At o st ts ls s →
    Tracks o st ts ls Node.literalsIn p s

section Blocks

variable {block : Parser (Option Node)}

theorem at_optionalAssignments {α : Type} {k : Token.Kind} {Q : α → State → Prop}
    (h : At o st ts ls s) (f : Option Node → Parser α)
    (hf : ∀ n s', At o st ts (ls ++ Node.literalsIn n) s' → wp (Broken o) (f n) Q s') :
    wp (Broken o) (do
      if ← is k then
        let start ← pure none
        f start
      else
        let start ← assignments
        f start) Q s := by
  simp only [wp_bind, wp_is, wp_ite, wp_pure]
  refine ⟨fun _ => hf none s (by simpa using h), fun _ => ?_⟩
  exact wp_mono (at_assignments h) fun n s₁ h₁ => hf n s₁ h₁

variable (hb : ReadsStatements o block) (h : At o st ts ls s)
include hb h

theorem at_forStatement : Tracks o st ts ls Node.literals (forStatement block) s := by
  simp only [forStatement, wp_bind]
  refine wp_mono (at_skip h rfl) fun t s₁ ⟨h₁, _⟩ => ?_
  simp only [wp_statementScope]
  refine wp_mono (at_createScope h₁ _) ?_
  rintro _ s₂ ⟨⟨i, h₂⟩, _⟩
  refine wp_mono (at_skip h₂ rfl) fun _ s₃ ⟨h₃, _⟩ => ?_
  rw [← wp_bind]
  refine at_optionalAssignments h₃ _ fun start s₄ h₄ => ?_
  simp only [wp_bind]
  refine wp_mono (at_skip h₄ rfl) fun _ s₅ ⟨h₅, hd₅⟩ => ?_
  refine wp_mono (readsOperand_condition o _ _ _ _ h₅ hd₅) fun test s₆ ⟨h₆, _⟩ => ?_
  refine wp_mono (at_expect h₆ rfl) fun _ s₇ ⟨h₇, _⟩ => ?_
  refine wp_mono (hb _ _ _ _ h₇.tail) fun body s₈ h₈ => ?_
  refine wp_mono (at_skip h₈ rfl) fun _ s₉ ⟨h₉, _⟩ => ?_
  refine wp_mono (at_leaveScope h₉ h.base) fun _ s₁₀ h₁₀ => ?_
  rw [wp_pure, Node.branch, Node.withValue, Node.literals_mk rfl]
  simpa using h₁₀

theorem at_ifStatement : Tracks o st ts ls Node.literals (ifStatement block) s := by
  simp only [ifStatement, wp_bind]
  refine wp_mono (at_skip h rfl) fun t s₁ ⟨h₁, _⟩ => ?_
  simp only [wp_statementScope]
  refine wp_mono (at_createScope h₁ _) ?_
  rintro _ s₂ ⟨⟨i, h₂⟩, _⟩
  refine wp_mono (at_skip h₂ rfl) fun _ s₃ ⟨h₃, hd₃⟩ => ?_
  refine wp_mono (readsOperand_condition o _ _ _ _ h₃ hd₃) fun test s₄ ⟨h₄, _⟩ => ?_
  refine wp_mono (at_expect h₄ rfl) fun _ s₅ ⟨h₅, _⟩ => ?_
  refine wp_mono (hb _ _ _ _ h₅.tail) fun body s₆ h₆ => ?_
  -- how the statement ends, whether it has another branch or not
  have hend : ∀ (node : Node) s, node.kind.isLiteral = false →
      At o (i :: st) ts (ls ++ node.literals) s →
      wp (Broken o) (do
        let _ ← expect (.keyword .endWord)
        leaveScope
        return node.withValue (s₁.scopes.current?.getD "global" ++ "::" ++ "if" ++ "@" ++
          t.position.text)) (fun n s' => At o st ts (ls ++ n.literals) s') s := by
    intro node s hk hs
    simp only [wp_bind]
    refine wp_mono (at_skip hs rfl) fun _ s₇ ⟨h₇, _⟩ => ?_
    refine wp_mono (at_leaveScope h₇ h.base) fun _ s₈ h₈ => ?_
    rwa [wp_pure, Node.literals_withValue hk]
  refine wp_mono (at_accept h₆ rfl) fun found s₇ ⟨h₇, _⟩ => ?_
  cases found
  · refine hend _ s₇ rfl ?_
    rw [Node.branch, Node.literals_mk rfl]
    simpa using h₇
  · simp only [if_true, wp_bind]
    refine wp_mono (hb _ _ _ _ h₇) fun otherwise s₈ h₈ => ?_
    have h₈' : At o (i :: st) ts
        (ls ++ (Node.branch .ifElse (some test) body otherwise).literals) s₈ := by
      rw [Node.branch, Node.literals_mk rfl]
      simpa using h₈
    simpa only [wp_bind, wp_pure] using hend _ s₈ rfl h₈'

theorem at_repeatStatement : Tracks o st ts ls Node.literals (repeatStatement block) s := by
  simp only [repeatStatement, wp_bind]
  refine wp_mono (at_skip h rfl) fun t s₁ ⟨h₁, _⟩ => ?_
  simp only [wp_statementScope]
  refine wp_mono (at_createScope h₁ _) ?_
  rintro _ s₂ ⟨⟨i, h₂⟩, _⟩
  refine wp_mono (at_skip h₂ rfl) fun _ s₃ ⟨h₃, _⟩ => ?_
  rw [← wp_bind]
  refine at_optionalAssignments h₃ _ fun start s₄ h₄ => ?_
  simp only [wp_bind]
  refine wp_mono (at_expect h₄ rfl) fun _ s₅ ⟨h₅, _⟩ => ?_
  refine wp_mono (hb _ _ _ _ h₅.tail) fun body s₆ h₆ => ?_
  refine wp_mono (at_skip h₆ rfl) fun _ s₇ ⟨h₇, hd₇⟩ => ?_
  refine wp_mono (readsOperand_condition o _ _ _ _ h₇ hd₇) fun test s₈ ⟨h₈, _⟩ => ?_
  refine wp_mono (at_leaveScope h₈ h.base) fun _ s₉ h₉ => ?_
  rw [wp_pure, Node.branch, Node.withValue, Node.literals_mk rfl]
  simpa using h₉

theorem at_inlineStatement : Tracks o st ts ls Node.literals (inlineStatement block) s := by
  simp only [inlineStatement, wp_bind, wp_peek]
  split
  case h_1 => exact at_repeatStatement hb h
  case h_2 => exact at_inputStatement h
  case h_3 hk => exact at_printStatement rfl h (by rw [TokenStream.kind, hk]; rfl)
  case h_4 hk => exact at_printStatement rfl h (by rw [TokenStream.kind, hk]; rfl)
  case h_5 => exact at_returnStatement h
  case h_6 hk => exact at_namedStatement h hk
  case h_7 => exact h.unexpected _

theorem at_statement : Tracks o st ts ls Node.literals (statement block) s := by
  simp only [statement, wp_bind, wp_peek]
  split
  · exact at_forStatement hb h
  · exact at_ifStatement hb h
  · simp only [wp_bind, wp_pure]
    refine wp_mono (at_inlineStatement hb h) fun n s₁ h₁ => ?_
    exact at_separator h₁ rfl

theorem at_statementList :
    wp (Broken o) (statementList block)
      (fun ns s' => At o st ts (ls ++ ns.flatMap Node.literals) s') s := by
  refine wp_loop (I := fun before s => At o st ts (ls ++ before.reverse.flatMap Node.literals) s)
    (fun before s hI => hI.noProgress) (fun before s hI => ?_) [] s (by simpa using h)
  simp only [wp_bind]
  refine wp_mono (at_statement hb hI) fun n s₁ h₁ => ?_
  have h₁' : At o st ts (ls ++ (n :: before).reverse.flatMap Node.literals) s₁ := by
    simpa using h₁
  simp only [wp_atBlockEnd, atEnd, wp_is, wp_ite, wp_pure, Sum.elim_inl, Sum.elim_inr]
  exact ⟨fun _ => h₁', fun _ => h₁'⟩

end Blocks

theorem readsStatements_block (o : State) : ReadsStatements o block := by
  intro st ts ls s h
  refine wp_fix (ι := List Nat × List Token × List Node)
    (P := fun i s => At o i.1 i.2.1 i.2.2 s)
    (Q := fun i n s' => At o i.1 i.2.1 (i.2.2 ++ Node.literalsIn n) s')
    (fun i s hi => hi.noProgress) (fun p hp i s hi => ?_) (st, ts, ls) s h
  have hb : ReadsStatements o p := fun st ts ls s h => hp (st, ts, ls) s h
  simp only [wp_bind, wp_atBlockEnd, wp_ite, wp_peek, wp_pure]
  refine ⟨fun _ => wp_mono (at_warn hi _) fun _ s₁ h₁ => ?_, fun _ => ?_⟩
  · simpa using h₁.1
  · refine wp_mono (at_statementList hb hi) fun ns s₁ h₁ => ?_
    rwa [Node.literalsIn_list rfl]

end StackCompiler.Parser
