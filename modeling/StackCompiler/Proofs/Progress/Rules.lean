import StackCompiler.Proofs.Grammar
import StackCompiler.Proofs.Progress.Basic

/-!
# What the steps of a parser do to its progress

One rule for each step that parsers are made of.
-/

namespace StackCompiler.Parser

variable {α : Type} {o s s' : State} {st : List Nat} {ts : List Token} {ls : List Node}
  {E : ParseError → State → Prop} {k : Token.Kind}

theorem wp_peek (Q : Token → State → Prop) : wp E peek Q s ↔ Q s.stream.current s := Iff.rfl

theorem wp_is (k : Token.Kind) (Q : Bool → State → Prop) :
    wp E (is k) Q s ↔ Q (s.stream.kind = k) s := Iff.rfl

theorem wp_resolve (name : String) (Q : Option Symbol.Id → State → Prop) :
    wp E (resolve name) Q s ↔ Q (s.scopes.resolve name) s := Iff.rfl

theorem wp_symbol? (id : Symbol.Id) (Q : Option Symbol → State → Prop) :
    wp E (symbol? id) Q s ↔ Q (s.scopes.symbol? id) s := Iff.rfl

theorem wp_typeOf (n : Node) (Q : DataType → State → Prop) :
    wp E (typeOf n) Q s ↔ Q ((n.symbol.map s.scopes.valueType).getD .void) s := Iff.rfl

theorem wp_advance (Q : Token → State → Prop) :
    wp E advance Q s ↔ Q s.stream.current s.advance := Iff.rfl

theorem wp_statementScope (construct : String) (t : Token) (Q : String → State → Prop) :
    wp E (statementScope construct t) Q s ↔
      Q (s.scopes.current?.getD "global" ++ "::" ++ construct ++ "@" ++ t.position.text) s :=
  Iff.rfl

theorem wp_accept (k : Token.Kind) (Q : Bool → State → Prop) :
    wp E (accept k) Q s ↔
      (s.stream.kind = k → Q true s.advance) ∧
      (s.stream.kind ≠ k → Q false s) := by
  rw [accept, wp_modifyGet]
  by_cases hc : s.stream.kind = k <;> simp [TokenStream.accept, hc]

theorem at_accept (h : At o st ts ls s) (hk : k.isPlain = true) :
    wp E (accept k) (fun found s' => At o st ts ls s' ∧ (found = true → Due o s')) s := by
  refine (wp_accept k _).2 ⟨fun hc => ?_, fun _ => ⟨h, by simp⟩⟩
  subst hc
  exact ⟨h.advance (Token.Kind.isLiteral_of_isPlain hk), fun _ => h.due hk⟩

/-- Where an operand can come, a minus is a sign. -/
theorem at_sign (h : At o st ts ls s) (hd : Due o s) :
    wp E (accept .minus) (fun negative s' => At o st ts ls s' ∧
      o.stream.signBefore s'.stream.index = negative) s := by
  refine (wp_accept _ _).2 ⟨fun hc => ⟨h.advance (by rw [hc]; rfl), ?_⟩, fun _ => ⟨h, hd.2⟩⟩
  rw [TokenStream.kind, h.current] at hc
  show (decide (_ = _) && !_) = true
  rw [hc, hd.1]
  rfl

theorem at_expect (h : At o st ts ls s) (hk : k.isLiteral = false) :
    wp (Broken o) (expect k) (fun t s' => At o st (t :: ts) ls s' ∧ t.kind = k ∧
      (k.isPlain = true → Due o s') ∧ (k.endsOperand = true → Done o s')) s := by
  unfold wp expect TokenStream.expect
  by_cases hc : s.stream.kind = k
  · simp only [hc, if_true]
    subst hc
    refine ⟨h.see.advance hk, rfl, fun hp => h.due hp, fun he => ?_⟩
    rw [TokenStream.kind, h.current] at he
    exact he
  · simp only [hc, if_false]
    exact h.toFollows.see.broken List.mem_cons_self

theorem at_skip (h : At o st ts ls s) (hk : k.isPlain = true) :
    wp (Broken o) (expect k) (fun _ s' => At o st ts ls s' ∧ Due o s') s :=
  wp_mono (at_expect h (Token.Kind.isLiteral_of_isPlain hk)) fun _ _ h' => ⟨h'.1.tail, h'.2.2.1 hk⟩

theorem at_warn (h : At o st ts ls s) (n : Notice) :
    wp E (warn s.stream.current n) (fun _ s' => At o st ts ls s' ∧ s'.stream = s.stream) s := by
  obtain ⟨marks, hd, hsorted, hmarks⟩ := h.warnings
  refine ⟨⟨⟨h.stream, h.index, h.seen, ?_, h.stack, h.base, h.scopes⟩, h.literals, h.pool⟩, rfl⟩
  refine ⟨marks ++ [(s.stream.index, n)], ?_, ?_, fun m hm => ?_⟩
  · rw [Array.toList_push, hd, List.map_append, List.append_assoc, h.current]
    rfl
  · rw [List.map_append, List.pairwise_append]
    refine ⟨hsorted, List.pairwise_singleton _ _, fun a ha b hb => ?_⟩
    obtain ⟨m, hm, rfl⟩ := List.mem_map.1 ha
    rw [List.map_singleton, List.mem_singleton] at hb
    rw [hb]
    exact (hmarks m hm).2
  · rcases List.mem_append.1 hm with hm | hm
    · exact hmarks m hm
    · rw [List.mem_singleton.1 hm]
      exact ⟨h.index, Nat.le_refl _⟩

theorem at_separator (h : At o st ts ls s) (hk : k.isPlain = true) :
    wp E (separator k) (fun _ s' => At o st ts ls s') s := by
  simp only [separator, wp_bind, wp_ite, wp_pure, wp_peek]
  refine wp_mono (at_accept h hk) fun found s₁ ⟨h₁, _⟩ => ⟨fun _ => h₁, fun _ => ?_⟩
  exact wp_mono (at_warn h₁ (.missing k)) fun _ s₂ h₂ => h₂.1

section Lists

variable {item : Parser α} {P : State → Prop} {L : α → List Node}

/-- Every item of a list keeps `I`, started where `P` holds. -/
theorem wp_commaList {I : List α → State → Prop} (hno : ∀ as s, I as s → wp E noProgress I s)
    (hcomma : ∀ as s, I as s →
      wp E (accept .comma) (fun found s' => I as s' ∧ (found = true → P s')) s)
    (hitem : ∀ as s, I as s → P s → wp E item (fun a s' => I (as ++ [a]) s') s)
    (h0 : I [] s) (hP : P s) : wp E (commaList item) I s := by
  refine wp_loop (I := fun before s => I before.reverse s ∧ P s) (fun before s hI => hno _ s hI.1)
    (fun before s hI => ?_) [] s ⟨h0, hP⟩
  simp only [wp_bind, wp_ite, wp_pure, Sum.elim_inl, Sum.elim_inr]
  refine wp_mono (hitem _ s hI.1 hI.2) fun a s₁ ha => ?_
  rw [← List.reverse_cons] at ha
  exact wp_mono (hcomma _ s₁ ha) fun found s₂ ⟨h₂, hp₂⟩ => ⟨fun hf => ⟨h₂, hp₂ hf⟩, fun _ => h₂⟩

theorem at_commaList (hP : ∀ s, Due o s → P s)
    (hitem : ∀ ls s, At o st ts ls s → P s →
      wp (Broken o) item (fun a s' => At o st ts (ls ++ L a) s') s)
    (h : At o st ts ls s) (hp : P s) :
    wp (Broken o) (commaList item) (fun as s' => At o st ts (ls ++ as.flatMap L) s') s := by
  refine wp_commaList (I := fun as s => At o st ts (ls ++ as.flatMap L) s) (P := P)
    (fun as s hI => hI.noProgress) (fun as s hI => ?_) (fun as s hI hp => ?_) ?_ hp
  · exact wp_mono (at_accept hI rfl) fun found s₁ h₁ => ⟨h₁.1, fun hf => hP s₁ (h₁.2 hf)⟩
  · refine wp_mono (hitem _ s hI hp) fun a s₁ h₁ => ?_
    rwa [List.flatMap_append, List.flatMap_singleton, ← List.append_assoc]
  · rwa [List.flatMap_nil, List.append_nil]

theorem at_whileList
    (hitem : ∀ ls s, At o st ts ls s → wp (Broken o) item (fun a s' => At o st ts (ls ++ L a) s') s)
    (h : At o st ts ls s) :
    wp (Broken o) (whileList (is k) item) (fun as s' => At o st ts (ls ++ as.flatMap L) s') s := by
  refine wp_loop (I := fun before s => At o st ts (ls ++ before.reverse.flatMap L) s)
    (fun before s hI => hI.noProgress) (fun before s hI => ?_) [] s ?_
  · simp only [wp_bind, wp_is, wp_ite, wp_pure, Sum.elim_inl, Sum.elim_inr]
    refine ⟨fun _ => wp_mono (hitem _ s hI) fun a s₁ h₁ => ?_, fun _ => hI⟩
    rwa [List.reverse_cons, List.flatMap_append, List.flatMap_singleton, ← List.append_assoc]
  · rwa [List.reverse_nil, List.flatMap_nil, List.append_nil]

end Lists

/-- The parser reads an operand, where one can come. -/
def ReadsOperand (o : State) (p : Parser Node) : Prop :=
  ∀ st ts ls s, At o st ts ls s → Due o s →
    wp (Broken o) p (fun n s' => At o st ts (ls ++ n.literals) s' ∧ Done o s') s

theorem ReadsOperand.fix {body : Parser Node → Parser Node}
    (h : ∀ p, ReadsOperand o p → ReadsOperand o (body p)) : ReadsOperand o (fix body) := by
  intro st ts ls s hs hd
  refine wp_fix (ι := List Nat × List Token × List Node)
    (P := fun i s => At o i.1 i.2.1 i.2.2 s ∧ Due o s)
    (Q := fun i (n : Node) s' => At o i.1 i.2.1 (i.2.2 ++ n.literals) s' ∧ Done o s')
    (fun i s hi => hi.1.noProgress) (fun p hp i s hi => ?_) (st, ts, ls) s ⟨hs, hd⟩
  exact h p (fun st ts ls s hs hd => hp (st, ts, ls) s ⟨hs, hd⟩) _ _ _ s hi.1 hi.2

/-- Whether some operators can stand between operands. -/
def JoinsOperands (operator? : Token.Kind → Option Node.Kind) : Prop :=
  ∀ k n, operator? k = some n → k.isLiteral = false ∧ k.endsOperand = false ∧ n.isLiteral = false

theorem JoinsOperands.of {operator? : Token.Kind → Option Node.Kind} {ops : List Node.Kind}
    (h : ∀ {k n}, operator? k = some n → k = n.operator ∧ n ∈ ops)
    (hops : ∀ n ∈ ops, n.operator.isLiteral = false ∧ n.operator.endsOperand = false ∧
      n.isLiteral = false) : JoinsOperands operator? := by
  intro k n hk
  obtain ⟨rfl, hn⟩ := h hk
  exact hops n hn

theorem At.due_of_done (h : At o st ts ls s) (hd : Done o s)
    (hk : s.stream.kind.endsOperand = false) :
    Due o s.advance := by
  rw [TokenStream.kind, h.current] at hk
  refine ⟨hk, ?_⟩
  show (_ && !o.stream.operandBefore s.stream.index) = false
  rw [show o.stream.operandBefore s.stream.index = true from hd]
  simp

theorem readsOperand_leftChain {operand : Parser Node}
    {operator? : Token.Kind → Option Node.Kind}
    {combine : Node.Kind → (left right : Node) → (first next op : Token) → Parser Node}
    (hp : ReadsOperand o operand) (hop : JoinsOperands operator?)
    (hc : ∀ k left right first next op st ts ls s, k.isLiteral = false → At o st ts ls s →
      first ∈ ts → next ∈ ts → op ∈ ts →
      wp (Broken o) (combine k left right first next op) (fun n s' => At o st ts ls s' ∧
        s'.stream = s.stream ∧ n.literals = left.literals ++ right.literals) s) :
    ReadsOperand o (leftChain operand operator? combine) := by
  intro st ts ls s h hd
  simp only [leftChain, wp_bind, wp_peek]
  generalize hfirst : s.stream.current = first
  have h' : At o st (first :: ts) ls s := hfirst ▸ h.see
  refine wp_mono (hp _ _ _ _ h' hd) fun left s₁ ⟨h₁, hd₁⟩ => ?_
  refine wp_loop (I := fun left s => At o st (first :: ts) (ls ++ left.literals) s ∧ Done o s)
    (fun left s hI => hI.1.noProgress) (fun left s ⟨h, hd⟩ => ?_) left s₁ ⟨h₁, hd₁⟩
  simp only [wp_bind, wp_peek]
  split
  · exact ⟨h.tail, hd⟩
  · next k hk =>
    obtain ⟨hl, he, hn⟩ := hop _ _ hk
    simp only [wp_bind, wp_advance, wp_peek, wp_pure]
    refine wp_mono (hp _ _ _ _ (h.see.advance hl).see (h.due_of_done hd he)) ?_
    rintro right s₂ ⟨h₂, hd₂⟩
    refine wp_mono (hc k left right first _ _ _ _ _ s₂ hn h₂ (by simp) (by simp) (by simp)) ?_
    rintro n s₃ ⟨h₃, hs₃, hlits⟩
    refine ⟨?_, ?_⟩
    · rw [hlits, ← List.append_assoc]
      exact h₃.tail.tail
    · rw [Done, hs₃]
      exact hd₂

theorem at_createScope (h : At o st ts ls s) (name : String) :
    wp E (createScope name)
      (fun _ s' => (∃ i, At o (i :: st) ts ls s') ∧ s'.stream = s.stream) s := by
  refine ⟨?_, rfl⟩
  obtain ⟨i, hi⟩ : ∃ i, (s.scopes.create name).stack = i :: st := by
    rw [← h.stack]
    unfold Scopes.create
    split
    · exact ⟨_, rfl⟩
    · exact ⟨_, rfl⟩
  refine ⟨i, ⟨h.stream, h.index, h.seen, h.warnings, hi, ?_, h.scopes.create name⟩, h.literals, ?_⟩
  · exact h.base.trans (List.suffix_cons i st)
  · exact (Scopes.create_constants s.scopes name).trans h.pool

theorem at_leaveScope {i : Nat} (h : At o (i :: st) ts ls s) (hb : o.scopes.stack <:+ st) :
    wp E leaveScope (fun _ s' => At o st ts ls s') s := by
  refine ⟨⟨h.stream, h.index, h.seen, h.warnings, ?_, hb, h.scopes.leave⟩, h.literals, h.pool⟩
  show s.scopes.stack.tail = st
  rw [h.stack, List.tail_cons]

theorem at_checkFresh {t : Token} (h : At o st ts ls s) (ht : t ∈ ts) :
    wp (Broken o) (checkFresh t) (fun _ s' => s' = s) s := by
  simp only [checkFresh, wp_bind, wp_get, wp_ite, wp_pure]
  exact ⟨fun _ => h.fail ht, fun _ => trivial⟩

theorem at_declare {t : Token} (h : At o st ts ls s) (ht : t ∈ ts) (sym : Symbol)
    (region : Option Region) :
    wp (Broken o) (declare t sym region) (fun id s' => At o st ts ls s' ∧
      o.scopes.symbols.size ≤ id ∧ s'.stream = s.stream) s := by
  simp only [declare, wp_bind]
  refine wp_mono (at_checkFresh h ht) fun _ s₁ hs₁ => ?_
  subst hs₁
  rw [wp_modifyGet]
  obtain ⟨hid, hst, hconst⟩ := s₁.scopes.declare_frame sym region
  refine ⟨⟨⟨h.stream, h.index, h.seen, h.warnings, hst.trans h.stack, h.base, ?_⟩, h.literals, ?_⟩,
    ?_, rfl⟩
  · exact h.scopes.declare sym region
  · exact hconst.trans h.pool
  · exact hid ▸ h.scopes.size

theorem at_addAttribute {id : Symbol.Id} (h : At o st ts ls s) (hid : o.scopes.symbols.size ≤ id)
    (a : Symbol.Attribute) :
    wp E (addAttribute id a) (fun _ s' => At o st ts ls s' ∧ s'.stream = s.stream) s :=
  ⟨⟨⟨h.stream, h.index, h.seen, h.warnings, h.stack, h.base, h.scopes.addAttribute hid a⟩,
    h.literals, h.pool⟩, rfl⟩

theorem at_typed (h : At o st ts ls s) (n : Node) (type : DataType) (t : Token) :
    wp E (typed n type t) (fun m s' => At o st ts ls s' ∧ s'.stream = s.stream ∧
      ∃ id, m = n.withSymbol id) s :=
  ⟨⟨⟨h.stream, h.index, h.seen, h.warnings, h.stack, h.base, h.scopes.add _⟩, h.literals, h.pool⟩,
    rfl, _, rfl⟩

theorem at_intern {k : Node.Kind} {text key : String} {t : Token} {kind : Symbol.Kind}
    {type : DataType} {value : Symbol.Attribute} (h : At o st ts ls s)
    (hl : o.stream.literal? s.stream.index = some ⟨k, text⟩)
    (hkey : ∀ id, (Node.mk k (some text) id none none none).poolKey = key) :
    wp E (intern key t kind type value) (fun id s' => s'.stream = s.stream.advance ∧
      At o st ts (ls ++ [.mk k (some text) (some id) none none none]) s')
      s.advance := by
  have hlits : ∀ id, o.stream.literals (s.stream.index + 1) = o.stream.literals o.stream.index ++
      (ls ++ [Node.mk k (some text) (some id) none none none]).map Node.literal := by
    intro id
    rw [TokenStream.literals_succ, hl, h.literals, List.map_append, List.append_assoc]
    rfl
  have hpool : ∀ id, (ls ++ [Node.mk k (some text) (some id) none none none]).foldl
      SymbolTable.pool o.scopes.constants = s.scopes.constants.insertNew key id := by
    intro id
    rw [List.foldl_append, ← h.pool, ← hkey (some id)]
    rfl
  rw [intern, wp_modifyGet]
  cases hr : s.scopes.resolveConstant key with
  | some id =>
    refine ⟨rfl, h.toFollows.advance, hlits id, ?_⟩
    rw [hpool, SymbolTable.insertNew]
    simp only [Scopes.resolveConstant] at hr
    rw [hr]
    rfl
  | none =>
    have hf := h.toFollows.advance
    refine ⟨rfl, ⟨hf.stream, hf.index, hf.seen, hf.warnings, hf.stack, hf.base, ?_⟩, hlits _, ?_⟩
    · exact h.scopes.addConstant _ _
    · rw [hpool, SymbolTable.insertNew]
      simp only [Scopes.resolveConstant] at hr
      rw [hr]
      rfl

end StackCompiler.Parser
