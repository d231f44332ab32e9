import StackCompiler.Proofs.Operators
import StackCompiler.Proofs.Progress.Rules

/-!
# How far the parsers of expressions come
-/

namespace StackCompiler

namespace Node

variable {k : Kind} (id : Symbol.Id)

theorem literals_typedBinary (hk : k.isLiteral = false) (left right : Node) :
    ((binary k left right).withSymbol id).literals = left.literals ++ right.literals := by
  rw [binary, branch, withSymbol, literals_mk hk]
  simp

theorem literals_typedLeaf (hk : k.isLiteral = false) (v : Option String) :
    (mk k v (some id) none none none).literals = [] := by
  rw [literals_mk hk]
  rfl

end Node

namespace Parser

variable {o s : State} {st : List Nat} {ts : List Token} {ls : List Node} {p : Parser Node}

theorem at_checkBoolean {t : Token} (h : At o st ts ls s) (ht : t ∈ ts) (n : Node) :
    wp (Broken o) (checkBoolean n t) (fun _ s' => s' = s) s := by
  simp only [checkBoolean, wp_bind, wp_typeOf, wp_ite, wp_pure]
  exact ⟨fun _ => trivial, fun _ => h.fail ht⟩

section Joining

variable {k : Node.Kind} {left right : Node} {first next op : Token}

theorem at_logical (hk : k.isLiteral = false) (h : At o st ts ls s) (hf : first ∈ ts)
    (hn : next ∈ ts) :
    wp (Broken o) (logical k left right first next op) (fun n s' => At o st ts ls s' ∧
      s'.stream = s.stream ∧ n.literals = left.literals ++ right.literals) s := by
  simp only [logical, wp_bind]
  refine wp_mono (at_checkBoolean h hf left) fun _ s₁ hs₁ => ?_
  subst hs₁
  refine wp_mono (at_checkBoolean h hn right) fun _ s₂ hs₂ => ?_
  subst hs₂
  refine wp_mono (at_typed h _ .bool op) ?_
  rintro n s₃ ⟨h₃, hs₃, id, rfl⟩
  exact ⟨h₃, hs₃, Node.literals_typedBinary id hk left right⟩

theorem at_arithmetic (hk : k.isLiteral = false) (h : At o st ts ls s) (hf : first ∈ ts)
    (hn : next ∈ ts) :
    wp (Broken o) (arithmetic k left right first next op) (fun n s' => At o st ts ls s' ∧
      s'.stream = s.stream ∧ n.literals = left.literals ++ right.literals) s := by
  simp only [arithmetic, wp_bind, wp_typeOf, wp_ite]
  refine ⟨fun _ => ⟨fun _ => ?_, fun _ => h.fail hn⟩, fun _ => h.fail hf⟩
  refine wp_mono (at_typed h _ _ op) ?_
  rintro n s₁ ⟨h₁, hs₁, id, rfl⟩
  exact ⟨h₁, hs₁, Node.literals_typedBinary id hk left right⟩

theorem at_compare (hk : k.isLiteral = false) (h : At o st ts ls s) (ho : op ∈ ts) :
    wp (Broken o) (compare k left right op) (fun n s' => At o st ts ls s' ∧
      s'.stream = s.stream ∧ n.literals = left.literals ++ right.literals) s := by
  simp only [compare, wp_bind, wp_typeOf, wp_ite]
  refine ⟨fun _ => ?_, fun _ => h.fail ho⟩
  refine wp_mono (at_typed h _ .bool op) ?_
  rintro n s₁ ⟨h₁, hs₁, id, rfl⟩
  exact ⟨h₁, hs₁, Node.literals_typedBinary id hk left right⟩

end Joining

/-! ## Operands -/

theorem at_variableNamed {name : Token} (h : At o st ts ls s) (hn : name ∈ ts) :
    wp (Broken o) (variableNamed name) (fun n s' => s' = s ∧ n.literals = []) s := by
  simp only [variableNamed, wp_bind, wp_is, wp_ite, wp_resolve]
  refine ⟨fun _ => h.fail hn, fun _ => ?_⟩
  split
  · exact h.fail hn
  · simp only [wp_bind, wp_symbol?]
    split
    · exact h.fail hn
    · exact h.fail hn
    · exact h.fail hn
    · exact ⟨rfl, Node.literals_typedLeaf _ rfl _⟩

theorem at_checkArguments (h : At o st ts ls s) {args : List (Token × Node)}
    (ha : ∀ a ∈ args, a.1 ∈ ts) (params : List Symbol.Id) :
    wp (Broken o) (checkArguments args params) (fun _ s' => s' = s) s := by
  induction args generalizing params with
  | nil => simp [checkArguments, wp_pure]
  | cons a args ih =>
    cases params with
    | nil => simp [checkArguments, wp_pure]
    | cons id params =>
      simp only [checkArguments, wp_bind, wp_symbol?, wp_typeOf, wp_ite]
      refine ⟨fun _ => ?_, fun _ => h.fail (ha a List.mem_cons_self)⟩
      exact ih (fun b hb => ha b (List.mem_cons_of_mem a hb)) params

theorem at_arguments (hp : ReadsOperand o p) (h : At o st ts ls s) (hd : Due o s) :
    wp (Broken o) (arguments p) (fun args s' =>
      At o st (args.map Prod.fst ++ ts) (ls ++ args.flatMap fun a => a.2.literals) s') s := by
  simp only [arguments, wp_bind, wp_is, wp_ite, wp_pure]
  refine ⟨fun _ => by simpa using h, fun _ => ?_⟩
  refine wp_commaList (P := Due o) (I := fun (args : List (Token × Node)) s =>
    At o st (args.map Prod.fst ++ ts) (ls ++ args.flatMap fun a => a.2.literals) s)
    (fun args s hI => hI.noProgress) (fun args s hI => at_accept hI rfl) (fun args s hI hd => ?_)
    (by simpa using h) hd
  simp only [wp_bind, wp_peek, wp_pure]
  refine wp_mono (hp _ _ _ _ hI.see hd) fun n s₁ ⟨h₁, _⟩ => ?_
  simp only [List.map_append, List.flatMap_append, List.flatMap_singleton, ← List.append_assoc]
  exact h₁.mono fun t ht => by simpa [or_left_comm, or_assoc] using ht

theorem at_callNamed (hp : ReadsOperand o p) {kind : Node.Kind} (hk : kind.isLiteral = false)
    {name : Token} (h : At o st ts ls s) (hn : name ∈ ts) :
    wp (Broken o) (callNamed p name kind)
      (fun n s' => At o st ts (ls ++ n.literals) s' ∧ Done o s') s := by
  simp only [callNamed, wp_bind, wp_resolve]
  split
  · exact h.fail hn
  · next function _ =>
    simp only [wp_bind, wp_symbol?, wp_ite, wp_pure]
    refine ⟨fun _ => ?_, fun _ => h.fail hn⟩
    refine wp_mono (at_skip h rfl) fun _ s₁ ⟨h₁, hd₁⟩ => ?_
    refine wp_mono (at_arguments hp h₁ hd₁) fun args s₂ h₂ => ?_
    refine wp_mono (at_expect h₂ rfl) fun _ s₃ ⟨h₃, _, _, hd₃⟩ => ?_
    refine ⟨fun _ => ?_, fun _ => h₃.fail (by simp [hn])⟩
    refine wp_mono (at_checkArguments h₃ (fun a ha => ?_) _) fun _ s₄ hs₄ => ?_
    · exact List.mem_cons_of_mem _ (List.mem_append_left ts (List.mem_map_of_mem ha))
    · subst hs₄
      refine ⟨?_, hd₃ rfl⟩
      have hlits : ((Node.branch kind (Node.list .expressionList (args.map Prod.snd)) none
          none).withValue name.text |>.withSymbol function).literals =
          args.flatMap fun a => a.2.literals := by
        rw [Node.branch, Node.withValue, Node.withSymbol, Node.literals_mk hk,
          Node.literalsIn_list rfl, List.flatMap_map]
        simp
      rw [hlits]
      exact h₃.mono fun t ht => by simp [ht]

theorem at_named (hp : ReadsOperand o p) {name : Token} (h : At o st ts ls s) (hd : Done o s)
    (hn : name ∈ ts) :
    wp (Broken o) (named p name) (fun n s' => At o st ts (ls ++ n.literals) s' ∧ Done o s') s := by
  simp only [named, wp_bind, wp_is, wp_ite, wp_pure]
  refine ⟨fun _ => ?_, fun _ => ?_⟩
  · refine wp_mono (at_callNamed hp rfl h hn) fun n s₁ ⟨h₁, hd₁⟩ => ?_
    simp only [wp_typeOf]
    exact ⟨fun _ => h₁.fail hn, fun _ => ⟨h₁, hd₁⟩⟩
  · refine wp_mono (at_variableNamed h hn) ?_
    rintro n s₁ ⟨rfl, hlits⟩
    rw [hlits, List.append_nil]
    exact ⟨h, hd⟩

section Numbers

variable {t : Token} {literal : String}

theorem at_integerLiteral (h : At o st ts ls s) (ht : t ∈ ts)
    (hl : o.stream.literal? s.stream.index = some ⟨.intLiteral, literal⟩) :
    wp (Broken o) (integerLiteral t literal)
      (fun n s' => s'.stream = s.stream.advance ∧ At o st ts (ls ++ n.literals) s')
      s.advance := by
  unfold integerLiteral
  split
  · exact h.toFollows.advance.broken ht
  · simp only [wp_bind, wp_pure]
    exact wp_mono (at_intern h hl fun _ => rfl) fun id s₁ h₁ => h₁

theorem at_realLiteral (h : At o st ts ls s) (ht : t ∈ ts)
    (hl : o.stream.literal? s.stream.index = some ⟨.realLiteral, literal⟩) :
    wp (Broken o) (realLiteral t literal)
      (fun n s' => s'.stream = s.stream.advance ∧ At o st ts (ls ++ n.literals) s')
      s.advance := by
  unfold realLiteral
  split
  · exact h.toFollows.advance.broken ht
  · simp only [wp_bind, wp_pure]
    exact wp_mono (at_intern h hl fun _ => rfl) fun id s₁ h₁ => h₁

end Numbers

theorem at_grouped {Q : Node → State → Prop} (h : At o st ts ls s)
    (hp : ∀ s', At o st ts ls s' → s'.stream = s.stream → wp (Broken o) p Q s')
    (hQ : ∀ n s' d, Q n s' → Q n { s' with depth := d }) : wp (Broken o) (grouped p) Q s := by
  have hrun := hp { s with depth := s.depth + 1 } (h.congr rfl rfl rfl) rfl
  unfold wp grouped at *
  cases hr : p { s with depth := s.depth + 1 } with
  | ok n s' =>
    rw [hr] at hrun
    exact hQ n s' _ hrun
  | error e s' =>
    rw [hr] at hrun
    obtain ⟨st', ts', hf, ht⟩ := hrun
    exact ⟨st', ts', hf.congr rfl rfl rfl, ht⟩

section Operands

variable (hp : ReadsOperand o p)
include hp

theorem at_operand (h : At o st ts ls s) :
    wp (Broken o) (operand p s.stream.current)
      (fun n s' => At o st ts (ls ++ n.literals) s' ∧ Done o s') s := by
  have hdone : ∀ k, s.stream.current.kind = k → k.endsOperand = true →
      Done o s.advance := by
    rintro k rfl he
    rw [h.current] at he
    exact he
  have htruth : ∀ k : Node.Kind, k.isLiteral = false →
      s.stream.current.kind.endsOperand = true → s.stream.current.kind.isLiteral = false →
      wp (Broken o) (do let _ ← advance; typed (.leaf k) .bool s.stream.current)
        (fun n s' => At o st ts (ls ++ n.literals) s' ∧ Done o s') s := by
    intro k hk he hl
    simp only [wp_bind, wp_advance]
    refine wp_mono (at_typed (h.advance hl) _ .bool _) ?_
    rintro n s₁ ⟨h₁, hs₁, id, rfl⟩
    rw [Node.leaf, Node.branch, Node.withSymbol, Node.literals_typedLeaf id hk, List.append_nil,
      Done, hs₁]
    exact ⟨h₁, hdone _ rfl he⟩
  unfold operand
  split
  case h_1 hk => exact htruth .trueLiteral rfl (by rw [hk]; rfl) (by rw [hk]; rfl)
  case h_2 hk => exact htruth .falseLiteral rfl (by rw [hk]; rfl) (by rw [hk]; rfl)
  case h_3 hk =>
    simp only [wp_bind, wp_get, wp_ite, wp_pure, wp_advance]
    refine ⟨fun _ => h.see.fail List.mem_cons_self, fun _ => ?_⟩
    have hplain : s.stream.kind.isPlain = true := by rw [TokenStream.kind, hk]; rfl
    have hd := h.due hplain
    refine wp_mono (at_grouped (Q := fun n s' => At o st ts (ls ++ n.literals) s')
      (h.advance (Token.Kind.isLiteral_of_isPlain hplain)) (fun s₁ h₁ hs₁ => ?_)
      fun n s₂ d h₂ => h₂.congr rfl rfl rfl) fun n s₂ h₂ => ?_
    · have hd₁ : Due o s₁ := by
        rw [Due, hs₁]
        exact hd
      exact wp_mono (hp _ _ _ _ h₁ hd₁) fun n s₂ h₂ => h₂.1
    · refine wp_mono (at_expect h₂ rfl) ?_
      rintro _ s₃ ⟨h₃, _, _, hd₃⟩
      exact ⟨h₃.tail, hd₃ rfl⟩
  case h_4 hk =>
    simp only [wp_bind, wp_advance]
    have hl : s.stream.kind.isLiteral = false := by rw [TokenStream.kind, hk]; rfl
    refine wp_mono (at_named hp (h.see.advance hl) (hdone _ hk rfl) List.mem_cons_self) ?_
    rintro n s₁ ⟨h₁, hd₁⟩
    exact ⟨h₁.tail, hd₁⟩
  case h_5 => exact h.unexpected _

theorem readsOperand_primary : ReadsOperand o (primary p) := by
  intro st ts ls s h hd
  simp only [primary, wp_bind, wp_peek]
  refine wp_mono (at_sign h hd) ?_
  rintro negative s₁ ⟨h₁, hsign⟩
  have hcur := h₁.current
  have hdone : ∀ n s', s'.stream = s₁.stream.advance ∧
      At o st (s₁.stream.current :: ts) (ls ++ Node.literals n) s' →
      s₁.stream.current.kind.endsOperand = true → At o st ts (ls ++ n.literals) s' ∧ Done o s' := by
    rintro n s' ⟨hs', h'⟩ he
    refine ⟨h'.tail, ?_⟩
    rw [hcur] at he
    rw [Done, hs']
    exact he
  split
  case h_1 hk =>
    simp only [wp_bind, wp_advance]
    have hl : o.stream.literal? s₁.stream.index = some ⟨.intLiteral,
        if negative then "-" ++ s₁.stream.current.text else s₁.stream.current.text⟩ := by
      rw [TokenStream.literal?, ← hcur, hk, hsign]
    exact wp_mono (at_integerLiteral h₁.see List.mem_cons_self hl)
      fun n s₂ h₂ => hdone n s₂ h₂ (by rw [hk]; rfl)
  case h_2 hk =>
    simp only [wp_bind, wp_advance]
    have hl : o.stream.literal? s₁.stream.index = some ⟨.realLiteral,
        if negative then "-" ++ s₁.stream.current.text else s₁.stream.current.text⟩ := by
      rw [TokenStream.literal?, ← hcur, hk, hsign]
    exact wp_mono (at_realLiteral h₁.see List.mem_cons_self hl)
      fun n s₂ h₂ => hdone n s₂ h₂ (by rw [hk]; rfl)
  case h_3 =>
    simp only [wp_ite, wp_bind]
    refine ⟨fun _ => wp_mono (at_warn h₁ _) ?_, fun _ => at_operand hp h₁⟩
    rintro _ s₂ ⟨h₂, hs₂⟩
    rw [← hs₂]
    exact at_operand hp h₂

theorem readsOperand_power : ReadsOperand o (power p) := by
  refine ReadsOperand.fix fun power hpower => ?_
  intro st ts ls s h hd
  simp only [wp_bind, wp_peek]
  refine wp_mono (readsOperand_primary hp _ _ _ _ h.see hd) fun base s₁ ⟨h₁, hd₁⟩ => ?_
  simp only [wp_is, wp_ite, wp_bind, wp_pure, decide_eq_true_eq]
  refine ⟨fun hk => ?_, fun _ => ⟨h₁.tail, hd₁⟩⟩
  simp only [wp_advance, wp_peek]
  have hplain : s₁.stream.kind.isPlain = true := by rw [hk]; rfl
  have h₂ := (h₁.see.advance (Token.Kind.isLiteral_of_isPlain hplain)).see
  refine wp_mono (hpower _ _ _ _ h₂ (h₁.due hplain)) fun exponent s₃ ⟨h₃, hd₃⟩ => ?_
  refine wp_mono (at_arithmetic rfl h₃ (by simp) (by simp)) ?_
  rintro n s₄ ⟨h₄, hs₄, hlits⟩
  rw [hlits, ← List.append_assoc, Done, hs₄]
  exact ⟨h₄.tail.tail.tail, hd₃⟩

theorem readsOperand_product : ReadsOperand o (product p) :=
  readsOperand_leftChain (readsOperand_power hp) (.of productOperator?_eq (by decide))
    fun _ _ _ _ _ _ _ _ _ _ hk h hf hn _ => at_arithmetic hk h hf hn

theorem readsOperand_sum : ReadsOperand o (sum p) :=
  readsOperand_leftChain (readsOperand_product hp) (.of sumOperator?_eq (by decide))
    fun _ _ _ _ _ _ _ _ _ _ hk h hf hn _ => at_arithmetic hk h hf hn

theorem at_relationRest {Q : Node → State → Prop} {left : Node}
    (h : At o st ts (ls ++ left.literals) s) (hd : Done o s) (f : Node → Parser Node)
    (hf : ∀ n s', At o st ts (ls ++ n.literals) s' → Done o s' → wp (Broken o) (f n) Q s') :
    wp (Broken o) (match relationOperator? s.stream.current.kind with
      | some k => do
        let op ← advance
        let right ← sum p
        let node ← compare k left right op
        f node
      | none => do
        let node ← pure left
        f node) Q s := by
  split
  · next k hk =>
    obtain ⟨hl, he, hn⟩ :=
      JoinsOperands.of relationOperator?_eq (by decide) _ _ hk
    simp only [wp_bind, wp_advance]
    have h₁ := h.see.advance hl
    refine wp_mono (readsOperand_sum hp _ _ _ _ h₁ (h.due_of_done hd he)) ?_
    rintro right s₂ ⟨h₂, hd₂⟩
    refine wp_mono (at_compare hn h₂ List.mem_cons_self) ?_
    rintro n s₃ ⟨h₃, hs₃, hlits⟩
    refine hf n s₃ ?_ ?_
    · rw [hlits, ← List.append_assoc]
      exact h₃.tail
    · rw [Done, hs₃]
      exact hd₂
  · exact hf left s h hd

theorem readsOperand_relation : ReadsOperand o (relation p) := by
  intro st ts ls s h hd
  simp only [relation, wp_bind, wp_is, wp_ite, decide_eq_true_eq, wp_map, wp_advance, wp_pure,
    wp_peek]
  refine ⟨fun hk => ?_, fun _ => ?_⟩
  · have hplain : s.stream.kind.isPlain = true := by rw [hk]; rfl
    have h₁ := (h.advance (Token.Kind.isLiteral_of_isPlain hplain)).see
    refine wp_mono (readsOperand_sum hp _ _ _ _ h₁ (h.due hplain)) ?_
    rintro left s₂ ⟨h₂, hd₂⟩
    refine at_relationRest hp h₂ hd₂ _ fun n s₃ h₃ hd₃ => ?_
    rw [wp_bind]
    refine wp_mono (at_checkBoolean h₃ List.mem_cons_self n) fun _ s₄ hs₄ => ?_
    subst hs₄
    refine wp_mono (at_typed h₃ _ .bool _) ?_
    rintro m s₅ ⟨h₅, hs₅, id, rfl⟩
    rw [Node.unary, Node.branch, Node.withSymbol, Node.literals_mk rfl, Done, hs₅]
    exact ⟨by simpa using h₅.tail, hd₃⟩
  · refine wp_mono (readsOperand_sum hp _ _ _ _ h hd) ?_
    rintro left s₂ ⟨h₂, hd₂⟩
    exact at_relationRest hp h₂ hd₂ _ fun n s₃ h₃ hd₃ => ⟨h₃, hd₃⟩

end Operands

theorem readsOperand_expression (o : State) : ReadsOperand o expression := by
  refine ReadsOperand.fix fun p hp => ?_
  exact readsOperand_leftChain (readsOperand_relation hp) (.of logicalOperator?_eq (by decide))
    fun _ _ _ _ _ _ _ _ _ _ hk h hf hn _ => at_logical hk h hf hn

theorem readsOperand_sumExpression (o : State) : ReadsOperand o sumExpression :=
  readsOperand_sum (readsOperand_expression o)

end Parser

end StackCompiler
