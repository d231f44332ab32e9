import StackCompiler.Expression.Parser
import StackCompiler.Proofs.Recovery.Rules

/-!
# Expressions of a repaired program

An expression may begin with a minus sign that was dropped, and end where a semicolon was missing.
Wherever a parser looks at a token behind an operand, that semicolon is no reason to go on.
-/

namespace StackCompiler.Parser

variable {ι α β : Type} {place : Token → Position} {n : ι → Nat} {k : Nat} {P Q : Junction}
  {R : α → β → Prop}

theorem Mends.grouped {p : Parser α} {q : ι → Parser β} (h : Mends place n k P Q R p q) :
    Mends place n k P Q R (grouped p) (fun i => Parser.grouped (q i)) := by
  intro s a s' hp whole F hF
  unfold Parser.grouped at hp
  cases hr : p { s with depth := s.depth + 1 } with
  | error e s₁ =>
    rw [hr] at hp
    cases hp
  | ok b s₁ =>
    rw [hr] at hp
    cases hp
    obtain ⟨E, hE, hlen, hrun⟩ :=
      h _ _ _ hr whole ⟨F.reports, F.tokens, F.repair, F.total⟩ hF
    refine ⟨⟨E.reports, E.tokens, E.repair, E.total⟩, hE, hlen, fun i left t hi hmeets => ?_⟩
    have hin : E.Meets left { t with depth := t.depth + 1 } :=
      ⟨⟨hmeets.agrees.scopes, hmeets.agrees.function, congrArg (· + 1) hmeets.agrees.depth⟩,
        hmeets.ahead, hmeets.total⟩
    obtain ⟨b, t₁, hq, hab, hout⟩ := hrun i left _ hi hin
    refine ⟨b, { t₁ with depth := t₁.depth - 1 }, ?_, hab,
      ⟨hout.agrees.scopes, hout.agrees.function, congrArg (· - 1) hout.agrees.depth⟩,
      hout.ahead, hout.total⟩
    show Parser.grouped (q i) t = _
    unfold Parser.grouped
    rw [hq]

theorem MendsAt.depth {c : Nat → Prop} [DecidablePred c] {p e : Parser α} {q e' : ι → Parser β}
    {s : State} (he : Fails e) (h : MendsAt place n k P Q R p q s) :
    MendsAt place n k P Q R (get >>= fun s => if c s.depth then e else p)
      (fun i => get >>= fun s => if c s.depth then e' i else q i) s := by
  by_cases hc : c s.depth
  · intro a s' hp
    have hfail : (if c s.depth then e else p) s = .ok a s' := hp
    rw [if_pos hc] at hfail
    exact absurd hfail (he _ _ _)
  · refine h.congr ?_ fun i t _ ht => ?_
    · show (if c s.depth then e else p) s = _
      rw [if_neg hc]
    · show (if c t.depth then e' i else q i) t = _
      rw [if_neg (ht.depth ▸ hc)]

section Checks

variable (left right : Node) (first next op : Token) (first' next' : ι → Token) (c : Node.Kind)

theorem steady_checkBoolean :
    Steady (checkBoolean left first) (fun i => checkBoolean left (first' i)) := by
  refine (aside_typeOf left).steady.bind fun type => ?_
  exact steady_check (fails_fail _ _) fun _ => steady_pure ()

theorem steady_logical : Steady (logical c left right first next op)
    (fun i => logical c left right (first' i) (next' i) op) := by
  refine (steady_checkBoolean left first first').bind fun _ => ?_
  refine (steady_checkBoolean right next next').bind fun _ => ?_
  exact (aside_typed _ _ op).steady

theorem steady_arithmetic : Steady (arithmetic c left right first next op)
    (fun i => arithmetic c left right (first' i) (next' i) op) := by
  refine (aside_typeOf left).steady.bind fun leftType => ?_
  refine (aside_typeOf right).steady.bind fun rightType => ?_
  refine steady_check (fails_fail_bind _ _ _) fun _ => ?_
  refine steady_check (fails_fail_bind _ _ _) fun _ => ?_
  exact (aside_typed _ _ op).steady

end Checks

/-! ## Operands -/

theorem mends_variableNamed (name : Token) : Repeats place n 0 Ends Ends (variableNamed name) := by
  refine mends_is_ends nofun (fails_fail_bind _ _ _).mends.when ?_
  refine (aside_resolve name.text).mendsBind fun id => ?_
  cases id with
  | none => exact (fails_fail _ _).mends
  | some id =>
    refine (aside_symbol? id).mendsBind fun sym => ?_
    split
    · exact (fails_fail _ _).mends
    · exact (fails_fail _ _).mends
    · exact (fails_fail _ _).mends
    · exact mends_pure fun _ => rfl

/-- The tokens that the arguments begin with may differ. -/
abbrev SameArguments (as bs : List (Token × Node)) : Prop := as.map Prod.snd = bs.map Prod.snd

theorem checkArguments_ok {as bs : List (Token × Node)} (h : SameArguments as bs)
    {params : List Symbol.Id} {s s' t : State} (hst : s.Agrees t)
    (hp : checkArguments as params s = .ok () s') :
    s' = s ∧ checkArguments bs params t = .ok () t := by
  induction as generalizing bs params with
  | nil =>
    obtain rfl : bs = [] := by simpa [SameArguments] using h.symm
    cases params <;> cases hp <;> exact ⟨rfl, rfl⟩
  | cons a as ih =>
    obtain ⟨x, m⟩ := a
    cases bs with
    | nil => cases h
    | cons b bs =>
      obtain ⟨y, m'⟩ := b
      obtain ⟨rfl, htail⟩ : m = m' ∧ SameArguments as bs := by
        simpa [SameArguments] using h
      cases params with
      | nil =>
        cases hp
        exact ⟨rfl, rfl⟩
      | cons id params =>
        let fits (S : Scopes) : Bool := ((m.symbol.map S.valueType).getD .void).assignableTo
          (((S.symbol? id).bind Symbol.dataType?).getD .void)
        have hpass : ∀ (x : Token) (as : List (Token × Node)) (s : State), fits s.scopes = true →
            checkArguments ((x, m) :: as) (id :: params) s = checkArguments as params s := by
          intro x as s hs
          show (if fits s.scopes then checkArguments as params else fail x _ >>= fun _ => _) s = _
          rw [hs]
          rfl
        cases hs : fits s.scopes with
        | true =>
          rw [hpass x as s hs] at hp
          obtain ⟨hss, hbs⟩ := ih htail hp
          exact ⟨hss, (hpass y bs t (hst.scopes ▸ hs)).trans hbs⟩
        | false =>
          have hfail : (if fits s.scopes then checkArguments as params
              else fail x _ >>= fun _ : Unit => checkArguments as params) s = .ok () s' := hp
          rw [hs] at hfail
          cases hfail

theorem steady_checkArguments {as : List (Token × Node)} {bs : ι → List (Token × Node)}
    (h : ∀ i, SameArguments as (bs i)) (params : List Symbol.Id) :
    Steady (checkArguments as params) (fun i => checkArguments (bs i) params) := by
  intro s a s' hp
  have hself : SameArguments as as := rfl
  obtain ⟨rfl, -⟩ := checkArguments_ok hself (t := s) ⟨rfl, rfl, rfl⟩ hp
  refine ⟨rfl, rfl, fun i t ht => ⟨t, (checkArguments_ok (h i) ht hp).2, ht, rfl, rfl⟩⟩

section Operands

variable {p : Parser Node} {q : ι → Parser Node} {s : State} {t m : Token} {l : List Token}

theorem mends_arguments (h : Mends place n 0 Begins Ends Eq p q) :
    Mends place n 0 Begins Same SameArguments (arguments p) (fun i => arguments (q i)) := by
  refine mends_is_begins (by decide) (mends_pure (R := SameArguments) fun _ => rfl).when ?_
  have hitem : Mends place n 0 Begins Ends (fun a b : Token × Node => a.2 = b.2)
      (do let t ← peek; return (t, ← p)) (fun i => do let t ← peek; return (t, ← q i)) := by
    refine mends_peek_bind fun t => ?_
    refine (h.reindex Prod.fst (fun _ => Nat.le_refl _) fun _ => rfl).bind fun m => ?_
    exact mends_pure fun _ => rfl
  refine ((mends_commaList hitem).rel fun as bs hab => ?_).conseq (fun _ _ h => h)
    fun _ _ h => h.before
  induction hab with
  | nil => rfl
  | cons hab _ ih => exact congrArg₂ List.cons hab ih

/-- An operand that begins with `t`, behind its sign. -/
def signedOperand (expression : Parser Node) (negative : Bool) (t : Token) : Parser Node := do
  let literal := if negative then "-" ++ t.text else t.text
  match t.kind with
  | .integer =>
    let _ ← advance
    integerLiteral t literal
  | .real =>
    let _ ← advance
    realLiteral t literal
  | _ =>
    if negative then
      warn t (.cannotNegate t)
    operand expression t

theorem primary_of_minus (h : s.stream.kind = .minus) (e : Parser Node) :
    primary e s = (peek >>= signedOperand e true) s.advance := by
  show (accept .minus >>= fun negative => peek >>= signedOperand e negative) s = _
  rw [accept_bind_eq, if_pos h]

theorem primary_of_ne_minus (h : s.stream.kind ≠ .minus) (e : Parser Node) :
    primary e s = (peek >>= signedOperand e false) s := by
  show (accept .minus >>= fun negative => peek >>= signedOperand e negative) s = _
  rw [accept_bind_eq, if_neg h]

theorem mendsWhen_signed (p : Parser Node) (q : ι → Parser Node) :
    MendsWhen place (fun c => c = .integer ∨ c = .real) n 1 Same Ends Eq
      (peek >>= signedOperand p true) (fun i => peek >>= signedOperand (q i) true) := by
  refine mendsWhen_peek_same fun t ht => ?_
  unfold signedOperand
  dsimp only
  rcases ht with ht | ht
  · rw [ht]
    exact mendsWhen_advance_bind (J := Ends) nofun fun _ _ => (aside_integerLiteral _ _).steady.mends
  · rw [ht]
    exact mendsWhen_advance_bind (J := Ends) nofun fun _ _ => (aside_realLiteral _ _).steady.mends

theorem fails_operand (h : t.kind ∉ operandKinds) : Fails (operand p t) := by
  unfold operand
  split
  case h_5 => exact fails_unexpected _
  all_goals
    next hk =>
    rw [hk] at h
    exact absurd (by decide) h

/-- What is no number is read as if the sign were not there. -/
theorem signedOperand_eq (hi : t.kind ≠ .integer) (hr : t.kind ≠ .real) (e : Parser Node)
    (negative : Bool) : signedOperand e negative t =
      if negative then warn t (.cannotNegate t) >>= fun _ => operand e t else operand e t := by
  unfold signedOperand
  cases hk : t.kind with
  | integer => exact absurd hk hi
  | real => exact absurd hk hr
  | _ => cases negative <;> rfl

theorem fails_signedOperand_eof (pos : Position) (negative : Bool) :
    Fails (signedOperand p negative (.eof pos)) := by
  have heof : Fails (operand p (.eof pos)) := fails_operand (by simp [Token.eof, operandKinds])
  rw [signedOperand_eq (by simp [Token.eof]) (by simp [Token.eof])]
  cases negative with
  | false => exact heof
  | true => exact fun s a s' hp => heof _ a s' hp

theorem mendsAt_negative (hm : m.kind = .minus) (hs : s.ahead = m :: t :: l)
    (ht : t.kind = .integer ∨ t.kind = .real) :
    MendsAt place n 1 Same Ends Eq (primary p) (fun i => primary (q i)) s := by
  refine mendsAt_keep (f := fun _ => peek >>= signedOperand p true)
    (g := fun i _ => peek >>= signedOperand (q i) true) hs ?_ (fun i u hu => ?_)
    ((mendsWhen_signed p q).weaken _ ?_)
  · exact primary_of_minus (by rw [State.kind_of_ahead hs, hm]) p
  · exact primary_of_minus (by rw [TokenStream.kind, hu, hm]) (q i)
  · rw [State.ahead_advance hs]
    exact ht

theorem not_primary_minus_end {s' : State} {a : Node} (hm : m.kind = .minus) (hs : s.ahead = [m]) :
    primary p s ≠ .ok a s' := by
  rw [primary_of_minus (by rw [State.kind_of_ahead hs, hm])]
  have hahead := State.ahead_advance hs
  generalize (s.advance : State) = s₁ at hahead
  show signedOperand p true s₁.stream.current s₁ ≠ _
  rw [State.current_eq, hahead]
  exact fails_signedOperand_eof _ _ _ _ _

theorem steady_negated (negation : Option Token) (first : Token) (first' : ι → Token)
    (node : Node) : Steady (negated negation first node)
      (fun i => negated negation (first' i) node) := by
  cases negation with
  | none => exact steady_pure node
  | some t => exact (steady_checkBoolean node first first').bind fun _ => (aside_typed _ _ t).steady

variable (h : Mends place (fun i => n i - 1) 0 Begins Ends Eq p q)
include h

theorem mends_callNamed (name : Token) (c : Node.Kind) :
    Mends place n 1 Same Q Eq (callNamed p name c) (fun i => callNamed (q i) name c) := by
  refine (aside_resolve name.text).mendsBind fun id => ?_
  cases id with
  | none => exact (fails_fail _ _).mends
  | some id =>
    refine (aside_symbol? id).mendsBind fun sym => ?_
    refine mends_check (fails_fail_bind _ _ _) fun _ => ?_
    refine mends_expect_bind (J := Begins) nofun fun _ _ => ?_
    refine (mends_arguments h).bindRel (k := 0) (fun as => ?_) (fun _ _ h => h)
      (fun _ => Nat.le_refl _) (Nat.le_refl _)
    refine mends_skip Q nofun ?_
    refine (aside_symbol? id).mendsBind fun sym => ?_
    refine mends_check_of (fails_fail_bind _ _ _) (fun hlen i => ?_) fun _ => ?_
    · rw [hlen, ← List.length_map Prod.snd, i.2.2, List.length_map]
    refine (steady_checkArguments (fun i => i.2.2) _).mendsBind fun _ => ?_
    refine mends_pure fun i => ?_
    rw [i.2.2]

theorem mends_named (name : Token) :
    Mends place n 0 Ends Ends Eq (named p name) (fun i => named (q i) name) := by
  refine mends_is_ends nofun (Mends.when ?_) (mends_variableNamed name)
  refine (mends_callNamed (Q := Ends) h name .call).bind fun m => ?_
  refine (aside_typeOf m).mendsBind fun type => ?_
  exact mends_refuse (fails_fail_bind _ _ _) fun _ => mends_pure fun _ => rfl

theorem mendsWhen_operand (t : Token) :
    MendsWhen place (· = t.kind) n 1 Same Ends Eq (operand p t) (fun i => operand (q i) t) := by
  unfold operand
  cases hk : t.kind with
  | keyword w =>
    cases w with
    | trueWord =>
      exact mendsWhen_advance_bind (J := Ends) nofun fun _ _ => (aside_typed _ _ _).steady.mends
    | falseWord =>
      exact mendsWhen_advance_bind (J := Ends) nofun fun _ _ => (aside_typed _ _ _).steady.mends
    | _ => exact (fails_unexpected _).mends.when
  | leftParen =>
    refine fun s hs => MendsAt.depth (fails_fail_bind _ _ _) ?_
    refine mendsWhen_advance_bind (C := (· = .leftParen)) (J := Begins) nofun (fun _ _ => ?_) s hs
    refine h.grouped.bindOf (fun m => ?_) fun _ _ => Same.before
    exact mends_skip Ends nofun (mends_pure fun _ => rfl)
  | ident =>
    exact mendsWhen_advance_bind (J := Ends) nofun fun name _ => mends_named h.lower name
  | _ => exact (fails_unexpected _).mends.when

theorem mends_unsigned :
    Mends place n 1 Same Ends Eq (peek >>= signedOperand p false)
      (fun i => peek >>= signedOperand (q i) false) := by
  refine mends_peek_same fun t => ?_
  unfold signedOperand
  dsimp only
  split
  · next hk =>
    rw [hk]
    exact mendsWhen_advance_bind (J := Ends) nofun fun _ _ => (aside_integerLiteral _ _).steady.mends
  · next hk =>
    rw [hk]
    exact mendsWhen_advance_bind (J := Ends) nofun fun _ _ => (aside_realLiteral _ _).steady.mends
  · exact mendsWhen_operand h t

theorem mendsAt_dropped (hm : m.kind = .minus) (hs : s.ahead = m :: t :: l)
    (hi : t.kind ≠ .integer) (hr : t.kind ≠ .real) :
    MendsAt place n 0 Begins Ends Eq (primary p) (fun i => primary (q i)) s := by
  intro a s' hp whole F hF
  obtain ⟨s₁, hs₁⟩ : ∃ s₁ : State, s₁ = s.advance := ⟨_, rfl⟩
  have hahead : s₁.ahead = t :: l := hs₁ ▸ State.ahead_advance hs
  rw [primary_of_minus (by rw [State.kind_of_ahead hs, hm]), ← hs₁] at hp
  have hp' : operand p t (s₁.reported (.warning t (.cannotNegate t))) = .ok a s' := by
    have hpeek : signedOperand p true s₁.stream.current s₁ = .ok a s' := hp
    rw [State.current_of_ahead hahead, signedOperand_eq hi hr] at hpeek
    exact hpeek
  have hkind : t.kind ∈ operandKinds := by
    by_contra hnot
    exact fails_operand hnot _ _ _ hp'
  have hhead : headKind (s₁.reported (.warning t (.cannotNegate t))).ahead = t.kind := by
    show headKind s₁.ahead = _
    rw [hahead]
    rfl
  -- the repair of the rest keeps `t` in front, so the sign before it can go
  obtain ⟨E, hE, hlen, hrun⟩ := mendsWhen_operand h t _ hhead a s' hp' whole F hF
  have hrepair : Repair place (t :: l) E.reports E.tokens := hahead ▸ E.repair
  have htotal : s.diagnostics.toList ++ .warning t (.cannotNegate t) :: E.reports = whole := by
    have hd : s₁.diagnostics = s.diagnostics := by rw [hs₁]
    rw [← hd]
    exact State.total_reported E.total
  refine ⟨⟨_, E.tokens, by rw [hs]; exact .drop hm hrepair, htotal⟩, .inr ⟨?_, ?_⟩,
    Nat.le_of_succ_le hlen, fun i left u hu hmeets => ?_⟩
  · rw [hs]
    exact hm
  · rwa [hE.headKind, hhead]
  · have hmeets' : E.Meets left u := by
      refine ⟨?_, hmeets.ahead, hmeets.total⟩
      rw [hs₁]
      exact ⟨hmeets.agrees.scopes, hmeets.agrees.function, hmeets.agrees.depth⟩
    obtain ⟨b, u', hb, hrest⟩ := hrun i left u hu hmeets'
    refine ⟨b, u', ?_, hrest⟩
    have hcur : u.stream.current = t := by
      obtain ⟨x, hx, hEx⟩ := hE
      obtain rfl : t = x := by
        have hx' : s₁.ahead.head? = some x := hx
        rw [hahead] at hx'
        exact Option.some.inj hx'
      rw [State.current_eq, hmeets.ahead, hEx]
      rfl
    have hminus : u.stream.kind ≠ .minus := by
      intro hku
      rw [TokenStream.kind, hcur] at hku
      rw [hku] at hkind
      exact absurd hkind (by decide)
    show primary (q i) u = _
    rw [primary_of_ne_minus hminus]
    show signedOperand (q i) false u.stream.current u = _
    rw [hcur, signedOperand_eq hi hr]
    exact hb

theorem mends_primary :
    Mends place n 0 Begins Ends Eq (primary p) (fun i => primary (q i)) := by
  intro s
  by_cases hk : s.stream.kind = .minus
  · obtain ⟨m, l, hs⟩ := State.exists_ahead (s := s) (by rw [hk]; exact nofun)
    have hm : m.kind = .minus := by rwa [← State.kind_of_ahead hs]
    cases l with
    | nil => exact fun a s' hp => absurd hp (not_primary_minus_end hm hs)
    | cons t l =>
      by_cases ht : t.kind = .integer ∨ t.kind = .real
      · exact (mendsAt_negative hm hs ht).weaken fun _ => Same.begins
      · exact mendsAt_dropped h hm hs (fun hi => ht (.inl hi)) fun hr => ht (.inr hr)
  · refine ((mends_unsigned h s).congr (primary_of_ne_minus hk p) fun i t hsame _ => ?_).weaken
      fun _ => Same.begins
    refine primary_of_ne_minus ?_ (q i)
    rwa [State.kind_eq, hsame.headKind, ← State.kind_eq]

theorem mends_power : Mends place n 0 Begins Ends Eq (power p) (fun i => power (q i)) := by
  refine mends_fix fun φ m hm p' q' ih => ?_
  refine mends_peek_bind fun first => ?_
  have hbase : Mends place (fun i : _ × Token => m i.1) 0 Begins Ends Eq (primary p)
      (fun i => primary (q (φ i.1))) := by
    refine mends_primary (h.reindex (fun i => φ i.1) (fun i => ?_) fun _ => rfl)
    exact Nat.sub_le_sub_right (hm i.1) 1
  refine hbase.bind fun base => ?_
  refine mends_is_ends nofun ?_ (mends_pure fun _ => rfl)
  refine (mendsWhen_advance_bind (J := Begins) nofun fun op _ => ?_).weaken
  refine mends_peek_bind fun next => ?_
  have hexponent : Mends place (fun i : (_ × Token) × Token => m i.1.1 - 1) 0 Begins Ends Eq p'
      (fun i => q' i.1.1) := ih.reindex (fun i => i.1.1) (fun _ => Nat.le_refl _) fun _ => rfl
  refine hexponent.bind fun exponent => ?_
  exact (steady_arithmetic base exponent first next op _ _ _).mends

theorem mends_product : Mends place n 0 Begins Ends Eq (product p) (fun i => product (q i)) :=
  mends_leftChain (mends_power h) rfl rfl fun c left right first next op _ _ =>
    steady_arithmetic left right first next op _ _ c

theorem mends_sum : Mends place n 0 Begins Ends Eq (sum p) (fun i => sum (q i)) :=
  mends_leftChain (mends_product h) rfl rfl fun c left right first next op _ _ =>
    steady_arithmetic left right first next op _ _ c

theorem mends_relationBehind (negation : Option Token) :
    Mends place n 0 Begins Ends Eq (relationBehind p negation)
      (fun i => relationBehind (q i) negation) := by
  refine mends_peek_bind fun first => ?_
  have hsum : Mends place (fun i : ι × Token => n i.1) 0 Begins Ends Eq (sum p)
      (fun i => sum (q i.1)) := (mends_sum h).reindex Prod.fst (fun _ => Nat.le_refl _) fun _ => rfl
  refine hsum.bind fun left => ?_
  refine mends_operator_bind rfl (fun c => ?_) (steady_negated negation first _ left).mends
  refine (mendsWhen_advance_bind (J := Begins) nofun fun op _ => ?_).weaken
  refine hsum.lower.bind fun right => ?_
  refine (aside_compare c left right op).mendsBind fun node => ?_
  exact (steady_negated negation first _ node).mends

theorem mends_relation : Mends place n 0 Begins Ends Eq (relation p) (fun i => relation (q i)) := by
  simp only [relation_eq]
  refine mends_is_begins (by decide) ?_ (mends_relationBehind h none)
  refine (mendsWhen_advance_bind (J := Begins) nofun fun t _ => ?_).weaken
  exact mends_relationBehind h.lower (some t)

theorem mends_logicalChain :
    Mends place n 0 Begins Ends Eq (logicalChain p) (fun i => logicalChain (q i)) :=
  mends_leftChain (mends_relation h) rfl rfl fun c left right first next op _ _ =>
    steady_logical left right first next op _ _ c

end Operands

theorem mends_expression : Repeats place n 0 Begins Ends expression :=
  mends_fix fun _ _ _ _ _ ih => mends_logicalChain ih

theorem mends_sumExpression : Repeats place n 0 Begins Ends sumExpression :=
  mends_sum mends_expression

end StackCompiler.Parser
