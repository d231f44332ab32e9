import StackCompiler.Proofs.Operators
import StackCompiler.Proofs.Recovery.Basic

/-!
# Rules for repaired programs

How two runs go on together over the steps that parsers are made of: tokens, decisions, symbols,
recursion and repetition.
-/

namespace StackCompiler.Parser

variable {ι α β γ δ : Type} {place : Token → Position} {n : ι → Nat} {j k : Nat}
  {J P Q : Junction} {R : α → β → Prop} {T : γ → δ → Prop}

/-! ## Tokens -/

section Tokens

variable {whole : List Diagnostic} {s : State} {w : Token.Kind} {f : Token → Parser α}
  {g : ι → Token → Parser β} {C : Token.Kind → Prop} {x : Token} {l : List Token} {p : Parser α}
  {q : ι → Parser β}

/-- A token that both runs consume. -/
def Prospect.keep {x : Token} {l : List Token} (hs : s.ahead = x :: l)
    (F : Prospect place whole s.advance) : Prospect place whole s where
  reports := F.reports
  tokens := x :: F.tokens
  repair := by
    have h := F.repair
    rw [State.ahead_advance hs] at h
    rw [hs]
    exact .keep x h
  total := F.total

theorem Prospect.Meets.advance (hs : s.ahead = x :: l)
    {F : Prospect place whole s.advance} {left : List Diagnostic}
    {t : State} (h : (F.keep hs).Meets left t) :
    t.stream.current = x ∧ F.Meets left t.advance :=
  ⟨State.current_of_ahead h.ahead,
    ⟨h.agrees.scopes, h.agrees.function, h.agrees.depth⟩, State.ahead_advance h.ahead, h.total⟩

theorem same_keep (hs : s.ahead = x :: l)
    (F : Prospect place whole s.advance) :
    Same s.ahead (F.keep hs).tokens :=
  ⟨x, by rw [hs]; rfl, rfl⟩

theorem mendsAt_keep (hs : s.ahead = x :: l) (hp : p s = f x s.advance)
    (hq : ∀ i t, t.stream.current = x → q i t = g i x t.advance)
    (h : MendsAt place (fun i => n i - 1) 0 J Q R (f x) (fun i => g i x)
      s.advance) : MendsAt place n 1 Same Q R p q s := by
  intro a s' hp' whole F hF
  rw [hp] at hp'
  obtain ⟨E, -, hlen, hrun⟩ := h a s' hp' whole F hF
  have hE : (E.keep hs).tokens.length = E.tokens.length + 1 := rfl
  refine ⟨E.keep hs, same_keep hs E, by omega, fun i left t hi hmeets => ?_⟩
  obtain ⟨hcur, hmeets⟩ := hmeets.advance hs
  have hi' : E.tokens.length < n i - 1 := by omega
  rw [hq i t hcur]
  exact hrun i left _ hi' hmeets

theorem mends_expect_bind (hw : w ≠ .eof)
    (h : ∀ x, x.kind = w → Mends place (fun i => n i - 1) 0 J Q R (f x) (fun i => g i x)) :
    Mends place n 1 Same Q R (expect w >>= f) (fun i => expect w >>= g i) := by
  intro s
  by_cases hk : s.stream.kind = w
  · obtain ⟨x, l, hs⟩ := State.exists_ahead (hk ▸ hw)
    have hx : x.kind = w := by rwa [← State.kind_of_ahead hs]
    refine mendsAt_keep hs ?_ (fun i t ht => ?_) (h x hx _)
    · simp only [Bind.bind, EStateM.bind, expect, TokenStream.expect, if_pos hk,
        State.current_of_ahead hs]
    · have hkt : t.stream.kind = w := by rw [TokenStream.kind, ht, hx]
      simp only [Bind.bind, EStateM.bind, expect, TokenStream.expect, if_pos hkt, ht]
  · intro a s' hp
    simp only [Bind.bind, EStateM.bind, expect, TokenStream.expect, if_neg hk] at hp
    cases hp

theorem mends_expect_next (hw : w ≠ .eof)
    (h : ∀ x, x.kind = w → Mends place n 0 J Q R (f x) (fun i => g i x)) :
    Mends place n 0 Same Q R (expect w >>= f) (fun i => expect w >>= g i) :=
  (mends_expect_bind hw fun x hx => (h x hx).lower).weaken

theorem mends_skip (J : Junction) (hw : w ≠ .eof) (h : Mends place n 0 J Q R p q) :
    Mends place n 0 Same Q R (expect w >>= fun _ => p) (fun i => expect w >>= fun _ => q i) :=
  mends_expect_next hw fun _ _ => h

/-- As `Mends`, from a token of some kind on. -/
def MendsWhen (place : Token → Position) (C : Token.Kind → Prop) (n : ι → Nat) (k : Nat)
    (P Q : Junction) (R : α → β → Prop) (p : Parser α) (q : ι → Parser β) : Prop :=
  ∀ s, C (headKind s.ahead) → MendsAt place n k P Q R p q s

theorem Mends.when (h : Mends place n k P Q R p q) : MendsWhen place C n k P Q R p q :=
  fun s _ => h s

theorem MendsWhen.weaken (h : MendsWhen place C n k P Q R p q) : MendsWhen place C n 0 P Q R p q :=
  fun s hs => (h s hs).weaken fun _ h => h

theorem mendsWhen_advance_bind (hC : ¬ C .eof)
    (h : ∀ x, C x.kind → Mends place (fun i => n i - 1) 0 J Q R (f x) (fun i => g i x)) :
    MendsWhen place C n 1 Same Q R (advance >>= f) (fun i => advance >>= g i) := by
  intro s hs
  rw [← State.kind_eq] at hs
  obtain ⟨x, l, hahead⟩ := State.exists_ahead fun he => hC (he ▸ hs)
  rw [State.kind_of_ahead hahead] at hs
  refine mendsAt_keep hahead ?_ (fun i t ht => ?_) (h x hs _)
  · show f s.stream.current _ = _
    rw [State.current_of_ahead hahead]
  · show g i t.stream.current _ = _
    rw [ht]

theorem mends_look_bind {φ : Token.Kind → γ} {f : γ → Parser α} {g : ι → γ → Parser β}
    {J : γ → Junction}
    (h : ∀ c, MendsWhen place (φ · = c) n k (J c) Q R (f c) (fun i => g i c))
    (hJ : ∀ l r, J (φ (headKind l)) l r → φ (headKind r) = φ (headKind l) ∧ P l r) :
    Mends place n k P Q R (look φ >>= f) (fun i => look φ >>= g i) := by
  intro s
  have hdecided : MendsAt place n k (J (φ (headKind s.ahead))) Q R (look φ >>= f)
      (fun i => look φ >>= g i) s := by
    refine (h _ s rfl).congr ?_ fun i t hP _ => ?_
    · show f (φ s.stream.kind) s = _
      rw [State.kind_eq]
    · show g i (φ t.stream.kind) t = _
      rw [State.kind_eq, (hJ _ _ hP).1]
  exact hdecided.conseq (fun r hr => (hJ _ r hr).2) (fun _ _ h => h) (Nat.le_refl k)

theorem mends_look_same {φ : Token.Kind → γ} {f : γ → Parser α} {g : ι → γ → Parser β}
    (h : ∀ c, MendsWhen place (φ · = c) n k Same Q R (f c) (fun i => g i c)) :
    Mends place n k Same Q R (look φ >>= f) (fun i => look φ >>= g i) :=
  mends_look_bind (J := fun _ => Same) h fun _ _ hsame => ⟨by rw [hsame.headKind], hsame⟩

section Choices

variable {f : Bool → Parser α} {g : ι → Bool → Parser β}

theorem mends_is_bind
    (ht : MendsWhen place (· = w) n k Same Q R (f true) (fun i => g i true))
    (hf : Mends place n k P Q R (f false) (fun i => g i false)) (hS : ∀ l r, Same l r → P l r)
    (hne : ∀ l r, P l r → headKind l ≠ w → headKind r ≠ w) :
    Mends place n k P Q R (is w >>= f) (fun i => is w >>= g i) := by
  refine mends_look_bind (φ := fun x => decide (x = w)) (J := fun c => bif c then Same else P)
    (fun c => ?_) fun l r h => ?_
  · cases c with
    | true => exact fun s hs => ht s (of_decide_eq_true hs)
    | false => exact hf.when
  · by_cases hl : headKind l = w
    · rw [decide_eq_true hl] at h ⊢
      exact ⟨decide_eq_true (Same.headKind h ▸ hl), hS l r h⟩
    · rw [decide_eq_false hl] at h ⊢
      exact ⟨decide_eq_false (hne l r h hl), h⟩

theorem mends_is_same
    (ht : MendsWhen place (· = w) n k Same Q R (f true) (fun i => g i true))
    (hf : Mends place n k Same Q R (f false) (fun i => g i false)) :
    Mends place n k Same Q R (is w >>= f) (fun i => is w >>= g i) :=
  mends_is_bind ht hf (fun _ _ h => h) fun _ _ h hl => h.headKind ▸ hl

theorem mends_is_ends (hw : .semicolon ≠ w)
    (ht : MendsWhen place (· = w) n k Same Q R (f true) (fun i => g i true))
    (hf : Mends place n k Ends Q R (f false) (fun i => g i false)) :
    Mends place n k Ends Q R (is w >>= f) (fun i => is w >>= g i) :=
  mends_is_bind ht hf (fun _ _ => Same.before) fun _ _ h => h.headKind_ne hw

theorem mends_is_begins (hw : w ∉ operandKinds)
    (ht : MendsWhen place (· = w) n k Same Q R (f true) (fun i => g i true))
    (hf : Mends place n k Begins Q R (f false) (fun i => g i false)) :
    Mends place n k Begins Q R (is w >>= f) (fun i => is w >>= g i) :=
  mends_is_bind ht hf (fun _ _ => Same.begins) fun _ _ h => h.headKind_ne hw

theorem mends_operator_bind {operator? : Token.Kind → Option Node.Kind}
    {f : Option Node.Kind → Parser α} {g : ι → Option Node.Kind → Parser β}
    (hend : operator? .semicolon = none)
    (hsome : ∀ c, MendsWhen place (operator? · = some c) n k Same Q R (f (some c))
      (fun i => g i (some c)))
    (hnone : Mends place n k Ends Q R (f none) (fun i => g i none)) :
    Mends place n k Ends Q R (look operator? >>= f) (fun i => look operator? >>= g i) := by
  refine mends_look_bind (J := fun o => if o.isSome then Same else Ends) (fun o => ?_)
    fun l r hJ => ?_
  · cases o with
    | none => exact hnone.when
    | some c => exact hsome c
  · cases ho : operator? (headKind l) with
    | none =>
      rw [ho] at hJ
      refine ⟨?_, hJ⟩
      rcases hJ with hsame | ⟨-, hr⟩
      · rw [hsame.headKind, ho]
      · rw [hr, hend]
    | some c =>
      rw [ho] at hJ
      exact ⟨by rw [Same.headKind hJ, ho], Same.before hJ⟩

theorem accept_bind_eq (f : Bool → Parser α) (s : State) : (accept w >>= f) s =
    if s.stream.kind = w then f true s.advance else f false s := by
  show f (s.stream.accept w).1 { s with stream := (s.stream.accept w).2 } = _
  unfold TokenStream.accept
  split <;> rfl

theorem mends_accept_bind (hw : w ≠ .eof)
    (ht : Mends place (fun i => n i - 1) 0 J Q R (f true) (fun i => g i true))
    (hf : Mends place n 0 P Q R (f false) (fun i => g i false)) (hS : ∀ l r, Same l r → P l r)
    (hne : ∀ l r, P l r → headKind l ≠ w → headKind r ≠ w) :
    Mends place n 0 P Q R (accept w >>= f) (fun i => accept w >>= g i) := by
  intro s
  by_cases hk : s.stream.kind = w
  · obtain ⟨x, l, hs⟩ := State.exists_ahead (hk ▸ hw)
    have hx : x.kind = w := by rwa [← State.kind_of_ahead hs]
    have hkeep : MendsAt place n 1 Same Q R (accept w >>= f) (fun i => accept w >>= g i) s := by
      refine mendsAt_keep (f := fun _ => f true) (g := fun i _ => g i true) hs ?_
        (fun i t hcur => ?_) (ht _)
      · rw [accept_bind_eq, if_pos hk]
      · rw [accept_bind_eq, if_pos (by rw [TokenStream.kind, hcur, hx])]
    exact hkeep.weaken (hS _)
  · refine (hf s).congr (by rw [accept_bind_eq, if_neg hk]) fun i t hP _ => ?_
    have hkt : t.stream.kind ≠ w := by
      rw [State.kind_eq] at hk ⊢
      exact hne _ _ hP hk
    show (accept w >>= g i) t = _
    rw [accept_bind_eq, if_neg hkt]

theorem mends_accept_same (hw : w ≠ .eof)
    (ht : Mends place (fun i => n i - 1) 0 J Q R (f true) (fun i => g i true))
    (hf : Mends place n 0 Same Q R (f false) (fun i => g i false)) :
    Mends place n 0 Same Q R (accept w >>= f) (fun i => accept w >>= g i) :=
  mends_accept_bind hw ht hf (fun _ _ h => h) fun _ _ h hl => h.headKind ▸ hl

end Choices

/-- A token that only errors carry. -/
theorem mends_peek_bind
    (h : ∀ x, Mends place (fun i : ι × Token => n i.1) k P Q R (f x) (fun i => g i.1 i.2)) :
    Mends place n k P Q R (peek >>= f) (fun i => peek >>= g i) := by
  intro s a s' hp whole F hF
  obtain ⟨E, hE, hlen, hrun⟩ := h s.stream.current s a s' hp whole F hF
  refine ⟨E, hE, hlen, fun i left t hi hmeets => ?_⟩
  exact hrun (i, t.stream.current) left t hi hmeets

theorem mendsWhen_peek_same
    (h : ∀ x, C x.kind → MendsWhen place (· = x.kind) n k Same Q R (f x) (fun i => g i x)) :
    MendsWhen place C n k Same Q R (peek >>= f) (fun i => peek >>= g i) := by
  intro s hC
  have hkind : headKind s.ahead = s.stream.current.kind := (State.kind_eq s).symm
  refine (h s.stream.current (hkind ▸ hC) s hkind).congr rfl fun i t hsame _ => ?_
  have hcur : t.stream.current = s.stream.current := by
    obtain ⟨x, hs, ht⟩ := hsame
    rw [State.current_eq, State.current_eq, ht, hs]
    rfl
  show g i t.stream.current t = _
  rw [hcur]

theorem mends_peek_same
    (h : ∀ x, MendsWhen place (· = x.kind) n k Same Q R (f x) (fun i => g i x)) :
    Mends place n k Same Q R (peek >>= f) (fun i => peek >>= g i) :=
  fun s => mendsWhen_peek_same (C := fun _ => True) (fun x _ => h x) s trivial

theorem separator_eq (w : Token.Kind) (s : State) : separator w s =
    if s.stream.kind = w then .ok () s.advance
    else warn s.stream.current (.missing w) s := by
  show (accept w >>= fun c => if c then pure () else peek >>= fun t => warn t (.missing w)) s = _
  rw [accept_bind_eq]
  rfl

def State.reported (s : State) (d : Diagnostic) : State :=
  { s with diagnostics := s.diagnostics.push d, log := s.log.push (.warned d.remark) }

theorem State.total_reported {d : Diagnostic} {reports : List Diagnostic}
    (h : (s.reported d).diagnostics.toList ++ reports = whole) :
    s.diagnostics.toList ++ d :: reports = whole := by
  rwa [reported, Array.toList_push, List.append_assoc] at h

theorem mends_separator (hw : w = .colon ∨ w = .semicolon) :
    Repeats place n 0 (Before w) Same (separator w) := by
  have hw' : w ≠ .eof := by rcases hw with rfl | rfl <;> simp
  have haccepts : ∀ t : State, t.stream.kind = w →
      separator w t = .ok () t.advance := by
    intro t ht
    rw [separator_eq, if_pos ht]
  intro s a s' hp whole F hF
  by_cases hk : s.stream.kind = w
  · obtain ⟨x, l, hs⟩ := State.exists_ahead (hk ▸ hw')
    have hx : x.kind = w := by rwa [← State.kind_of_ahead hs]
    rw [haccepts s hk] at hp
    cases hp
    refine ⟨F.keep hs, (same_keep hs F).before, Nat.le_succ _, fun i left t _ hmeets => ?_⟩
    obtain ⟨hcur, hmeets⟩ := hmeets.advance hs
    exact ⟨(), _, haccepts t (by rw [TokenStream.kind, hcur, hx]), rfl, hmeets⟩
  · -- the one reported missing is supplied, for the second run to accept
    rw [separator_eq, if_neg hk] at hp
    cases hp
    obtain ⟨reports, tokens, repair, total⟩ := F
    obtain ⟨x, l, hs⟩ : ∃ x l, s.ahead = x :: l := List.exists_cons_of_ne_nil (Same.ne_nil hF)
    have htotal := State.total_reported total
    rw [State.current_of_ahead hs] at htotal
    have hrepair : Repair place (x :: l) reports tokens := hs ▸ repair
    refine ⟨⟨_, ⟨w, none, place x⟩ :: tokens, by rw [hs]; exact .supply hw hrepair, htotal⟩,
      .inr ⟨by simp [hs], rfl⟩, Nat.le_succ _, fun i left t _ hmeets => ?_⟩
    refine ⟨(), _, haccepts t (State.kind_of_ahead hmeets.ahead), rfl, ?_⟩
    exact ⟨⟨hmeets.agrees.scopes, hmeets.agrees.function, hmeets.agrees.depth⟩,
      State.ahead_advance hmeets.ahead, hmeets.total⟩

end Tokens

/-- The parsers leave tokens and reports alone. Where the first comes through, all others do from
states that agree, with the same value. -/
def Steady (p : Parser α) (q : ι → Parser α) : Prop :=
  ∀ s a s', p s = .ok a s' → s'.stream = s.stream ∧ s'.diagnostics = s.diagnostics ∧
    ∀ i t, s.Agrees t → ∃ t', q i t = .ok a t' ∧ s'.Agrees t' ∧ t'.stream = t.stream ∧
      t'.diagnostics = t.diagnostics

section Symbols

variable {p e x : Parser α} {q e' y : ι → Parser α} {f : α → Parser γ} {g : ι → α → Parser γ}

theorem Fails.steady (h : Fails p) : Steady p q := fun s a s' hp => absurd hp (h s a s')

theorem steady_pure (a : α) : Steady (pure a) (fun _ : ι => pure a) := by
  intro s a s' hp
  cases hp
  exact ⟨rfl, rfl, fun i t ht => ⟨t, rfl, ht, rfl, rfl⟩⟩

theorem Steady.bind (hx : Steady x y) (hf : ∀ a, Steady (f a) (fun i => g i a)) :
    Steady (x >>= f) (fun i => y i >>= g i) := by
  intro s c s₂ hp
  simp only [Bind.bind, EStateM.bind] at hp
  cases hxs : x s with
  | error err s₁ =>
    rw [hxs] at hp
    cases hp
  | ok a s₁ =>
    rw [hxs] at hp
    obtain ⟨hstream, hdiag, hrun⟩ := hx s a s₁ hxs
    obtain ⟨hstream₁, hdiag₁, hrun₁⟩ := hf a s₁ c s₂ hp
    refine ⟨hstream₁.trans hstream, hdiag₁.trans hdiag, fun i t ht => ?_⟩
    obtain ⟨t₁, hy, ht₁, hts, htd⟩ := hrun i t ht
    obtain ⟨t₂, hg, ht₂, hts₁, htd₁⟩ := hrun₁ i t₁ ht₁
    refine ⟨t₂, ?_, ht₂, hts₁.trans hts, htd₁.trans htd⟩
    simp only [Bind.bind, EStateM.bind, hy]
    exact hg

theorem steady_check {c : Prop} [Decidable c] (he : Fails e) (h : c → Steady p q) :
    Steady (if c then p else e) (fun i => if c then q i else e' i) := by
  by_cases hc : c
  · simpa only [if_pos hc] using h hc
  · simpa only [if_neg hc] using he.steady

theorem steady_refuse {c : Prop} [Decidable c] (he : Fails e) (h : ¬ c → Steady p q) :
    Steady (if c then e else p) (fun i => if c then e' i else q i) := by
  by_cases hc : c
  · simpa only [if_pos hc] using he.steady
  · simpa only [if_neg hc] using h hc

theorem steady_scopes (φ : Scopes → α × Scopes)
    (h : ∀ s, ∃ log, p s = .ok (φ s.scopes).1 { s with scopes := (φ s.scopes).2, log := log }) :
    Steady p (fun _ : ι => p) := by
  intro s a s' hp
  obtain ⟨log, hs⟩ := h s
  rw [hs] at hp
  cases hp
  refine ⟨rfl, rfl, fun i t ht => ?_⟩
  obtain ⟨log', ht'⟩ := h t
  rw [← ht.scopes] at ht'
  exact ⟨_, ht', ⟨rfl, ht.function, ht.depth⟩, rfl, rfl⟩

theorem Aside.steady (h : Aside p) : Steady p (fun _ : ι => p) := by
  intro s a s' hp
  obtain ⟨hs', hrun⟩ := h.of_ok hp
  rw [hs']
  refine ⟨rfl, rfl, fun i t ht => ⟨s'.onto t, ?_, ⟨rfl, rfl, ht.depth⟩, rfl, rfl⟩⟩
  have hq := hrun t
  rwa [State.onto, ht.scopes, ht.function] at hq

theorem steady_get {f : State → Parser α} {g : ι → State → Parser α}
    (h : ∀ s, Steady (f s) (fun i : ι × Subtype s.Agrees => g i.1 i.2.1)) :
    Steady (get >>= f) (fun i => get >>= g i) := by
  intro s a s' hp
  obtain ⟨hstream, hdiag, hrun⟩ := h s s a s' hp
  exact ⟨hstream, hdiag, fun i t ht => hrun (i, ⟨t, ht⟩) t ht⟩

theorem Steady.mends (h : Steady p q) : Mends place n 0 Q Q Eq p q := by
  intro s a s' hp whole F hF
  obtain ⟨hstream, hdiag, hrun⟩ := h s a s' hp
  have hahead : s'.ahead = s.ahead := by rw [State.ahead, hstream]; rfl
  obtain ⟨reports, tokens, repair, total⟩ := F
  rw [hahead] at repair hF
  rw [hdiag] at total
  refine ⟨⟨reports, tokens, repair, total⟩, hF, Nat.le_refl _, fun i left t _ hmeets => ?_⟩
  obtain ⟨t', hq, ht', hts, htd⟩ := hrun i t hmeets.agrees
  have hahead' : t'.ahead = t.ahead := by rw [State.ahead, hts]; rfl
  exact ⟨a, t', hq, rfl, ht', hahead'.trans hmeets.ahead, by rw [htd]; exact hmeets.total⟩

theorem Steady.mendsBind {T : γ → δ → Prop} {g : ι → α → Parser δ} (hx : Steady x y)
    (hf : ∀ a, Mends place n k P Q T (f a) (fun i => g i a)) :
    Mends place n k P Q T (x >>= f) (fun i => y i >>= g i) :=
  hx.mends.bind hf

theorem Aside.mendsBind {T : γ → δ → Prop} {g : ι → α → Parser δ} (hx : Aside x)
    (hf : ∀ a, Mends place n k P Q T (f a) (fun i => g i a)) :
    Mends place n k P Q T (x >>= f) (fun i => x >>= g i) :=
  hx.steady.mendsBind hf

theorem steady_createScope (name : String) :
    Steady (createScope name) (fun _ : ι => createScope name) :=
  steady_scopes (fun S => ((), S.create name)) fun _ => ⟨_, rfl⟩

theorem steady_declare (t : Token) (sym : Symbol) (region : Option Region) :
    Steady (declare t sym region) (fun _ : ι => declare t sym region) := by
  refine (aside_checkFresh t).steady.bind fun _ => ?_
  exact steady_scopes (fun S => S.declare sym region) fun s => ⟨_, rfl⟩

end Symbols

/-! ## Recursion and repetition -/

section Recursion

variable {p : Parser α} {q : ι → Parser β} {f : γ → Parser (γ ⊕ α)}

/-- Runs a parser only if fewer than `k` tokens are left. -/
def guarded (k : Nat) (p : Parser α) : Parser α := fun s =>
  if s.stream.remaining < k then p s else noProgress s

theorem fix_eq (body : Parser α → Parser α) (s : State) :
    fix body s = body (guarded s.ahead.length (fix body)) s := by
  rw [fix, State.remaining_eq]
  rfl

theorem loop_eq (step : γ → Parser (γ ⊕ α)) (c : γ) (s : State) : loop step c s =
    (step c >>= Sum.elim (fun c => guarded s.ahead.length (loop step c)) pure) s := by
  rw [loop, State.remaining_eq]
  simp only [Bind.bind, EStateM.bind]
  cases step c s with
  | error e s' => rfl
  | ok r s' => cases r <;> rfl

/-- The second run is indexed by the number of tokens that it started with, too. -/
theorem mends_guarded {m : Nat} (h : ∀ s, s.ahead.length < m → MendsAt place n 0 P Q R p q s) :
    Mends place (fun i : ι × Nat => min (n i.1) (i.2 + 1) - 1) 0 P Q R (guarded m p)
      (fun i => guarded i.2 (q i.1)) := by
  intro s a s' hp whole F hF
  unfold guarded at hp
  split at hp
  · next hlt =>
    rw [State.remaining_eq] at hlt
    obtain ⟨E, hE, hlen, hrun⟩ := h s hlt a s' hp whole F hF
    refine ⟨E, hE, hlen, fun i left t hi hmeets => ?_⟩
    dsimp only at hi
    have hremaining : t.stream.remaining < i.2 := by
      rw [State.remaining_eq, hmeets.ahead]
      omega
    obtain ⟨b, t', hb, hrest⟩ := hrun i.1 left t (by omega) hmeets
    exact ⟨b, t', (if_pos hremaining).trans hb, hrest⟩
  · exact absurd hp (fails_noProgress _ _ _)

/-- A recursive parser comes through on repaired tokens if its body does, where the parser itself is
only run on fewer tokens. -/
theorem mends_fix {body : Parser α → Parser α} {body' : ι → Parser β → Parser β}
    (h : ∀ {ι' : Type} (φ : ι' → ι) (m : ι' → Nat), (∀ i, m i ≤ n (φ i)) →
      ∀ (p : Parser α) (q : ι' → Parser β), Mends place (fun i => m i - 1) 0 P Q R p q →
        Mends place m 0 P Q R (body p) (fun i => body' (φ i) (q i))) :
    Mends place n 0 P Q R (fix body) (fun i => fix (body' i)) := by
  intro s
  induction hs : s.ahead.length using Nat.strongRecOn generalizing s with
  | ind size ih =>
    have hinner := mends_guarded fun s₁ hlt => ih _ hlt s₁ rfl
    have hbody := h Prod.fst (fun i : ι × Nat => min (n i.1) (i.2 + 1))
      (fun i => Nat.min_le_left _ _) _ _ hinner s
    intro a s' hp whole F hF
    rw [fix_eq, hs] at hp
    obtain ⟨E, hE, hlen, hrun⟩ := hbody a s' hp whole F hF
    refine ⟨E, hE, hlen, fun i left t hi hmeets => ?_⟩
    obtain ⟨b, t', hb, hrest⟩ := hrun (i, E.tokens.length) left t (by dsimp only; omega) hmeets
    refine ⟨b, t', ?_, hrest⟩
    show fix (body' i) t = _
    rw [fix_eq, hmeets.ahead]
    exact hb

/-- A loop comes through on repaired tokens if each step does together with the rest of the loop,
which is only run on fewer tokens. -/
theorem mends_loop {g : ι → δ → Parser (δ ⊕ β)}
    (h : ∀ {ι' : Type} (φ : ι' → ι) (m : ι' → Nat), (∀ i, m i ≤ n (φ i)) →
      ∀ (p : γ → Parser α) (q : ι' → δ → Parser β),
        (∀ c, Mends place (fun i : ι' × Subtype (T c) => m i.1 - 1) 0 P Q R (p c)
          (fun i => q i.1 i.2.1)) →
        ∀ c, Mends place (fun i : ι' × Subtype (T c) => m i.1) 0 P Q R
          (f c >>= Sum.elim p pure) (fun i => g (φ i.1) i.2.1 >>= Sum.elim (q i.1) pure))
    (c : γ) : Mends place (fun i : ι × Subtype (T c) => n i.1) 0 P Q R (loop f c)
      (fun i => loop (g i.1) i.2.1) := by
  intro s
  induction hs : s.ahead.length using Nat.strongRecOn generalizing c s with
  | ind size ih =>
    have hinner (c : γ) : Mends place
        (fun i : (ι × Nat) × Subtype (T c) => min (n i.1.1) (i.1.2 + 1) - 1) 0 P Q R
        (guarded size (loop f c)) (fun i => guarded i.1.2 (loop (g i.1.1) i.2.1)) :=
      (mends_guarded fun s₁ hlt => ih _ hlt c s₁ rfl).reindex (fun i => ((i.1.1, i.2), i.1.2))
        (fun _ => Nat.le_refl _) fun _ => rfl
    have hstep := h Prod.fst (fun i : ι × Nat => min (n i.1) (i.2 + 1))
      (fun i => Nat.min_le_left _ _) (fun c => guarded size (loop f c))
      (fun i d => guarded i.2 (loop (g i.1) d)) hinner c s
    intro a s' hp whole F hF
    rw [loop_eq, hs] at hp
    obtain ⟨E, hE, hlen, hrun⟩ := hstep a s' hp whole F hF
    refine ⟨E, hE, hlen, fun i left t hi hmeets => ?_⟩
    dsimp only at hi
    obtain ⟨b, t', hb, hrest⟩ :=
      hrun ((i.1, E.tokens.length), i.2) left t (by dsimp only; omega) hmeets
    refine ⟨b, t', ?_, hrest⟩
    show loop (g i.1) i.2.1 t = _
    rw [loop_eq, hmeets.ahead]
    exact hb

theorem mends_repeat {g : ι → γ → Parser (γ ⊕ β)}
    (h : ∀ {ι' : Type} (φ : ι' → ι) (m : ι' → Nat), (∀ i, m i ≤ n (φ i)) →
      ∀ (p : γ → Parser α) (q : ι' → γ → Parser β),
        (∀ c, Mends place (fun i => m i - 1) 0 P Q R (p c) (fun i => q i c)) →
        ∀ c, Mends place m 0 P Q R (f c >>= Sum.elim p pure)
          (fun i => g (φ i) c >>= Sum.elim (q i) pure))
    (c : γ) : Mends place n 0 P Q R (loop f c) (fun i => loop (g i) c) := by
  refine (mends_loop (T := Eq) (n := n) (g := g) (fun φ m hm p q hrest c => ?_) c).reindex
    (fun i => (i, ⟨c, rfl⟩)) (fun _ => Nat.le_refl _) fun _ => rfl
  have hrest' : ∀ c, Mends place (fun i => m i - 1) 0 P Q R (p c) (fun i => q i c) :=
    fun c => (hrest c).reindex (fun i => (i, ⟨c, rfl⟩)) (fun _ => Nat.le_refl _) fun _ => rfl
  refine (h φ m hm p q hrest' c).reindex Prod.fst (fun _ => Nat.le_refl _) ?_
  rintro ⟨i, _, rfl⟩
  rfl

theorem mends_commaList (h : Mends place n j P Ends R p q) :
    Mends place n 0 P Ends (List.Forall₂ R) (commaList p) (fun i => commaList (q i)) := by
  refine (mends_loop (T := List.Forall₂ R) (n := n) (g := fun i before => do
    let items := (← q i) :: before
    if ← accept .comma then return .inl items else return .inr items.reverse)
    (fun φ m hm p' q' hrest c => ?_) []).reindex (fun i => (i, ⟨[], .nil⟩))
    (fun i => Nat.le_refl _) fun i => rfl
  simp only [bind_assoc]
  have hitem : Mends place (fun i : _ × Subtype (List.Forall₂ R c) => m i.1) j P Ends R p
      (fun i => q (φ i.1)) := h.reindex (fun i => φ i.1) (fun i => hm i.1) fun _ => rfl
  refine hitem.bindRel (k := 0) (fun a => ?_) (fun _ _ h => h) (fun i => Nat.le_add_right _ _)
    (Nat.zero_le _)
  refine mends_accept_bind (J := P) nofun ?_ ?_ (fun _ _ h => h.before)
    fun _ _ h => h.headKind_ne nofun
  · exact (hrest (a :: c)).reindex (fun i => (i.1.1, ⟨i.2.1 :: i.1.2.1, .cons i.2.2 i.1.2.2⟩))
      (fun i => Nat.le_refl _) fun i => rfl
  · exact mends_pure fun i => List.rel_reverse (.cons i.2.2 i.1.2.2)

theorem mends_items {q : ι → Parser α} (h : Mends place n j P Ends Eq p q) :
    Mends place n 0 P Ends Eq (commaList p) (fun i => commaList (q i)) :=
  (mends_commaList h).rel fun _ _ h => List.forall₂_eq_eq_eq ▸ h

theorem mends_whileList {q : ι → Parser α} {w : Token.Kind} (h : Mends place n 1 Same Same Eq p q) :
    Mends place n 0 Same Same Eq (whileList (is w) p) (fun i => whileList (is w) (q i)) := by
  refine mends_repeat (g := fun i before => do
    if ← is w then return .inl ((← q i) :: before) else return .inr before.reverse)
    (fun φ m hm p' q' hrest c => ?_) []
  simp only [bind_assoc]
  refine mends_is_same (Mends.when ?_) ?_
  · simp only [if_true, bind_assoc, pure_bind]
    refine ((h.reindex φ hm fun _ => rfl).bindNext fun a => ?_).weaken
    exact hrest (a :: c)
  · exact mends_pure fun _ => rfl

/-- Operands with operators between them. Both runs find the same operators: none of them is dropped
or supplied behind an operand. -/
theorem mends_leftChain {p : Parser Node} {q : ι → Parser Node}
    {operator? : Token.Kind → Option Node.Kind}
    {combine : Node.Kind → Node → Node → Token → Token → Token → Parser Node}
    (h : Mends place n 0 Begins Ends Eq p q)
    (hend : operator? .semicolon = none) (heof : operator? .eof = none)
    (hcombine : ∀ {ι : Type} (c : Node.Kind) (left right : Node) (first next op : Token)
      (first' next' : ι → Token), Steady (combine c left right first next op)
        (fun i => combine c left right (first' i) (next' i) op)) :
    Mends place n 0 Begins Ends Eq (leftChain p operator? combine)
      (fun i => leftChain (q i) operator? combine) := by
  refine mends_peek_bind fun first => ?_
  have hleft : Mends place (fun i : ι × Token => n i.1) 0 Begins Ends Eq p (fun i => q i.1) :=
    h.reindex Prod.fst (fun _ => Nat.le_refl _) fun _ => rfl
  refine hleft.bind fun left => ?_
  refine mends_repeat (f := fun left => look operator? >>= chainLink p combine first left)
    (g := fun (i : ι × Token) left => look operator? >>= chainLink (q i.1) combine i.2 left)
    (fun φ m hm p' q' hrest left => ?_) left
  simp only [bind_assoc]
  refine mends_operator_bind hend (fun c => ?_) (mends_pure fun _ => rfl)
  simp only [chainLink, bind_assoc, pure_bind]
  have hne : ¬ operator? .eof = some c := by
    rw [heof]
    exact nofun
  refine (mendsWhen_advance_bind (J := Begins) hne fun op _ => ?_).weaken
  refine mends_peek_bind fun next => ?_
  have hright : Mends place (fun i : _ × Token => m i.1 - 1) 0 Begins Ends Eq p
      (fun i => q (φ i.1).1) :=
    hleft.reindex (fun i => φ i.1) (fun i => Nat.le_trans (Nat.sub_le _ _) (hm i.1))
      fun _ => rfl
  refine hright.bind fun right => ?_
  refine (hcombine c left right first next op _ _).mendsBind fun node => ?_
  exact (hrest node).reindex Prod.fst (fun _ => Nat.le_refl _) fun _ => rfl

end Recursion

end StackCompiler.Parser
