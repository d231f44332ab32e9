import StackCompiler.Proofs.Aside
import StackCompiler.Proofs.Lockstep

/-!
# Repaired programs

The parser goes on after a missing separator, a minus sign that negates no number, and tokens
behind the end of the program. What it reports tells how the tokens are to be repaired. The parser
is then run again on the repaired tokens, and ends with the same value.

What the second run has ahead depends on what the first run is still to report, so two runs are
compared from their ends: what lies ahead behind a parser, in both runs, determines what lies ahead
before it. Where both look at a token to decide how to go on, they must decide alike.
-/

namespace StackCompiler

/-- The report of a block without statements, which has nothing to be repaired. -/
def Diagnostic.isEmptyBlock : Diagnostic → Bool
  | warning _ .emptyBlock => true
  | _ => false

/-- Tokens, what is reported about them in turn, and the tokens once they are repaired. `place`
tells where a separator is put that is missing before a token. -/
inductive Repair (place : Token → Position) : List Token → List Diagnostic → List Token → Prop
  | done : Repair place [] [] []
  | keep {l r : List Token} {ds : List Diagnostic} (t : Token) (h : Repair place l ds r) :
      Repair place (t :: l) ds (t :: r)
  /-- A separator is missing. -/
  | supply {t : Token} {k : Token.Kind} {l r : List Token} {ds : List Diagnostic}
      (hk : k = .colon ∨ k = .semicolon) (h : Repair place (t :: l) ds r) :
      Repair place (t :: l) (.warning t (.missing k) :: ds) (⟨k, none, place t⟩ :: r)
  /-- A minus sign before something that is no number. -/
  | drop {m t : Token} {l r : List Token} {ds : List Diagnostic} (hm : m.kind = .minus)
      (h : Repair place (t :: l) ds r) :
      Repair place (m :: t :: l) (.warning t (.cannotNegate t) :: ds) r
  /-- A block without statements. -/
  | pass {t : Token} {l r : List Token} {ds : List Diagnostic} (h : Repair place (t :: l) ds r) :
      Repair place (t :: l) (.warning t .emptyBlock :: ds) r
  /-- Tokens behind the end of the program. -/
  | cut (t : Token) (l : List Token) : Repair place (t :: l) [.warning t .trailingInput] []

namespace Repair

variable {place : Token → Position} {l r r' : List Token} {ds : List Diagnostic}

theorem refl (l : List Token) : Repair place l [] l := by
  induction l with
  | nil => exact .done
  | cons t l ih => exact .keep t ih

theorem mem (h : Repair place l ds r) : ∀ d ∈ ds, d.token ∈ l := by
  induction h with
  | done => simp
  | keep t _ ih =>
    intro d hd
    exact List.mem_cons_of_mem t (ih d hd)
  | supply _ _ ih | pass _ ih =>
    intro d hd
    rcases List.mem_cons.1 hd with rfl | hd
    · exact List.mem_cons_self
    · exact ih d hd
  | drop _ _ ih =>
    intro d hd
    rcases List.mem_cons.1 hd with rfl | hd
    · exact List.mem_cons_of_mem _ List.mem_cons_self
    · exact List.mem_cons_of_mem _ (ih d hd)
  | cut t l =>
    intro d hd
    obtain rfl := List.mem_singleton.1 hd
    exact List.mem_cons_self

theorem not_nodup {t : Token} {n : Notice} (h : Repair place l (.warning t n :: ds) r) :
    ¬ (t :: l).Nodup := by
  intro hl
  exact (List.nodup_cons.1 hl).1 (h.mem _ List.mem_cons_self)

/-- If no token occurs twice, the reports leave no choice. -/
theorem unique (h : Repair place l ds r) (hl : l.Nodup) (h' : Repair place l ds r') : r = r' := by
  -- two repairs can part only at a token that occurs twice
  induction h generalizing r' with
  | done =>
    cases h'
    rfl
  | keep t h ih =>
    have htail := (List.nodup_cons.1 hl).2
    cases h' with
    | keep _ h' => rw [ih htail h']
    | supply _ _ | pass _ | cut _ _ => exact absurd hl h.not_nodup
    | drop _ _ =>
      cases h with
      | keep _ h => exact absurd htail h.not_nodup
      | drop _ _ => simp at htail
  | supply _ _ ih =>
    cases h' with
    | keep _ h' => exact absurd hl h'.not_nodup
    | supply _ h' => rw [ih hl h']
  | drop _ _ ih =>
    have htail := (List.nodup_cons.1 hl).2
    cases h' with
    | keep _ h' =>
      cases h' with
      | keep _ h' => exact absurd htail h'.not_nodup
      | drop _ _ => simp at htail
    | drop _ h' => exact ih htail h'
  | pass _ ih =>
    cases h' with
    | keep _ h' => exact absurd hl h'.not_nodup
    | pass h' => exact ih hl h'
  | cut t l =>
    cases h' with
    | keep _ h' => exact absurd hl h'.not_nodup
    | cut _ _ => rfl

end Repair

namespace Parser

def State.ahead (s : State) : List Token := s.stream.tokens.toList.drop s.stream.index

def headKind (l : List Token) : Token.Kind := (l.head?.map Token.kind).getD .eof

namespace State

variable {s t : State} {x : Token} {l : List Token}

theorem current_eq (s : State) : s.stream.current = s.ahead.head?.getD (.eof s.stream.finish) := by
  rw [ahead, List.head?_drop, Array.getElem?_toList]
  simp [TokenStream.current, Array.getD_eq_getD_getElem?]

theorem kind_eq (s : State) : s.stream.kind = headKind s.ahead := by
  rw [TokenStream.kind, current_eq, headKind]
  cases s.ahead.head? <;> rfl

theorem remaining_eq (s : State) : s.stream.remaining = s.ahead.length := by
  simp [TokenStream.remaining, ahead]

theorem current_of_ahead (h : s.ahead = x :: l) : s.stream.current = x := by
  rw [current_eq, h]
  rfl

theorem kind_of_ahead (h : s.ahead = x :: l) : s.stream.kind = x.kind := by
  rw [kind_eq, h]
  rfl

theorem ahead_advance (h : s.ahead = x :: l) :
    ahead s.advance = l := by
  have htail : ahead s.advance = s.ahead.tail := by
    simp [ahead, List.tail_drop]
  rw [htail, h]
  rfl

theorem exists_ahead (h : s.stream.kind ≠ .eof) : ∃ x l, s.ahead = x :: l := by
  rw [kind_eq] at h
  cases hs : s.ahead with
  | nil => exact absurd (by rw [hs]; rfl) h
  | cons x l => exact ⟨x, l, rfl⟩

/-- The states differ only in their tokens and in what was reported and logged. -/
structure Agrees (s t : State) : Prop where
  scopes : s.scopes = t.scopes
  function : s.function = t.function
  depth : s.depth = t.depth

end State

/-- What is still to come: what the first run will report, so that it has reported `whole` in the
end, and the repaired tokens. -/
structure Prospect (place : Token → Position) (whole : List Diagnostic) (s : State) where
  reports : List Diagnostic
  tokens : List Token
  repair : Repair place s.ahead reports tokens
  total : s.diagnostics.toList ++ reports = whole

/-- The second run is where the first one is. It will have reported `left` in the end. -/
structure Prospect.Meets {place : Token → Position} {whole : List Diagnostic} {s : State}
    (F : Prospect place whole s) (left : List Diagnostic) (t : State) : Prop where
  agrees : s.Agrees t
  ahead : t.ahead = F.tokens
  total : t.diagnostics.toList ++ F.reports.filter Diagnostic.isEmptyBlock = left

/-- How the tokens that two runs have ahead begin. -/
abbrev Junction := List Token → List Token → Prop

/-- Both with the same token. -/
def Same : Junction := fun l r => ∃ x, l.head? = some x ∧ r.head? = some x

/-- Both with the same token, unless the second one with a separator that was missing. -/
def Before (k : Token.Kind) : Junction := fun l r => Same l r ∨ (l ≠ [] ∧ headKind r = k)

/-- The end of a statement. -/
abbrev Ends : Junction := Before .semicolon

/-- What a minus sign can be dropped before. -/
def operandKinds : List Token.Kind :=
  [.keyword .trueWord, .keyword .falseWord, .leftParen, .ident]

/-- Both with the same token, unless the first one with a minus sign that was dropped. -/
def Begins : Junction :=
  fun l r => Same l r ∨ (headKind l = .minus ∧ headKind r ∈ operandKinds)

section Junctions

variable {l r : List Token} {k j : Token.Kind}

theorem Same.headKind (h : Same l r) : headKind r = headKind l := by
  obtain ⟨x, hl, hr⟩ := h
  rw [Parser.headKind, Parser.headKind, hl, hr]

theorem Same.before (h : Same l r) : Before k l r := .inl h

theorem Same.begins (h : Same l r) : Begins l r := .inl h

theorem Same.ne_nil (h : Same l r) : l ≠ [] := by
  rintro rfl
  obtain ⟨x, hl, -⟩ := h
  cases hl

theorem Before.headKind_ne (h : Before k l r) (hj : k ≠ j) (hl : headKind l ≠ j) :
    headKind r ≠ j := by
  rcases h with h | ⟨-, h⟩
  · rwa [h.headKind]
  · rwa [h]

theorem Begins.headKind_ne (h : Begins l r) (hj : j ∉ operandKinds) (hl : headKind l ≠ j) :
    headKind r ≠ j := by
  rcases h with h | ⟨-, h⟩
  · rwa [h.headKind]
  · rintro rfl
    exact hj h

end Junctions

/-! ## Two runs -/

variable {ι α β γ δ : Type} {place : Token → Position} {n : ι → Nat} {j k : Nat}
  {P P₁ P₂ Q Q₁ : Junction} {R : α → β → Prop} {T : γ → δ → Prop}

/-- If the parser `p` comes through from `s` on, and what lies ahead in the end is joined as `Q`
says, then what lay ahead before is joined as `P` says, and all of the parsers `q` come through on
the repaired tokens. They consume `k` tokens at least. A parser of them with the index `i` is only
run on fewer than `n i` tokens. -/
def MendsAt (place : Token → Position) (n : ι → Nat) (k : Nat) (P Q : Junction)
    (R : α → β → Prop) (p : Parser α) (q : ι → Parser β) (s : State) : Prop :=
  ∀ a s', p s = .ok a s' → ∀ whole (F : Prospect place whole s'), Q s'.ahead F.tokens →
    ∃ E : Prospect place whole s, P s.ahead E.tokens ∧ F.tokens.length + k ≤ E.tokens.length ∧
      ∀ i left t, E.tokens.length < n i → E.Meets left t →
        ∃ b t', q i t = .ok b t' ∧ R a b ∧ F.Meets left t'

/-- From everywhere on, the parsers come through on repaired tokens. -/
def Mends (place : Token → Position) (n : ι → Nat) (k : Nat) (P Q : Junction)
    (R : α → β → Prop) (p : Parser α) (q : ι → Parser β) : Prop :=
  ∀ s, MendsAt place n k P Q R p q s

/-- The parser comes through on repaired tokens too, with the same value. -/
abbrev Repeats (place : Token → Position) (n : ι → Nat) (k : Nat) (P Q : Junction)
    (p : Parser α) : Prop := Mends place n k P Q Eq p (fun _ => p)

namespace MendsAt

variable {p p' : Parser α} {q q' : ι → Parser β} {s : State}

theorem conseq (h : MendsAt place n k P Q R p q s) (hP : ∀ r, P s.ahead r → P₁ s.ahead r)
    (hQ : ∀ l r, Q₁ l r → Q l r) (hj : j ≤ k) : MendsAt place n j P₁ Q₁ R p q s := by
  intro a s' hp whole F hF
  obtain ⟨E, hE, hlen, hrun⟩ := h a s' hp whole F (hQ _ _ hF)
  exact ⟨E, hP _ hE, by omega, hrun⟩

theorem weaken (h : MendsAt place n k P Q R p q s) (hP : ∀ r, P s.ahead r → P₁ s.ahead r) :
    MendsAt place n 0 P₁ Q R p q s :=
  h.conseq hP (fun _ _ h => h) (Nat.zero_le k)

/-- Other parsers that do the same from here on, and from where the second run is. -/
theorem congr (h : MendsAt place n k P Q R p q s) (hp : p' s = p s)
    (hq : ∀ i t, P s.ahead t.ahead → s.Agrees t → q' i t = q i t) :
    MendsAt place n k P Q R p' q' s := by
  intro a s' hp' whole F hF
  obtain ⟨E, hE, hlen, hrun⟩ := h a s' (hp ▸ hp') whole F hF
  refine ⟨E, hE, hlen, fun i left t hi hmeets => ?_⟩
  rw [hq i t (hmeets.ahead ▸ hE) hmeets.agrees]
  exact hrun i left t hi hmeets

end MendsAt

namespace Mends

variable {p x : Parser α} {q y : ι → Parser β} {f : α → Parser γ} {g : ι → β → Parser δ}

/-- Other indices may stand for the same parsers, with lower bounds. -/
theorem reindex {ι' : Type} {m : ι' → Nat} {q' : ι' → Parser β} (h : Mends place n k P Q R p q)
    (φ : ι' → ι) (hm : ∀ i, m i ≤ n (φ i)) (hq : ∀ i, q' i = q (φ i)) :
    Mends place m k P Q R p q' := by
  intro s a s' hp whole F hF
  obtain ⟨E, hP, hk, hrun⟩ := h s a s' hp whole F hF
  refine ⟨E, hP, hk, fun i left t hi hmeets => ?_⟩
  rw [hq]
  exact hrun (φ i) left t (Nat.lt_of_lt_of_le hi (hm i)) hmeets

theorem lower (h : Mends place n k P Q R p q) : Mends place (fun i => n i - 1) k P Q R p q :=
  h.reindex id (fun i => Nat.sub_le (n i) 1) fun _ => rfl

theorem conseq (h : Mends place n k P Q R p q) (hP : ∀ l r, P l r → P₁ l r)
    (hQ : ∀ l r, Q₁ l r → Q l r) : Mends place n k P₁ Q₁ R p q :=
  fun s => (h s).conseq (hP _) hQ (Nat.le_refl k)

theorem weaken (h : Mends place n k P Q R p q) : Mends place n 0 P Q R p q :=
  fun s => (h s).weaken fun _ h => h

theorem rel {R' : α → β → Prop} (h : Mends place n k P Q R p q) (hR : ∀ a b, R a b → R' a b) :
    Mends place n k P Q R' p q := by
  intro s a s' hp whole F hF
  obtain ⟨E, hE, hk, hrun⟩ := h s a s' hp whole F hF
  refine ⟨E, hE, hk, fun i left t hi hmeets => ?_⟩
  obtain ⟨b, t', hq, hab, hmeets'⟩ := hrun i left t hi hmeets
  exact ⟨b, t', hq, hR a b hab, hmeets'⟩

/-- One parser after the other. The second ones may depend on what the first ones read. -/
theorem bindRel {m : ι → Nat} {k' : Nat} (hx : Mends place n j P Q₁ R x y)
    (hf : ∀ a, Mends place (fun i : ι × Subtype (R a) => m i.1) k P₂ Q T (f a)
      (fun i => g i.1 i.2.1))
    (hP : ∀ l r, P₂ l r → Q₁ l r) (hm : ∀ i, n i ≤ m i + j) (hk : k' ≤ j + k) :
    Mends place n k' P Q T (x >>= f) (fun i => y i >>= g i) := by
  intro s c s₂ hp whole F hF
  simp only [Bind.bind, EStateM.bind] at hp
  cases hxs : x s with
  | error e s₁ =>
    rw [hxs] at hp
    cases hp
  | ok a s₁ =>
    rw [hxs] at hp
    obtain ⟨E₁, hE₁, hlen₁, hrun₁⟩ := hf a s₁ c s₂ hp whole F hF
    obtain ⟨E, hE, hlen, hrun⟩ := hx s a s₁ hxs whole E₁ (hP _ _ hE₁)
    refine ⟨E, hE, by omega, fun i left t hi hmeets => ?_⟩
    obtain ⟨b, t₁, hy, hab, hmeets₁⟩ := hrun i left t hi hmeets
    have hi₁ : E₁.tokens.length < m i := by
      have := hm i
      omega
    obtain ⟨d, t₂, hg, hcd, hmeets₂⟩ := hrun₁ ⟨i, b, hab⟩ left t₁ hi₁ hmeets₁
    refine ⟨d, t₂, ?_, hcd, hmeets₂⟩
    simp only [Bind.bind, EStateM.bind, hy]
    exact hg

theorem bindOf {y : ι → Parser α} {g : ι → α → Parser δ} (hx : Mends place n j P Q₁ Eq x y)
    (hf : ∀ a, Mends place n k P₂ Q T (f a) (fun i => g i a)) (hP : ∀ l r, P₂ l r → Q₁ l r) :
    Mends place n k P Q T (x >>= f) (fun i => y i >>= g i) := by
  refine hx.bindRel (fun a => ?_) hP (fun i => Nat.le_add_right _ _) (Nat.le_add_left _ _)
  refine (hf a).reindex Prod.fst (fun i => Nat.le_refl _) ?_
  rintro ⟨i, b, rfl⟩
  rfl

theorem bind {y : ι → Parser α} {g : ι → α → Parser δ} (hx : Mends place n j P Q₁ Eq x y)
    (hf : ∀ a, Mends place n k Q₁ Q T (f a) (fun i => g i a)) :
    Mends place n k P Q T (x >>= f) (fun i => y i >>= g i) :=
  hx.bindOf hf fun _ _ h => h

theorem bindNext {y : ι → Parser α} {g : ι → α → Parser δ} (hx : Mends place n 1 P Q₁ Eq x y)
    (hf : ∀ a, Mends place (fun i => n i - 1) 0 Q₁ Q T (f a) (fun i => g i a)) :
    Mends place n 1 P Q T (x >>= f) (fun i => y i >>= g i) := by
  refine hx.bindRel (m := fun i => n i - 1) (k := 0) (fun a => ?_) (fun _ _ h => h)
    (fun i => by omega) (by omega)
  refine (hf a).reindex Prod.fst (fun i => Nat.le_refl _) ?_
  rintro ⟨i, b, rfl⟩
  rfl

end Mends

/-- The parser ends with an error wherever it starts. -/
def Fails (p : Parser α) : Prop := ∀ s a s', p s ≠ .ok a s'

theorem fails_of_error {p : Parser α} (h : ∀ s, ∃ e s', p s = .error e s') : Fails p := by
  intro s a s' hp
  obtain ⟨e, s'', he⟩ := h s
  rw [he] at hp
  cases hp

theorem fails_fail (t : Token) (f : Fault) : Fails (fail t f : Parser α) :=
  fails_of_error fun _ => ⟨_, _, rfl⟩

theorem fails_fail_bind (t : Token) (f : Fault) (g : α → Parser β) :
    Fails ((fail t f : Parser α) >>= g) :=
  fails_of_error fun _ => ⟨_, _, rfl⟩

theorem fails_unexpected (what : String) : Fails (unexpected what : Parser α) :=
  fails_of_error fun _ => ⟨_, _, rfl⟩

theorem fails_noProgress : Fails (noProgress : Parser α) :=
  fails_of_error fun _ => ⟨_, _, rfl⟩

theorem Fails.mends {p : Parser α} {q : ι → Parser β} (h : Fails p) : Mends place n k P Q R p q :=
  fun s a s' hp => absurd hp (h s a s')

theorem mends_pure {a : α} {b : ι → β} (h : ∀ i, R a (b i)) :
    Mends place n 0 Q Q R (pure a) (fun i => pure (b i)) := by
  intro s a' s' hp whole F hF
  cases hp
  exact ⟨F, hF, Nat.le_refl _, fun i left t _ hmeets => ⟨b i, t, rfl, h i, hmeets⟩⟩

theorem mends_check_of {c : Prop} {d : ι → Prop} [Decidable c] [∀ i, Decidable (d i)]
    {p e : Parser α} {q e' : ι → Parser β} (he : Fails e) (hd : c → ∀ i, d i)
    (h : c → Mends place n k P Q R p q) :
    Mends place n k P Q R (if c then p else e) (fun i => if d i then q i else e' i) := by
  by_cases hc : c
  · simpa only [if_pos hc, if_pos (hd hc _)] using h hc
  · simpa only [if_neg hc] using he.mends

theorem mends_check {c : Prop} [Decidable c] {p e : Parser α} {q e' : ι → Parser β}
    (he : Fails e) (h : c → Mends place n k P Q R p q) :
    Mends place n k P Q R (if c then p else e) (fun i => if c then q i else e' i) :=
  mends_check_of he (fun hc _ => hc) h

theorem mends_refuse {c : Prop} [Decidable c] {p e : Parser α} {q e' : ι → Parser β}
    (he : Fails e) (h : ¬ c → Mends place n k P Q R p q) :
    Mends place n k P Q R (if c then e else p) (fun i => if c then e' i else q i) := by
  by_cases hc : c
  · simpa only [if_pos hc] using he.mends
  · simpa only [if_neg hc] using h hc

end Parser

end StackCompiler
