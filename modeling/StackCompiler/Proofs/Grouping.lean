import StackCompiler.Proofs.Precedence.RoundTrip
import StackCompiler.Proofs.Recovery.Expressions

/-!
# Expressions in parentheses

Parentheses around an expression do not change what is read, as long as there is a level left for
each. A run on the expression is compared with a second one that has more of them open around it:
the second run goes along with the first, unless it comes to a parenthesis beyond the last level.
The tokens alone tell which one that is.
-/

namespace StackCompiler.Parser

open Grammar

/-! ## Levels -/

/-- Where a token stands among parentheses. -/
structure Nest where
  /-- The parentheses that are open, the innermost first: whether they group. -/
  opened : List Bool
  /-- A name stands right before, so that a parenthesis would be that of a call. -/
  called : Bool

namespace Nest

def step (n : Nest) (w : Token.Kind) : Nest :=
  if w = .leftParen then ⟨(!n.called) :: n.opened, false⟩
  else if w = .rightParen then ⟨n.opened.tail, false⟩
  else ⟨n.opened, w = .ident⟩

/-- The parentheses that open a group, each with the level of the group. -/
def groups (n : Nest) : List Token → List (Token × Nat)
  | [] => []
  | x :: l =>
    if x.kind = .leftParen ∧ n.called = false then
      (x, n.opened.count true + 1) :: (n.step x.kind).groups l
    else (n.step x.kind).groups l

/-- The first one beyond the last level, if `m` more are open around. -/
def beyond (n : Nest) (m : Nat) (l : List Token) : Option Token :=
  ((n.groups l).find? fun g => maxDepth < m + g.2).map Prod.fst

/-- No parenthesis is open. -/
def outside : Nest := ⟨[], false⟩

def depth (l : List Token) : Nat := (outside.groups l).foldr (fun g d => max g.2 d) 0

variable {n : Nest} {m : Nat} {O : List Bool} {x : Token} {l : List Token}

theorem beyond_cons (h : x.kind = .leftParen → n.called = true) :
    n.beyond m (x :: l) = (n.step x.kind).beyond m l := by
  have hx : ¬ (x.kind = .leftParen ∧ n.called = false) := by
    rintro ⟨hx, hn⟩
    rw [h hx] at hn
    cases hn
  rw [beyond, groups, if_neg hx, beyond]

theorem beyond_group (hx : x.kind = .leftParen) : beyond ⟨O, false⟩ m (x :: l) =
    if maxDepth < m + (O.count true + 1) then some x else beyond ⟨true :: O, false⟩ m l := by
  rw [beyond, groups, if_pos ⟨hx, rfl⟩, List.find?_cons]
  by_cases hm : maxDepth < m + (O.count true + 1)
  · simp only [hm, decide_true, if_true, Option.map_some]
  · simp only [hm, decide_false, if_false, hx]
    rfl

theorem depth_of_none (h : outside.beyond m l = none) : depth l = 0 ∨ m + depth l ≤ maxDepth := by
  rw [beyond, Option.map_eq_none_iff, List.find?_eq_none] at h
  rw [depth]
  generalize outside.groups l = gs at h
  induction gs with
  | nil => exact .inl rfl
  | cons g gs ih =>
    have hg := h g List.mem_cons_self
    have hgs := ih fun g' hg' => h g' (List.mem_cons_of_mem g hg')
    rw [decide_eq_true_eq] at hg
    rw [List.foldr_cons]
    omega

theorem lt_depth_of_some (h : outside.beyond m l = some x) : maxDepth < m + depth l := by
  obtain ⟨g, hg, -⟩ := Option.map_eq_some_iff.1 h
  have hlt : maxDepth < m + g.2 := of_decide_eq_true (List.find?_some hg :)
  have hle : ∀ gs : List (Token × Nat), g ∈ gs → g.2 ≤ gs.foldr (fun g d => max g.2 d) 0 := by
    intro gs hmem
    induction gs with
    | nil => cases hmem
    | cons g' gs ih =>
      rw [List.foldr_cons]
      rcases List.mem_cons.1 hmem with rfl | hmem
      · exact Nat.le_max_left _ _
      · exact Nat.le_trans (ih hmem) (Nat.le_max_right _ _)
  have := hle _ (List.mem_of_find?_eq_some hg)
  rw [depth]
  omega

end Nest

/-! ## Two runs -/

/-- What stands behind an expression in two runs, and how many parentheses are open around it in
the second one. -/
structure Seam where
  rest : List Token
  after : List Token
  outer : Nat
  same : headKind after = .rightParen ∨ headKind after = headKind rest

namespace Seam

variable {C : Seam} {α β : Type} {d k : Nat} {n n₁ n' : Nest} {O : List Bool} {e : Option Token}
  {x : Token} {w : Token.Kind} {s t : State}

variable (C) in
/-- The second run has what is left of the expression ahead as the first one has. It is to fail at
the parenthesis `e`, if any. -/
structure Beside (d : Nat) (n : Nest) (e : Option Token) (s t : State) : Prop where
  ahead : ∃ ts, s.ahead = ts ++ C.rest ∧ t.ahead = ts ++ C.after ∧ n.beyond C.outer ts = e
  frame : t = { s with stream := t.stream, depth := d }

/-- The failure at the parenthesis `e`. -/
def TooDeep (e : Option Token) (f : ParseError) : Prop :=
  ∃ x, e = some x ∧ f = ⟨x, .nestedTooDeep maxDepth⟩

variable (C) in
/-- From `s` on, the parser `p` consumes `k` tokens at least. If it does not go beyond the
expression, `q` goes along with it until it fails. -/
def FollowsFrom (d : Nat) (n n' : Nest) (k : Nat) (p q : Parser α) (s : State) : Prop :=
  wp (fun _ s' => s'.depth = s.depth) p (fun a s' => s'.depth = s.depth ∧
    (∃ us, s.ahead = us ++ s'.ahead ∧ k ≤ us.length) ∧
    ∀ e t, C.rest <:+ s'.ahead → C.Beside d n e s t →
      wp (fun f _ => TooDeep e f) q (fun b t' => b = a ∧ C.Beside d n' e s' t') t) s

variable (C) in
def Follows (d : Nat) (n n' : Nest) (k : Nat) (p q : Parser α) : Prop :=
  ∀ s, C.FollowsFrom d n n' k p q s

variable (C) in
def FollowsAt (x : Token) (d : Nat) (n n' : Nest) (k : Nat) (p q : Parser α) : Prop :=
  ∀ s, s.stream.current = x → C.FollowsFrom d n n' k p q s

variable (C) in
/-- The parsers read something whole, whatever is open around it. -/
def Levels (p q : Parser α) : Prop :=
  ∀ O d, d = C.outer + O.count true → C.Follows d ⟨O, false⟩ ⟨O, false⟩ 1 p q

theorem Beside.depth (h : C.Beside d n e s t) : t.depth = d := by rw [h.frame]

theorem Beside.current_or (h : C.Beside d n e s t) :
    t.stream.current = s.stream.current ∨ s.ahead = C.rest ∧ t.ahead = C.after := by
  obtain ⟨ts, hs, ht, -⟩ := h.ahead
  cases ts with
  | nil => exact .inr ⟨hs, ht⟩
  | cons x ts => exact .inl ((State.current_of_ahead ht).trans (State.current_of_ahead hs).symm)

/-- The second run may come to a parenthesis that closes where the first one does not. -/
theorem Beside.kind_or (h : C.Beside d n e s t) :
    t.stream.kind = s.stream.kind ∨ t.stream.kind = .rightParen := by
  rcases h.current_or with hc | ⟨hs, ht⟩
  · exact .inl (congrArg Token.kind hc)
  · rw [State.kind_eq, State.kind_eq, hs, ht]
    exact C.same.symm

variable (C) in
/-- How many tokens the second run has ahead when the first one has `k`. -/
def shift (k : Nat) : Nat := k + C.after.length - C.rest.length

theorem Beside.length (h : C.Beside d n e s t) : t.ahead.length = C.shift s.ahead.length := by
  obtain ⟨ts, hs, ht, -⟩ := h.ahead
  rw [hs, ht, shift, List.length_append, List.length_append]
  omega

section Rules

variable {p q p' q' : Parser α} {f g : α → Parser β}

theorem FollowsFrom.mono {j : Nat} (h : C.FollowsFrom d n n' k p q s) (hj : j ≤ k) :
    C.FollowsFrom d n n' j p q s := by
  refine wp_mono h ?_
  rintro a s' ⟨hd, ⟨us, hus, hk⟩, hrun⟩
  exact ⟨hd, ⟨us, hus, Nat.le_trans hj hk⟩, hrun⟩

/-- Other parsers that do the same from here on. If a token is consumed, both runs see it. -/
theorem FollowsFrom.congr (h : C.FollowsFrom d n₁ n' k p' q' s) (hp : p s = p' s)
    (hq : ∀ e t, C.Beside d n e s t → (0 < k → t.stream.current = s.stream.current) →
      q t = q' t ∧ C.Beside d n₁ e s t) : C.FollowsFrom d n n' k p q s := by
  rw [FollowsFrom, wp, hp]
  refine wp_mono h ?_
  rintro a s' ⟨hd, ⟨us, hus, hk⟩, hrun⟩
  refine ⟨hd, ⟨us, hus, hk⟩, fun e t hrest hb => ?_⟩
  have hcurrent : 0 < k → t.stream.current = s.stream.current := by
    intro hpos
    rcases hb.current_or with h | ⟨hs, -⟩
    · exact h
    · have hlen := congrArg List.length (hs.symm.trans hus)
      have hle := hrest.length_le
      rw [List.length_append] at hlen
      omega
  obtain ⟨heq, hb₁⟩ := hq e t hb hcurrent
  rw [wp, heq]
  exact hrun e t hrest hb₁

theorem FollowsFrom.seq {i j : Nat} (h : C.FollowsFrom d n n₁ j p q s)
    (hf : ∀ a, C.Follows d n₁ n' k (f a) (g a)) (hi : i ≤ j + k) :
    C.FollowsFrom d n n' i (p >>= f) (q >>= g) s := by
  rw [FollowsFrom, wp_bind]
  refine wp_mono h ?_
  rintro a s₁ ⟨hd₁, ⟨us, hus, hj⟩, hrun₁⟩
  refine wp_weaken (hf a s₁) (fun _ _ hd => hd.trans hd₁) ?_
  rintro b s₂ ⟨hd₂, ⟨vs, hvs, hk⟩, hrun₂⟩
  refine ⟨hd₂.trans hd₁, ⟨us ++ vs, by rw [hus, hvs, List.append_assoc], ?_⟩,
    fun e t hrest hb => ?_⟩
  · rw [List.length_append]
    omega
  · rw [wp_bind]
    refine wp_mono (hrun₁ e t (hrest.trans ⟨vs, hvs.symm⟩) hb) ?_
    rintro _ t₁ ⟨rfl, hb₁⟩
    exact hrun₂ e t₁ hrest hb₁

theorem FollowsFrom.next (h : C.FollowsFrom d n n₁ k p q s)
    (hf : ∀ a, C.Follows d n₁ n' 0 (f a) (g a)) : C.FollowsFrom d n n' k (p >>= f) (q >>= g) s :=
  h.seq hf (Nat.le_refl k)

theorem follows_aside (h : Aside p) (n : Nest) : C.Follows d n n 0 p p := by
  intro s
  rw [FollowsFrom, wp]
  cases hp : p s with
  | error f s' =>
    have hs' := (h.of_error hp).1
    show s'.depth = s.depth
    rw [hs']
    rfl
  | ok a s' =>
    obtain ⟨hs', hrun⟩ := h.of_ok hp
    have hahead : s'.ahead = s.ahead := by
      rw [hs']
      rfl
    refine ⟨by rw [hs']; rfl, ⟨[], hahead.symm, Nat.zero_le _⟩, fun e t _ hb => ?_⟩
    have ht : s.onto t = t := by
      rw [hb.frame]
      rfl
    have hq := hrun t
    rw [ht] at hq
    rw [wp, hq]
    refine ⟨rfl, hahead ▸ hb.ahead, ?_⟩
    rw [hs', hb.frame]
    rfl

theorem follows_aside_bind (h : Aside p) (hf : ∀ a, C.Follows d n n' k (f a) (g a)) :
    C.Follows d n n' k (p >>= f) (p >>= g) :=
  fun s => (follows_aside h n s).seq hf (Nat.le_of_eq (Nat.zero_add k).symm)

theorem follows_pure (a : α) : C.Follows d n n 0 (pure a) (pure a) := follows_aside (.pure a) n

theorem follows_fail (x : Token) (f : Fault) : C.Follows d n n' k (fail x f : Parser α) q :=
  fun _ => rfl

theorem follows_fail_bind (x : Token) (f : Fault) (g : α → Parser β) (q : Parser β) :
    C.Follows d n n' k (fail x f >>= g) q :=
  fun _ => rfl

end Rules

section Tokens

variable {p q : Parser α}

/-- A parser that starts by consuming a token. The second run does so too, or fails at it. -/
theorem followsFrom_advance (p' q' : Parser α) {l : List Token} (hs : s.ahead = x :: l)
    (hp : p s = p' s.advance)
    (h : C.Follows d n₁ n' k p' q')
    (hq : ∀ t l, t.ahead = x :: l → t.depth = d →
      (q t = q' t.advance ∧
        ∀ ts, n.beyond C.outer (x :: ts) = n₁.beyond C.outer ts) ∨
      q t = .error ⟨x, .nestedTooDeep maxDepth⟩ t ∧
        ∀ ts, n.beyond C.outer (x :: ts) = some x) : C.FollowsFrom d n n' 1 p q s := by
  rw [FollowsFrom, wp, hp]
  refine wp_mono (h s.advance) ?_
  rintro a s' ⟨hd, ⟨us, hus, -⟩, hrun⟩
  rw [State.ahead_advance hs] at hus
  refine ⟨hd, ⟨x :: us, by rw [hs, hus]; rfl, Nat.succ_pos _⟩, fun e t hrest hb => ?_⟩
  obtain ⟨ts, hs', ht, he⟩ := hb.ahead
  cases ts with
  | nil =>
    have hlen := congrArg List.length (hs.symm.trans hs')
    have hle := hrest.length_le
    simp only [hus, List.length_cons, List.length_append, List.nil_append] at hlen
    omega
  | cons y ts =>
    obtain ⟨rfl, rfl⟩ := List.cons.inj (hs.symm.trans hs')
    rw [wp]
    rcases hq t _ ht hb.depth with ⟨heq, hn⟩ | ⟨heq, hn⟩
    · rw [heq]
      refine hrun e _ hrest ⟨⟨ts, State.ahead_advance hs, State.ahead_advance ht, ?_⟩, ?_⟩
      · rw [← hn, he]
      · rw [hb.frame]
    · rw [heq]
      exact ⟨x, he.symm.trans (hn ts), rfl⟩

theorem followsAt_advance_bind {f g : Token → Parser α} (hx : x.kind ∉ [.eof, .leftParen])
    (hn : n.step x.kind = n₁) (h : C.Follows d n₁ n' 0 (f x) (g x)) :
    C.FollowsAt x d n n' 1 (advance >>= f) (advance >>= g) := by
  intro s hs
  simp only [List.mem_cons, List.not_mem_nil, or_false, not_or] at hx
  obtain ⟨y, l, hl⟩ := State.exists_ahead (s := s) (by rw [TokenStream.kind, hs]; exact hx.1)
  obtain rfl := (State.current_of_ahead hl).symm.trans hs
  refine followsFrom_advance (f y) (g y) hl ?_ h fun t l ht _ => .inl ⟨?_, fun ts => ?_⟩
  · show f s.stream.current _ = _
    rw [hs]
  · show g t.stream.current _ = _
    rw [State.current_of_ahead ht]
  · rw [Nest.beyond_cons (fun h => absurd h hx.2), hn]

/-- The kinds of tokens that matter to where others stand. -/
def marks : List Token.Kind := [.eof, .leftParen, .rightParen, .ident]

theorem followsAt_plain_bind {f g : Token → Parser α} (hx : x.kind ∉ marks)
    (h : C.Follows d ⟨O, false⟩ n' 0 (f x) (g x)) :
    C.FollowsAt x d ⟨O, false⟩ n' 1 (advance >>= f) (advance >>= g) := by
  simp only [marks, List.mem_cons, List.not_mem_nil, or_false, not_or] at hx
  obtain ⟨he, hl, hr, hi⟩ := hx
  exact followsAt_advance_bind (by simp [he, hl]) (by simp [Nest.step, hl, hr, hi]) h

theorem follows_expect (hw : w ≠ .eof) (hn : w = .leftParen → n.called = true) :
    C.Follows d n (n.step w) 1 (expect w) (expect w) := by
  intro s
  by_cases hs : s.stream.kind = w
  · obtain ⟨x, l, hl⟩ := State.exists_ahead (hs ▸ hw)
    obtain rfl : x.kind = w := (State.kind_of_ahead hl).symm.trans hs
    refine followsFrom_advance (pure x) (pure x) hl (expect_of_ahead hl rfl)
      (follows_pure x) fun t l ht _ => .inl ⟨expect_of_ahead ht rfl, fun ts => ?_⟩
    rw [Nest.beyond_cons hn]
  · rw [FollowsFrom, wp, expect, TokenStream.expect, if_neg hs]

theorem follows_peek_bind {f g : Token → Parser α}
    (h : ∀ x, C.FollowsAt x d n n' 1 (f x) (g x)) :
    C.Follows d n n' 1 (peek >>= f) (peek >>= g) := by
  intro s
  refine (h _ s rfl).congr rfl fun e t hb ht => ⟨?_, hb⟩
  show g t.stream.current t = _
  rw [ht Nat.one_pos]

theorem follows_is_bind {f g : Bool → Parser α} (hw : w ≠ .rightParen) (hk : k ≤ 1)
    (ht : ∀ x, x.kind = w → C.FollowsAt x d n n' 1 (f true) (g true))
    (hf : C.Follows d n₁ n' k (f false) (g false))
    (hn : ∀ x ts, x.kind ≠ w → n.beyond C.outer (x :: ts) = n₁.beyond C.outer (x :: ts)) :
    C.Follows d n n' k (is w >>= f) (is w >>= g) := by
  intro s
  by_cases hs : s.stream.kind = w
  · refine FollowsFrom.mono ?_ hk
    refine (ht _ hs s rfl).congr (bind_of_ok (is_of_eq hs)) fun e t hb hc => ⟨?_, hb⟩
    exact bind_of_ok (is_of_eq ((congrArg Token.kind (hc Nat.one_pos)).trans hs))
  · refine (hf s).congr (bind_of_ok (is_of_ne hs)) fun e t hb _ => ⟨bind_of_ok (is_of_ne ?_), ?_⟩
    · rcases hb.kind_or with h | h <;> rw [h]
      · exact hs
      · exact hw.symm
    · obtain ⟨ts, hts, hts', he⟩ := hb.ahead
      refine ⟨⟨ts, hts, hts', ?_⟩, hb.frame⟩
      cases ts with
      | nil => exact he
      | cons x ts => rw [← hn x ts (State.kind_of_ahead hts ▸ hs), he]

theorem follows_accept_bind {f g : Bool → Parser α} (hw : w ∉ marks) (hk : k ≤ 1)
    (ht : C.Follows d ⟨O, false⟩ n' 0 (f true) (g true))
    (hf : C.Follows d ⟨O, false⟩ n' k (f false) (g false)) :
    C.Follows d ⟨O, false⟩ n' k (accept w >>= f) (accept w >>= g) := by
  have heq : ∀ f : Bool → Parser α, accept w >>= f = is w >>= fun b =>
      if b then advance >>= fun _ => f true else f false := by
    intro f
    funext s
    rw [accept_bind_eq]
    split
    · next hs =>
      rw [bind_of_ok (is_of_eq hs)]
      rfl
    · next hs =>
      rw [bind_of_ok (is_of_ne hs)]
      rfl
  rw [heq, heq]
  refine follows_is_bind (fun h => hw (h ▸ by decide)) hk (fun x hx => ?_) hf fun _ _ _ => rfl
  exact followsAt_plain_bind (hx ▸ hw) ht

theorem follows_look_bind {φ : Token.Kind → Option Node.Kind} {f g : Option Node.Kind → Parser α}
    (hφ : marks.map φ = marks.map fun _ => none)
    (hsome : ∀ x k, x.kind ∉ marks → C.FollowsAt x d n n' 1 (f (some k)) (g (some k)))
    (hnone : C.Follows d n n' 0 (f none) (g none)) :
    C.Follows d n n' 0 (look φ >>= f) (look φ >>= g) := by
  intro s
  have hmarks := List.map_inj_left.1 hφ
  cases hk : φ s.stream.kind with
  | none =>
    refine (hnone s).congr (congrArg (f · s) hk) fun e t hb _ => ⟨congrArg (g · t) ?_, hb⟩
    rcases hb.kind_or with h | h <;> rw [h]
    · exact hk
    · exact hmarks _ (by decide)
  | some k =>
    have hx : s.stream.current.kind ∉ marks := by
      intro hmem
      rw [TokenStream.kind, hmarks _ hmem] at hk
      cases hk
    refine FollowsFrom.mono ?_ (Nat.zero_le 1)
    refine (hsome _ k hx s rfl).congr (congrArg (f · s) hk) fun e t hb hc => ⟨?_, hb⟩
    refine congrArg (g · t) ?_
    rwa [TokenStream.kind, hc Nat.one_pos]

theorem followsAt_warn_bind {y : Token} {m : Notice} (h : C.FollowsAt x d n n' k p q) :
    C.FollowsAt x d n n' k (warn y m >>= fun _ => p) (warn y m >>= fun _ => q) := by
  intro s hs
  let warned (s : State) : State := { s with
    diagnostics := s.diagnostics.push (.warning y m)
    log := s.log.push (.warned (Diagnostic.warning y m).remark) }
  refine wp_mono (h (warned s) hs) ?_
  rintro a s' ⟨hd, hus, hrun⟩
  refine ⟨hd, hus, fun e t hrest hb => hrun e (warned t) hrest ⟨hb.ahead, ?_⟩⟩
  exact congrArg warned hb.frame

end Tokens

section Recursion

variable {p q : Parser α}

theorem follows_grouped (h : C.Follows (d + 1) n n' k p q) :
    C.Follows d n n' k (grouped p) (grouped q) := by
  intro s
  have hs := h { s with depth := s.depth + 1 }
  rw [FollowsFrom, wp] at hs ⊢
  rw [grouped]
  cases hp : p { s with depth := s.depth + 1 } with
  | error f s' =>
    rw [hp] at hs
    show s'.depth - 1 = s.depth
    rw [hs]
    rfl
  | ok a s' =>
    rw [hp] at hs
    obtain ⟨hd, hus, hrun⟩ := hs
    refine ⟨by show s'.depth - 1 = s.depth; rw [hd]; rfl, hus, fun e t hrest hb => ?_⟩
    have ht := hrun e { t with depth := t.depth + 1 } hrest
      ⟨hb.ahead, by rw [hb.frame]⟩
    rw [wp] at ht ⊢
    rw [grouped]
    cases hq : q { t with depth := t.depth + 1 } with
    | error f t' =>
      rw [hq] at ht
      exact ht
    | ok b t' =>
      rw [hq] at ht
      refine ⟨ht.1, ht.2.ahead, ?_⟩
      rw [ht.2.frame]
      rfl

theorem follows_guarded {N : Nat}
    (h : ∀ s, s.ahead.length < N → C.FollowsFrom d n n' k p q s) :
    C.Follows d n n' k (guarded N p) (guarded (C.shift N) q) := by
  intro s
  by_cases hs : s.ahead.length < N
  · refine (h s hs).congr (guarded_of_lt hs) fun e t hb _ => ⟨guarded_of_lt ?_, hb⟩
    obtain ⟨ts, hts, hts', -⟩ := hb.ahead
    rw [hts, List.length_append] at hs
    rw [hts', shift, List.length_append]
    omega
  · rw [FollowsFrom, wp, guarded, State.remaining_eq, if_neg hs]
    rfl

theorem levels_fix {body body' : Parser α → Parser α}
    (h : ∀ p q, C.Levels p q → C.Levels (body p) (body' q)) : C.Levels (fix body) (fix body') := by
  intro O d hd s
  induction hN : s.ahead.length using Nat.strongRecOn generalizing O d s with
  | _ N ih =>
    subst hN
    have hinner : C.Levels (guarded s.ahead.length (fix body))
        (guarded (C.shift s.ahead.length) (fix body')) :=
      fun O d hd => follows_guarded fun u hu => ih _ hu O d hd u rfl
    refine (h _ _ hinner O d hd s).congr (fix_eq body s) fun e t hb _ => ⟨?_, hb⟩
    rw [fix_eq, hb.length]

theorem follows_loop (step step' : β → Parser (β ⊕ α))
    (h : ∀ b, C.Follows d n n k (step b) (step' b)) (b : β) :
    C.Follows d n n k (loop step b) (loop step' b) := by
  intro s
  induction hN : s.ahead.length using Nat.strongRecOn generalizing b s with
  | _ N ih =>
    subst hN
    have hturn : C.FollowsFrom d n n k
        (step b >>= Sum.elim (fun b => guarded s.ahead.length (loop step b)) pure)
        (step' b >>= Sum.elim (fun b => guarded (C.shift s.ahead.length) (loop step' b)) pure)
        s := by
      refine (h b s).next fun r => ?_
      cases r with
      | inl b => exact follows_guarded fun u hu => (ih _ hu b u rfl).mono (Nat.zero_le k)
      | inr a => exact follows_pure a
    refine hturn.congr (loop_eq step b s) fun e t hb _ => ⟨?_, hb⟩
    rw [loop_eq, hb.length]

theorem levels_leftChain {p q : Parser Node} {operator? : Token.Kind → Option Node.Kind}
    {combine : Node.Kind → Node → Node → Token → Token → Token → Parser Node}
    (hφ : marks.map operator? = marks.map fun _ => none) (h : C.Levels p q)
    (hc : ∀ k a b t u o, Aside (combine k a b t u o)) :
    C.Levels (leftChain p operator? combine) (leftChain q operator? combine) := by
  intro O d hd
  refine follows_peek_bind fun first s _ => (h O d hd s).next fun left => ?_
  refine follows_loop (fun left => look operator? >>= chainLink p combine first left)
    (fun left => look operator? >>= chainLink q combine first left) (fun left => ?_) left
  refine follows_look_bind hφ (fun x k hx => followsAt_plain_bind hx fun s => ?_) (follows_pure _)
  refine (follows_peek_bind (fun next s _ => ?_) s).mono (Nat.zero_le 1)
  refine (h O d hd s).next fun right => ?_
  refine follows_aside_bind (hc k left right first next x) fun m => ?_
  exact follows_pure _

end Recursion

section Expressions

variable {p q : Parser Node}

theorem follows_variableNamed (name : Token) :
    C.Follows d n n 0 (variableNamed name) (variableNamed name) := by
  refine follows_is_bind (by simp) (Nat.zero_le 1) (fun x _ s _ => ?_) ?_ fun _ _ _ => rfl
  · exact follows_fail_bind name .elementAccess _ _ s
  · refine follows_aside_bind (aside_resolve name.text) fun found => ?_
    cases found with
    | none => exact follows_fail name _
    | some id =>
      refine follows_aside_bind (aside_symbol? id) fun sym => ?_
      split
      · exact follows_fail name _
      · exact follows_fail name _
      · exact follows_fail name _
      · exact follows_pure _

theorem follows_negated (negation : Option Token) (first : Token) (m : Node) :
    C.Follows d n n 0 (negated negation first m) (negated negation first m) := by
  cases negation with
  | none => exact follows_pure m
  | some x =>
    exact follows_aside ((aside_checkBoolean m first).bind fun _ => aside_typed _ _ x) n

section

variable (h : C.Levels p q)
include h

section Operands

variable (hd : d = C.outer + O.count true)
include hd

theorem follows_arguments :
    C.Follows d ⟨O, false⟩ ⟨O, false⟩ 0 (arguments p) (arguments q) := by
  intro s
  by_cases hs : s.stream.kind = .rightParen
  · refine (follows_pure [] s).congr (bind_of_ok (is_of_eq hs)) fun e t hb _ => ⟨?_, hb⟩
    rcases hb.kind_or with h | h
    · exact bind_of_ok (is_of_eq (h.trans hs))
    · exact bind_of_ok (is_of_eq h)
  · have hitem : C.Follows d ⟨O, false⟩ ⟨O, false⟩ 1 (argument p) (argument q) :=
      follows_peek_bind fun x s _ => (h O d hd s).next fun m => follows_pure (x, m)
    have hitems : C.Follows d ⟨O, false⟩ ⟨O, false⟩ 1 (commaList (argument p))
        (commaList (argument q)) := by
      refine follows_loop _ _ (fun before s => (hitem s).next fun a => ?_) []
      exact follows_accept_bind (by decide) (Nat.zero_le 1) (follows_pure _) (follows_pure _)
    refine FollowsFrom.mono ?_ (Nat.zero_le 1)
    refine (hitems s).congr (bind_of_ok (is_of_ne hs)) fun e t hb hc => ⟨?_, hb⟩
    exact bind_of_ok (is_of_ne (by rwa [TokenStream.kind, hc Nat.one_pos]))

theorem follows_callNamed (name : Token) (kind : Node.Kind) :
    C.Follows d ⟨O, true⟩ ⟨O, false⟩ 1 (callNamed p name kind) (callNamed q name kind) := by
  refine follows_aside_bind (aside_resolve name.text) fun found => ?_
  cases found with
  | none => exact follows_fail name _
  | some id =>
    refine follows_aside_bind (aside_symbol? id) fun sym => ?_
    split
    · intro s
      refine (follows_expect (n := ⟨O, true⟩) (by simp) (fun _ => rfl) s).next fun _ s => ?_
      have hargs := follows_arguments (d := d) (O := false :: O) h (by
        rw [hd, List.count_cons]
        rfl)
      refine (hargs s).next fun args s => ?_
      refine ((follows_expect (by simp) (by simp) s).mono (Nat.zero_le 1)).next fun _ => ?_
      refine follows_aside_bind (aside_symbol? id) fun _ => ?_
      dsimp only
      split
      · exact follows_aside_bind (aside_checkArguments args _) fun _ => follows_pure _
      · exact follows_fail_bind name _ _ _
    · exact follows_fail_bind name _ _ _

theorem follows_named (name : Token) :
    C.Follows d ⟨O, true⟩ ⟨O, false⟩ 0 (named p name) (named q name) := by
  refine follows_is_bind (by simp) (Nat.zero_le 1) (fun x _ s _ => ?_) (follows_variableNamed name)
    fun x ts hx => ?_
  · refine (follows_callNamed h hd name .call s).next fun m => ?_
    refine follows_aside_bind (aside_typeOf m) fun _ => ?_
    split
    · exact follows_fail_bind name _ _ _
    · exact follows_pure m
  · rw [Nest.beyond_cons fun h => absurd h hx, Nest.beyond_cons fun h => absurd h hx]
    simp only [Nest.step, if_neg hx]

theorem followsAt_operand (x : Token) :
    C.FollowsAt x d ⟨O, false⟩ ⟨O, false⟩ 1 (operand p x) (operand q x) := by
  unfold operand
  split
  · next hk =>
    exact followsAt_plain_bind (hk ▸ by decide) (follows_aside (aside_typed _ _ x) _)
  · next hk =>
    exact followsAt_plain_bind (hk ▸ by decide) (follows_aside (aside_typed _ _ x) _)
  · next hk =>
    intro s hs
    have hinner : C.Follows d ⟨true :: O, false⟩ ⟨O, false⟩ 1
        (grouped p >>= fun m => expect .rightParen >>= fun _ => pure m)
        (grouped q >>= fun m => expect .rightParen >>= fun _ => pure m) := by
      have hgroup := follows_grouped (h (true :: O) (d + 1) (by simp [hd]; omega))
      refine fun s => (hgroup s).next fun m s => ?_
      refine ((follows_expect (by simp) (by simp) s).mono (Nat.zero_le 1)).next fun _ => ?_
      exact follows_pure m
    obtain ⟨y, l, hl⟩ := State.exists_ahead (s := s) (by simp [TokenStream.kind, hs, hk])
    obtain rfl := (State.current_of_ahead hl).symm.trans hs
    by_cases hdepth : s.depth ≥ maxDepth
    · show wp _ (if s.depth ≥ maxDepth then _ else _) _ s
      rw [if_pos hdepth]
      rfl
    · refine followsFrom_advance _ _ hl ?_ hinner fun t l ht htd => ?_
      · show (if s.depth ≥ maxDepth then _ else _ : Parser Node) s = _
        rw [if_neg hdepth]
        rfl
      · have hbeyond := fun ts => Nest.beyond_group (O := O) (m := C.outer) (l := ts) hk
        show (if t.depth ≥ maxDepth then _ else _ : Parser Node) t = _ ∧ _ ∨
          (if t.depth ≥ maxDepth then _ else _ : Parser Node) t = _ ∧ _
        by_cases hfull : t.depth ≥ maxDepth
        · rw [if_pos hfull]
          refine .inr ⟨rfl, fun ts => ?_⟩
          rw [hbeyond, if_pos (by omega)]
        · rw [if_neg hfull]
          refine .inl ⟨rfl, fun ts => ?_⟩
          rw [hbeyond, if_neg (by omega)]
  · next hk =>
    exact followsAt_advance_bind (hk ▸ by decide) (by rw [hk]; rfl) (follows_named h hd x)
  · exact fun _ _ => rfl

theorem follows_signedOperand (negative : Bool) :
    C.Follows d ⟨O, false⟩ ⟨O, false⟩ 1 (peek >>= signedOperand p negative)
      (peek >>= signedOperand q negative) := by
  refine follows_peek_bind fun x => ?_
  unfold signedOperand
  dsimp only
  split
  · next hk =>
    exact followsAt_plain_bind (hk ▸ by decide) (follows_aside (aside_integerLiteral x _) _)
  · next hk => exact followsAt_plain_bind (hk ▸ by decide) (follows_aside (aside_realLiteral x _) _)
  · cases negative with
    | true => exact followsAt_warn_bind (followsAt_operand h hd x)
    | false => exact followsAt_operand h hd x

end Operands

theorem levels_primary : C.Levels (primary p) (primary q) := by
  intro O d hd
  have hsigned := follows_signedOperand h hd
  exact follows_accept_bind (by decide) (Nat.le_refl 1)
    (fun s => (hsigned true s).mono (Nat.zero_le 1)) (hsigned false)

theorem levels_power : C.Levels (power p) (power q) := by
  refine levels_fix fun p' q' ih O d hd => ?_
  refine follows_peek_bind fun first s _ => (levels_primary h O d hd s).next fun base => ?_
  refine follows_is_bind (by simp) (Nat.zero_le 1) (fun x hx => ?_) (follows_pure base)
    fun _ _ _ => rfl
  refine followsAt_plain_bind (hx ▸ by decide) fun s => ?_
  refine (follows_peek_bind (fun next s _ => ?_) s).mono (Nat.zero_le 1)
  exact (ih O d hd s).next fun r => follows_aside (aside_arithmetic _ base r first next x) _

theorem levels_product : C.Levels (product p) (product q) :=
  levels_leftChain rfl (levels_power h) aside_arithmetic

theorem levels_sum : C.Levels (sum p) (sum q) :=
  levels_leftChain rfl (levels_product h) aside_arithmetic

theorem levels_relationBehind (negation : Option Token) :
    C.Levels (relationBehind p negation) (relationBehind q negation) := by
  intro O d hd
  have hsum := levels_sum h O d hd
  refine follows_peek_bind fun first s _ => (hsum s).next fun left => ?_
  refine follows_look_bind rfl (fun x k hx => ?_) (follows_negated negation first left)
  refine followsAt_plain_bind hx fun s => ((hsum s).mono (Nat.zero_le 1)).next fun right => ?_
  exact follows_aside_bind (aside_compare k left right x) fun m => follows_negated negation first m

theorem levels_relation : C.Levels (relation p) (relation q) := by
  intro O d hd
  rw [relation_eq, relation_eq]
  refine follows_is_bind (by simp) (Nat.le_refl 1) (fun x hx => ?_)
    (levels_relationBehind h none O d hd) fun _ _ _ => rfl
  refine followsAt_plain_bind (hx ▸ by decide) fun s => ?_
  exact (levels_relationBehind h (some x) O d hd s).mono (Nat.zero_le 1)

end

theorem levels_expression : C.Levels expression expression :=
  levels_fix fun _ _ h => levels_leftChain rfl (levels_relation h) aside_logical

end Expressions

end Seam

/-! ## Parentheses around an expression -/

section Around

variable {e : Parser Node} {s s' t : State} {x : Token} {l : List Token} {n : Node}
  {r : EStateM.Result ParseError State Node}

/-- All levels come to the same end as an operand that no operator follows. -/
theorem reader_of_exponent (hs : s.stream.kind ≠ .keyword .not) (h : reader e .exponent s = r)
    (hstop : ∀ m s', r = .ok m s' → s'.stream.kind ∉ Level.bool.operators) :
    reader e .bool s = r := by
  have hchain {L : Level} {c : Chain} (hc : chain? L = some c)
      (h : reader e (operandLevel L) s = r) : reader e L s = r := by
    rw [reader_eq_leftChain hc]
    cases r with
    | error f s' => exact (bind_of_ok rfl).trans (bind_of_error h)
    | ok m s' =>
      have hend : goOn e L s.stream.current m s' = .ok m s' := by
        refine goOn_of_stops fun hk => hstop m s' rfl (Level.operators_mono ?_ hk)
        cases L <;> decide
      simp only [goOn, hc] at hend
      exact (bind_of_ok h).trans hend
  have hfact : reader e .fact s = r := by
    rw [power_eq]
    cases r with
    | error f s' => exact bind_of_error h
    | ok m s' =>
      rw [bind_of_ok h, bind_of_ok (is_of_ne fun hk => hstop m s' rfl (hk ▸ by decide))]
      rfl
  have hsum := hchain (L := .expr) rfl (hchain (L := .term) rfl hfact)
  refine hchain rfl ((relation_of_ne hs).trans ?_)
  rw [comparison_eq]
  cases r with
  | error f s' => exact bind_of_error hsum
  | ok m s' =>
    have hnone : relationOperator? s'.stream.kind = none := by
      rw [Option.eq_none_iff_forall_ne_some]
      intro k hk
      exact hstop m s' rfl (Level.operators_mono (by decide) (mem_operators_of_relation hk))
    rw [bind_of_ok hsum]
    show relate e m (relationOperator? s'.stream.kind) s' = _
    rw [hnone]
    rfl

theorem expression_of_operand (ht : t.ahead = x :: l) (hx : x.kind = .leftParen)
    (h : operand (guarded t.ahead.length expression) x t = r)
    (hstop : ∀ m s', r = .ok m s' → s'.stream.kind ∉ Level.bool.operators) : expression t = r := by
  rw [expression_eq]
  refine reader_of_exponent ?_ ?_ hstop
  · rw [State.kind_of_ahead ht, hx]
    simp
  · rwa [primary_of_operand ht (hx ▸ by decide)]

theorem expression_of_deep (ht : t.ahead = x :: l) (hx : x.kind = .leftParen)
    (hd : maxDepth ≤ t.depth) : expression t = .error ⟨x, .nestedTooDeep maxDepth⟩ t := by
  refine expression_of_operand ht hx ?_ (by simp)
  rw [operand, hx]
  show (if t.depth ≥ maxDepth then _ else _ : Parser Node) t = _
  rw [if_pos hd]
  rfl

theorem grouped_congr {p q : Parser Node} (h : p { s with depth := s.depth + 1 } =
    q { s with depth := s.depth + 1 }) : grouped p s = grouped q s := by
  simp only [grouped, h]

theorem expression_of_group (ht : t.ahead = x :: l) (hx : x.kind = .leftParen)
    (hd : t.depth < maxDepth) (h : (grouped expression >>= fun m => expect .rightParen >>= fun _ =>
      pure m) t.advance = r)
    (hstop : ∀ m s', r = .ok m s' → s'.stream.kind ∉ Level.bool.operators) : expression t = r := by
  refine expression_of_operand ht hx ?_ hstop
  have hgroup : grouped (guarded t.ahead.length expression) t.advance =
      grouped expression t.advance := by
    refine grouped_congr (guarded_of_lt ?_)
    refine Nat.lt_of_le_of_lt (Nat.le_of_eq (congrArg _ (State.ahead_advance ht))) ?_
    rw [ht]
    exact Nat.lt_succ_self _
  rw [operand, hx, ← h]
  show (if t.depth ≥ maxDepth then _ else _ : Parser Node) t = _
  rw [if_neg (Nat.not_le.2 hd)]
  simp only [Bind.bind, EStateM.bind, ← hgroup]
  rfl

end Around

/-- An expression that is read whole is read in the same way before another end, unless one of its
groups is beyond the last level. -/
theorem expression_before {s s' t : State} {n : Node} {E rest after : List Token}
    (hrun : expression s = .ok n s') (hs : s.ahead = E ++ rest) (hs' : s'.ahead = rest)
    (hafter : headKind after = .rightParen ∨ headKind after = headKind rest)
    (ht : t.ahead = E ++ after) (hframe : t = { s with stream := t.stream, depth := t.depth }) :
    wp (fun f _ => ∃ x, f = ⟨x, .nestedTooDeep maxDepth⟩ ∧
        ∀ m O, t.depth = m + O.count true → Nest.beyond ⟨O, false⟩ m E = some x)
      expression (fun a t' => a = n ∧ t'.ahead = after ∧
        t' = { s' with stream := t'.stream, depth := t.depth } ∧
        Nest.outside.beyond t.depth E = none) t := by
  -- open parentheses count the same whether they are in `m` or in `O`
  have hfollows (m : Nat) (O : List Bool) (hm : t.depth = m + O.count true) :
      wp (fun f _ => Seam.TooDeep (Nest.beyond ⟨O, false⟩ m E) f) expression (fun a t' => a = n ∧
        Seam.Beside ⟨rest, after, m, hafter⟩ t.depth ⟨O, false⟩ (Nest.beyond ⟨O, false⟩ m E) s' t')
        t := by
    have h := Seam.levels_expression (C := ⟨rest, after, m, hafter⟩) O t.depth hm s
    rw [Seam.FollowsFrom, wp, hrun] at h
    exact h.2.2 _ t ⟨[], hs'.symm⟩ ⟨⟨E, hs, ht, rfl⟩, hframe⟩
  rw [wp]
  cases hq : expression t with
  | error f t' =>
    have hx (m : Nat) (O : List Bool) (hm : t.depth = m + O.count true) :
        Seam.TooDeep (Nest.beyond ⟨O, false⟩ m E) f := by
      have h := hfollows m O hm
      rwa [wp, hq] at h
    obtain ⟨x, -, rfl⟩ := hx t.depth [] rfl
    refine ⟨x, rfl, fun m O hm => ?_⟩
    obtain ⟨y, hy, hxy⟩ := hx m O hm
    cases hxy
    exact hy
  | ok a t' =>
    have h := hfollows t.depth [] rfl
    rw [wp, hq] at h
    obtain ⟨rfl, hb⟩ := h
    obtain ⟨ts, hts, hts', he⟩ := hb.ahead
    obtain rfl : ts = [] := List.append_left_eq_self.1 (hts.symm.trans hs')
    exact ⟨rfl, hts', hb.frame, he.symm⟩

/-- Parentheses are read one by one, from the outside. -/
theorem expression_around {s s' t : State} {n : Node} {E rest : List Token}
    (hrun : expression s = .ok n s') (hs : s.ahead = E ++ rest) (hs' : s'.ahead = rest)
    (hrest : headKind rest ∉ Level.bool.operators) {opens closes tail : List Token}
    (hopens : ∀ x ∈ opens, x.kind = .leftParen) (hcloses : ∀ x ∈ closes, x.kind = .rightParen)
    (hlen : opens.length = closes.length)
    (htail : headKind tail = .rightParen ∨ headKind tail = headKind rest)
    (ht : t.ahead = opens ++ E ++ closes ++ tail)
    (hframe : t = { s with stream := t.stream, depth := t.depth }) :
    wp (fun f _ => ∃ x, f = ⟨x, .nestedTooDeep maxDepth⟩ ∧
        maxDepth < t.depth + opens.length + Nest.depth E ∧
        ∀ m O, t.depth = m + O.count true → Nest.beyond ⟨O, false⟩ m (opens ++ E) = some x)
      expression (fun a t' => a = n ∧ t'.ahead = tail ∧
        t' = { s' with stream := t'.stream, depth := t.depth } ∧
        (opens = [] ∧ Nest.depth E = 0 ∨ t.depth + opens.length + Nest.depth E ≤ maxDepth)) t := by
  induction opens generalizing closes tail t with
  | nil =>
    obtain rfl := List.length_eq_zero_iff.1 hlen.symm
    rw [List.append_nil, List.nil_append] at ht
    refine wp_weaken (expression_before hrun hs hs' htail ht hframe) ?_ ?_
    · rintro f _ ⟨x, rfl, hx⟩
      exact ⟨x, rfl, Nest.lt_depth_of_some (hx _ [] rfl), hx⟩
    · rintro a t' ⟨ha, hahead, hframe', hnone⟩
      refine ⟨ha, hahead, hframe', ?_⟩
      rcases Nest.depth_of_none hnone with h | h
      · exact .inl ⟨rfl, h⟩
      · exact .inr h
  | cons x opens ih =>
    have hx := hopens x List.mem_cons_self
    -- the first parenthesis to open is the last to close
    rcases List.eq_nil_or_concat closes with rfl | ⟨ys, y, rfl⟩
    · cases hlen
    · have hy := hcloses y (by simp)
      have ht' : t.ahead = x :: (opens ++ E ++ ys ++ y :: tail) := by simp [ht]
      rw [List.length_cons]
      by_cases hd : maxDepth ≤ t.depth
      · rw [wp, expression_of_deep ht' hx hd]
        refine ⟨x, rfl, by omega, fun m O hm => ?_⟩
        rw [List.cons_append, Nest.beyond_group hx, if_pos (by omega)]
      · have hinner := ih (t := { t with stream := t.stream.advance, depth := t.depth + 1 })
          (fun z hz => hopens z (List.mem_cons_of_mem x hz)) (fun z hz => hcloses z (by simp [hz]))
          (by simpa using hlen) (show headKind (y :: tail) = _ ∨ _ from .inl hy)
          (State.ahead_advance ht') (by rw [hframe])
        have hgroup {r : EStateM.Result ParseError State Node} :=
          expression_of_group (r := r) ht' hx (Nat.lt_of_not_le hd)
        rw [wp] at hinner ⊢
        cases hu : expression { t with stream := t.stream.advance, depth := t.depth + 1 } with
        | error f u =>
          rw [hu] at hinner
          obtain ⟨z, rfl, hlt, hz⟩ := hinner
          have hfails : grouped expression t.advance =
              .error ⟨z, .nestedTooDeep maxDepth⟩ { u with depth := u.depth - 1 } := by
            simp only [grouped, hu]
          rw [hgroup (bind_of_error hfails) (by simp)]
          refine ⟨z, rfl, by dsimp only at hlt; omega, fun m O hm => ?_⟩
          rw [List.cons_append, Nest.beyond_group hx, if_neg (by omega)]
          exact hz m (true :: O) (by simp [hm]; omega)
        | ok a u =>
          rw [hu] at hinner
          obtain ⟨rfl, hahead, hframe', hfit⟩ := hinner
          have hclose := expect_of_ahead (s := { u with depth := u.depth - 1 }) hahead hy
          rw [hgroup ((bind_of_ok (grouped_of_ok hu)).trans (bind_of_ok hclose))]
          · refine ⟨rfl, State.ahead_advance hahead, ?_, ?_⟩
            · rw [hframe']
              rfl
            · refine .inr ?_
              rcases hfit with ⟨rfl, hE⟩ | hfit
              · simp only [hE, List.length_nil]
                omega
              · dsimp only at hfit
                omega
          · -- no operator stands behind the group
            rintro _ _ ⟨⟩
            rw [State.kind_eq, State.ahead_advance (s := { u with depth := u.depth - 1 }) hahead]
            rcases htail with h | h <;> rw [h]
            · decide
            · exact hrest

theorem depth_expression (s : State) :
    wp (fun _ s' => s'.depth = s.depth) expression (fun _ s' => s'.depth = s.depth) s :=
  wp_mono (Seam.levels_expression (C := ⟨[], [], 0, .inr rfl⟩) [] 0 rfl s) fun _ _ h => h.1

/-- Parentheses around an expression make no difference, as long as a level is left for each group:
the tree is the same, and so are the symbols and what was reported. Otherwise the first parenthesis
beyond the last level is refused. Whatever an expression ends with, no parenthesis stays open. -/
theorem expression_grouped {s s' t : State} {n : Node} {E rest opens closes : List Token}
    (hrun : expression s = .ok n s') (hs : s.ahead = E ++ rest) (hs' : s'.ahead = rest)
    (hrest : headKind rest ∉ Level.bool.operators) (hopens : ∀ x ∈ opens, x.kind = .leftParen)
    (hcloses : ∀ x ∈ closes, x.kind = .rightParen) (hlen : opens.length = closes.length)
    (ht : t.ahead = opens ++ E ++ closes ++ rest) (hframe : t = { s with stream := t.stream }) :
    (s.depth + Nest.depth E + opens.length ≤ maxDepth ∨ opens.length = 0 → ∃ t',
      expression t = .ok n t' ∧ t' = { s' with stream := t'.stream } ∧ t'.ahead = rest) ∧
    (¬ (s.depth + Nest.depth E + opens.length ≤ maxDepth ∨ opens.length = 0) → ∃ x t',
      Nest.outside.beyond s.depth (opens ++ E) = some x ∧
      expression t = .error ⟨x, .nestedTooDeep maxDepth⟩ t') ∧
    (Fault.nestedTooDeep maxDepth).message = "expression nested more than 64 levels deep" ∧
    (Fault.nestedTooDeep maxDepth).isSyntax = true ∧
    ∀ u, wp (fun _ u' => u'.depth = u.depth) expression (fun _ u' => u'.depth = u.depth) u := by
  have hdepth : t.depth = s.depth := by rw [hframe]
  have hdepth' : s'.depth = s.depth :=
    wp_of_ok (Q := fun _ u => u.depth = s.depth) (depth_expression s) hrun
  have hframe' : t = { s with stream := t.stream, depth := t.depth } := by rw [hframe]
  have h := expression_around hrun hs hs' hrest hopens hcloses hlen (.inr rfl) ht hframe'
  rw [hdepth, wp] at h
  refine ⟨fun hfit => ?_, fun hfit => ?_, by decide +kernel, rfl, depth_expression⟩
  · cases hq : expression t with
    | ok a t' =>
      rw [hq] at h
      obtain ⟨rfl, hahead, hend, -⟩ := h
      rw [← hdepth'] at hend
      exact ⟨t', rfl, hend, hahead⟩
    | error f t' =>
      rw [hq] at h
      obtain ⟨x, -, hlt, hx⟩ := h
      -- without parentheses around it, the first run has shown that the expression fits
      have hself := expression_before hrun hs hs' (.inr rfl) hs rfl
      rw [wp, hrun] at hself
      have hnil := List.length_eq_zero_iff.1 (hfit.resolve_left (by omega))
      have hbeyond := hx s.depth [] rfl
      rw [hnil] at hbeyond
      exact absurd (hself.2.2.2.symm.trans hbeyond) (by simp)
  · cases hq : expression t with
    | ok a t' =>
      rw [hq] at h
      rcases h.2.2.2 with ⟨hnil, -⟩ | hle
      · exact absurd (.inr (by rw [hnil]; rfl)) hfit
      · exact absurd (.inl (by omega)) hfit
    | error f t' =>
      rw [hq] at h
      obtain ⟨x, rfl, -, hx⟩ := h
      exact ⟨x, t', hx s.depth [] rfl, rfl⟩

/-- The tokens of `mixed` with `k` parentheses around them. -/
def mixedWithin (k : Nat) : State :=
  let opens := List.replicate k (Token.mk .leftParen none .start)
  let closes := List.replicate k (Token.mk .rightParen none .start)
  { mixedText with
    stream := .ofTokens (opens ++ mixedText.ahead.take 28 ++ closes ++ mixedText.ahead.drop 28) }

/-- There are 64 levels, and `mixed` takes one. -/
theorem expression_grouped_mixed : ∃ n s', expression mixedText = .ok n s' ∧
    (∃ t', expression (mixedWithin 63) = .ok n t' ∧ t' = { s' with stream := t'.stream }) ∧
    ∃ x t', mixedText.ahead[3]? = some x ∧
      expression (mixedWithin 64) = .error ⟨x, .nestedTooDeep maxDepth⟩ t' := by
  have hahead : mixedText.ahead = mixedText.ahead.take 28 ++ mixedText.ahead.drop 28 :=
    (List.take_append_drop 28 _).symm
  have hready : Ready mixedText.scopes mixedText.ahead.length (mixed.nesting .bool)
      (mixed.written .bool) (mixedText.ahead.take 28) (mixedText.ahead.drop 28) mixedText :=
    ⟨.refl poolsLiterals_fewNames, by decide +kernel, hahead, Nat.le_refl _, by decide +kernel⟩
  obtain ⟨n, s', hrun, hm⟩ := (readsBack expresses_mixed .bool).expression hready
    (.of_not_open (by decide +kernel) (by decide +kernel) (by decide +kernel))
  have hwithin (k : Nat) := expression_grouped (t := mixedWithin k) hrun hahead
    (hm.consumes.ahead hahead) (by decide +kernel) (fun x hx => (List.mem_replicate.1 hx).2 ▸ rfl)
    (fun x hx => (List.mem_replicate.1 hx).2 ▸ rfl) (by simp) rfl rfl
  have hdepth : Nest.depth (mixedText.ahead.take 28) = 1 := by decide +kernel
  refine ⟨n, s', hrun, ?_, ?_⟩
  · obtain ⟨t', ht', hframe, -⟩ := (hwithin 63).1 (.inl (by rw [hdepth]; decide))
    exact ⟨t', ht', hframe⟩
  · obtain ⟨x, t', hx, ht'⟩ := (hwithin 64).2.1 (by rw [hdepth]; decide)
    refine ⟨x, t', ?_, ht'⟩
    rw [← hx]
    decide +kernel

end StackCompiler.Parser
