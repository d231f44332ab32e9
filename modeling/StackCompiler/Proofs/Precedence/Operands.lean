import StackCompiler.Proofs.Precedence.Levels

/-!
# Operands

Literals with their signs, truth values, variables, calls and expressions in parentheses.
-/

namespace StackCompiler

open Word Grammar

namespace Parser

open Scopes (Gains)

section Operands

variable {s₀ : Scopes} {n : Node} {t : DataType} {ws : List Word} {d N : Nat} {e : Parser Node}
  {s s' : State} {ts rest l : List Token} {x y : Token} {args : List (Node × DataType)}
  {id : Symbol.Id} {sym : Option Symbol.Id} {text : String} {f : Node → List Word}
  {items : List (Token × Node)} {S : Scopes} {read : Token → String → Parser Node}
  {kind : Node.Kind}

/-- The tokens of numbers and how they are read. -/
def numberReader? : Token.Kind → Option (Token → String → Parser Node)
  | .integer => some integerLiteral
  | .real => some realLiteral
  | _ => none

theorem primary_of_number (hs : s.ahead = x :: l) (hx : numberReader? x.kind = some read) :
    reader e .exponent s = read x x.text s.advance := by
  have hminus : s.stream.kind ≠ .minus := by
    rw [State.kind_of_ahead hs]
    intro h
    simp [h, numberReader?] at hx
  show primary e s = _
  rw [primary, accept_bind_eq, if_neg hminus]
  show (match s.stream.current.kind with | .integer => _ | .real => _ | _ => _ : Parser Node) s = _
  rw [State.current_of_ahead hs]
  revert hx
  cases x.kind <;> intro hx <;> cases hx <;> rfl

theorem primary_of_negative (hs : s.ahead = y :: x :: l) (hy : y.kind = .minus)
    (hx : numberReader? x.kind = some read) :
    reader e .exponent s =
      read x ("-" ++ x.text) { s with stream := s.stream.advance.advance } := by
  have hminus : s.stream.kind = .minus := by rw [State.kind_of_ahead hs, hy]
  show primary e s = _
  rw [primary, accept_bind_eq, if_pos hminus]
  have hcur : s.stream.advance.current = x := State.current_of_ahead (State.ahead_advance hs)
  show (match s.stream.advance.current.kind with | .integer => _ | .real => _ | _ => _ :
    Parser Node) s.advance = _
  rw [hcur]
  revert hx
  cases x.kind <;> intro hx <;> cases hx <;> rfl

theorem Rebuilds.leaf {v : Option String} (hk : kind ≠ .reference ∧ kind ≠ .call)
    (hd : s₀.Expresses (.mk kind v sym none none none) t) (hc : s.Consumes ts s')
    (hg : s'.scopes.Gains S) (hid : S.HasType id t) :
    Rebuilds s₀ s ts (.mk kind v sym none none none) t (.mk kind v (some id) none none none)
      { s' with scopes := S } where
  consumes := List.append_nil ts ▸ hc.trans (.nil hg)
  mirrors := .node (by simp [hk]) (fun _ => ⟨t, hd, id, rfl, hid⟩) .none .none .none
  typed := ⟨id, rfl, hid⟩

theorem readsAs_number {k : Token.Kind} (read : Token → String → Parser Node)
    (hk : numberReader? k = some read) (hkind : kind ≠ .reference ∧ kind ≠ .call)
    (hread : ∀ (s : State) x, s.scopes.PoolsLiterals → ∃ id S, read x text s =
      .ok (.mk kind (some text) (some id) none none none) { s with scopes := S } ∧
      s.scopes.Gains S ∧ S.HasType id t)
    (hd : s₀.Expresses (.mk kind (some text) sym none none none) t) :
    ReadsAs s₀ .exponent (.mk kind (some text) sym none none none) t (Node.literalWords k text)
      0 := by
  have hparen : k ≠ .rightParen := by
    rintro rfl
    cases hk
  have hnot : k ≠ .keyword .not := by
    rintro rfl
    cases hk
  unfold Node.literalWords
  split
  · next cs htext =>
    have hsign : "-" ++ String.ofList cs = text := by
      rw [← String.toList_inj, htext]
      simp
    refine ⟨hd, ⟨_, _, rfl, by simp [sign], fun _ => by simp [sign]⟩,
      fun {N e s ts rest} he hs hstop => ?_⟩
    obtain ⟨y, ts', rfl, hy, hahead, hc, hs'⟩ := hs.cons
    obtain ⟨x, ts'', rfl, hx, hahead', hc', hs''⟩ := hs'.cons
    obtain rfl := List.map_eq_nil_iff.1 hs''.words
    obtain ⟨id, S, hrun, hg, hid⟩ := hread _ x hs''.scopes.pool
    refine ⟨_, _, ?_, .leaf hkind hd (hc.trans hc') hg hid⟩
    obtain ⟨hkind', hlexeme⟩ := Word.mk.inj hx
    have htoken : "-" ++ x.text = text := by rw [Token.text, hlexeme, Option.getD_some, hsign]
    rw [primary_of_negative hahead (congrArg Word.kind hy) (hkind' ▸ hk), htoken]
    exact hrun
  · refine ⟨hd, ⟨_, _, rfl, hparen, fun _ => hnot⟩, fun {N e s ts rest} he hs hstop => ?_⟩
    obtain ⟨x, ts', rfl, hx, hahead, hc, hs'⟩ := hs.cons
    obtain rfl := List.map_eq_nil_iff.1 hs'.words
    obtain ⟨id, S, hrun, hg, hid⟩ := hread _ x hs'.scopes.pool
    refine ⟨_, _, ?_, .leaf hkind hd hc hg hid⟩
    obtain ⟨hkind', hlexeme⟩ := Word.mk.inj hx
    have htoken : x.text = text := by rw [Token.text, hlexeme, Option.getD_some]
    rw [primary_of_number hahead (hkind' ▸ hk), htoken]
    exact hrun

theorem readsAs_integer {z : Int} (hz : Text.readWord? text = some z) :
    ReadsAs s₀ .exponent (.mk .intLiteral (some text) sym none none none) .int
      (Node.literalWords .integer text) 0 := by
  refine readsAs_number integerLiteral rfl (by simp) (fun s x hp => ?_) (.integer hz)
  obtain ⟨id, S, hrun, hg, hid⟩ := exists_intern (x := x) hp (.integer z hz rfl rfl)
  refine ⟨id, S, ?_, hg, hid.hasType (by simp) rfl⟩
  simp only [integerLiteral, hz]
  rw [bind_of_ok hrun]
  rfl

theorem readsAs_real {z : Binary64} (hz : Binary64.read? text = some z) (hp : '.' ∈ text.toList)
    (hq : '"' ∉ text.toList) :
    ReadsAs s₀ .exponent (.mk .realLiteral (some text) sym none none none) .real
      (Node.literalWords .real text) 0 := by
  refine readsAs_number realLiteral rfl (by simp) (fun s x hpool => ?_) (.real hz hp hq)
  obtain ⟨id, S, hrun, hg, hid⟩ := exists_intern (x := x) hpool (.real z hz hp hq rfl rfl)
  refine ⟨id, S, ?_, hg, hid.hasType (by simp) rfl⟩
  simp only [realLiteral, hz]
  rw [bind_of_ok hrun]
  rfl

/-! ## Other operands -/

theorem primary_of_operand (hs : s.ahead = x :: l) (hx : x.kind ∉ [.minus, .integer, .real]) :
    reader e .exponent s = operand e x s := by
  simp only [List.mem_cons, List.not_mem_nil, or_false, not_or] at hx
  have hminus : s.stream.kind ≠ .minus := by
    rw [State.kind_of_ahead hs]
    exact hx.1
  show primary e s = _
  rw [primary, accept_bind_eq, if_neg hminus]
  show (match s.stream.current.kind with | .integer => _ | .real => _ | _ => _ : Parser Node) s = _
  rw [State.current_of_ahead hs]
  revert hx
  cases x.kind <;> intro hx <;> first | rfl | exact absurd rfl hx.2.1 | exact absurd rfl hx.2.2

def truthWord (k : Node.Kind) : Keyword := if k = .trueLiteral then .trueWord else .falseWord

theorem readsAs_truth {k : Node.Kind} (hk : k = .trueLiteral ∨ k = .falseLiteral) :
    ReadsAs s₀ .exponent (.mk k none sym none none none) .bool [key (truthWord k)] 0 := by
  refine ⟨.truth hk, ⟨_, _, rfl, by simp [key], fun _ => ?_⟩,
    fun {N e s ts rest} he hs hstop => ?_⟩
  · rcases hk with rfl | rfl <;> decide
  · obtain ⟨x, ts', rfl, hx, hahead, hc, hs'⟩ := hs.cons
    obtain rfl := List.map_eq_nil_iff.1 hs'.words
    obtain ⟨hkind, -⟩ := Word.mk.inj hx
    obtain ⟨id, S, htyped, hg, hid⟩ := exists_typed hs'.scopes.pool (.leaf k) .bool x
    refine ⟨_, _, ?_, .leaf (by rcases hk with rfl | rfl <;> simp) (.truth hk) hc hg hid⟩
    rw [primary_of_operand hahead, operand, hkind]
    · rcases hk with rfl | rfl <;> exact htyped
    · rw [hkind]
      rcases hk with rfl | rfl <;> decide

theorem expect_of_ahead {k : Token.Kind} (hs : s.ahead = x :: l) (hk : x.kind = k) :
    expect k s = .ok x s.advance := by
  have hkind : s.stream.kind = k := by rw [State.kind_of_ahead hs, hk]
  simp only [expect, TokenStream.expect, hkind, if_true, State.current_of_ahead hs]

theorem grouped_of_ok (h : e { s with depth := s.depth + 1 } = .ok n s') :
    grouped e s = .ok n { s' with depth := s'.depth - 1 } := by
  simp only [grouped, h]

theorem State.Consumes.ungroup (h : { s with depth := s.depth + 1 }.Consumes ts s') :
    s.Consumes ts { s' with depth := s'.depth - 1 } := by
  refine ⟨?_, h.gains⟩
  rw [h.frame]
  rfl

theorem ReadsAs.group (h : ReadsAs s₀ .bool n t ws d) :
    ReadsAs s₀ .exponent n t (sign .leftParen :: (ws ++ [sign .rightParen])) (d + 1) := by
  refine ⟨h.expresses, ⟨_, _, rfl, by simp [sign], fun _ => by simp [sign]⟩,
    fun {N e s ts rest} he hs hstop => ?_⟩
  obtain ⟨x, ts', rfl, hx, hahead, hc, hs'⟩ := hs.cons
  obtain ⟨hkind, -⟩ := Word.mk.inj hx
  have hdepth := hs.depth
  obtain ⟨ts₁, ts₂, rfl, hw₂, hs₁, hs₂⟩ := hs'.split
  -- what is inside is read with one more parenthesis open
  have hinner : Ready s₀ N d ws ts₁ (ts₂ ++ rest)
      { s with stream := s.stream.advance, depth := s.depth + 1 } :=
    ⟨hs₁.scopes, hs₁.words, hs₁.ahead, hs₁.bound, by show s.depth + 1 + d ≤ maxDepth; omega⟩
  have hlt : (ts₁ ++ (ts₂ ++ rest)).length < N := by
    have := hs.bound
    rw [hahead, List.length_cons, List.append_assoc] at this
    omega
  obtain ⟨m, s', hrun, hm⟩ := h.expression hinner
    (headKind_of_words hw₂ ▸ .of_not_open (by decide) (by decide) (by decide))
  rw [← he _ (hinner.ahead ▸ hlt)] at hrun
  have hm' := State.Consumes.ungroup (s := s.advance) hm.consumes
  obtain ⟨y, ts₃, rfl, hy, hahead', hc', hs₃⟩ := (hs₂ _ hm').cons
  obtain rfl := List.map_eq_nil_iff.1 hs₃.words
  refine ⟨m, _, ?_, hc.trans (hm'.trans hc'), hm.mirrors, hm.typed⟩
  rw [primary_of_operand hahead (hkind ▸ by decide), operand, hkind]
  show (if s.depth ≥ maxDepth then _ else _ : Parser Node) s = _
  rw [if_neg (by omega)]
  show (grouped e >>= fun inner => expect .rightParen >>= fun _ => pure inner)
    s.advance = _
  rw [bind_of_ok (grouped_of_ok hrun), bind_of_ok (expect_of_ahead hahead' (Word.mk.inj hy).1)]
  rfl

theorem primary_of_name (hs : s.ahead = x :: l) (hx : x.kind = .ident) :
    reader e .exponent s = named e x s.advance := by
  rw [primary_of_operand hs (hx ▸ by decide), operand, hx]
  show named e s.stream.current s.advance = _
  rw [State.current_of_ahead hs]

theorem resolve_eq (text : String) (s : State) :
    resolve text s = .ok (s.scopes.resolve text) s := rfl

theorem symbol?_eq (id : Symbol.Id) (s : State) : symbol? id s = .ok (s.scopes.symbol? id) s := rfl

theorem variableNamed_of_variable (hb : s.stream.kind ≠ .leftBracket)
    (hn : s.scopes.resolve x.text = some id) (hv : s.scopes.IsVariable id t) :
    variableNamed x s = .ok (Scopes.variableNode x.text id) s := by
  obtain ⟨sym, hs, hv⟩ := hv
  rw [variableNamed, bind_of_ok (is_of_ne hb)]
  simp only [Bool.false_eq_true, if_false]
  rw [bind_of_ok (resolve_eq x.text s), hn]
  dsimp only
  rw [bind_of_ok (symbol?_eq id s), hs, Option.map_some]
  have := hv.not_function
  have := hv.not_type
  have := hv.not_array
  cases hk : sym.kind <;> first | rfl | contradiction

theorem readsAs_reference (hn : s₀.resolve text = some id) (hv : s₀.IsVariable id t) :
    ReadsAs s₀ .exponent (Scopes.variableNode text id) t [name text] 0 := by
  refine ⟨.reference hn hv, ⟨_, _, rfl, by simp [name], fun _ => by simp [name]⟩,
    fun {N e s ts rest} he hs hstop => ?_⟩
  obtain ⟨x, ts', rfl, hx, hahead, hc, hs'⟩ := hs.cons
  obtain rfl := List.map_eq_nil_iff.1 hs'.words
  obtain ⟨hkind, hlexeme⟩ := Word.mk.inj hx
  obtain rfl : x.text = text := by rw [Token.text, hlexeme, Option.getD_some]
  have hn' := (hs'.scopes.resolve x.text).trans hn
  have hv' := hv.mono hs'.scopes.toExtends
  obtain ⟨hparen, hbracket⟩ := hstop.name x.text rfl
  have hnext : s.advance.stream.kind = headKind rest := by
    rw [State.kind_eq, hs'.ahead]
    rfl
  refine ⟨Scopes.variableNode x.text id, _, ?_, hc, ?_, id, rfl, hv'.hasType⟩
  · rw [primary_of_name hahead hkind, named, bind_of_ok (is_of_ne (hnext ▸ hparen))]
    exact variableNamed_of_variable (hnext ▸ hbracket) hn' hv'
  · exact .node (fun _ => rfl) (fun _ => ⟨t, .reference hn hv, id, rfl, hv'.hasType⟩)
      .none .none .none

/-! ## Calls -/

def Passed (s₀ S : Scopes) : List (Node × DataType) → List (Token × Node) → Prop :=
  List.Forall₂ fun a i => s₀.Mirrors S (some a.1) (some i.2) ∧ S.Typed i.2 a.2

def argument (e : Parser Node) : Parser (Token × Node) := do
  let x ← peek
  return (x, ← e)

/-- One turn of reading a list: an item, and whether a comma follows. -/
def commaStep {α : Type} (item : Parser α) (before : List α) : Parser (List α ⊕ List α) := do
  let items := (← item) :: before
  if ← accept .comma then return .inl items else return .inr items.reverse

theorem commaStep_of_ok {α : Type} {item : Parser α} {a : α} (before : List α)
    (h : item s = .ok a s') : commaStep item before s =
      if s'.stream.kind = .comma then
        .ok (.inl (a :: before)) { s' with stream := s'.stream.advance }
      else .ok (.inr (a :: before).reverse) s' := by
  rw [commaStep, bind_of_ok h, accept_bind_eq]
  split <;> rfl

theorem argument_of_readsAs (he : Guards N e) (h : ReadsAs s₀ .bool n t ws d)
    (hs : Ready s₀ N d ws ts rest s) (hlt : s.ahead.length < N)
    (hstop : Level.bool.Stops ws (headKind rest)) : ∃ m s',
      argument e s = .ok (s.stream.current, m) s' ∧ Rebuilds s₀ s ts n t m s' := by
  obtain ⟨m, s', hrun, hm⟩ := h.expression hs hstop
  rw [← he s hlt] at hrun
  exact ⟨m, s', bind_of_ok hrun, hm⟩

theorem commaStep_last (he : Guards N e) (h : ReadsAs s₀ .bool n t ws d)
    (hs : Ready s₀ N d ws ts rest s) (hlt : s.ahead.length < N)
    (hr : headKind rest = .rightParen) (before : List (Token × Node)) :
    ∃ m s', commaStep (argument e) before s =
        .ok (.inr ((s.stream.current, m) :: before).reverse) s' ∧
      s.Consumes ts s' ∧ s₀.Mirrors s'.scopes (some n) (some m) ∧ s'.scopes.Typed m t := by
  obtain ⟨m, s', hrun, hm⟩ := argument_of_readsAs he h hs hlt
    (hr ▸ .of_not_open (by decide) (by decide) (by decide))
  have hcomma : ¬ s'.stream.kind = .comma := by
    rw [State.kind_eq, hm.consumes.ahead hs.ahead, hr]
    simp
  refine ⟨m, s', ?_, hm.consumes, hm.mirrors, hm.typed⟩
  rw [commaStep_of_ok before hrun, if_neg hcomma]

theorem commaStep_more {us : List Word} (he : Guards N e) (h : ReadsAs s₀ .bool n t ws d)
    (hs : Ready s₀ N d (ws ++ sign .comma :: us) ts rest s) (hlt : s.ahead.length < N)
    (before : List (Token × Node)) :
    ∃ m s' ts₁ ts₂, ts = ts₁ ++ ts₂ ∧
      commaStep (argument e) before s = .ok (.inl ((s.stream.current, m) :: before)) s' ∧
      s.Consumes ts₁ s' ∧ Ready s₀ N d us ts₂ rest s' ∧ s'.ahead.length < s.ahead.length ∧
      s₀.Mirrors s'.scopes (some n) (some m) ∧ s'.scopes.Typed m t := by
  obtain ⟨ts₁, ts₂, rfl, hw₂, hs₁, hs₂⟩ := hs.split
  obtain ⟨m, s', hrun, hm⟩ := argument_of_readsAs he h hs₁ hlt
    (headKind_of_words hw₂ ▸ .of_not_open (by decide) (by decide) (by decide))
  obtain ⟨y, ts₃, rfl, hy, hahead, hc, hs₃⟩ := (hs₂ s' hm.consumes).cons
  have hcomma : s'.stream.kind = .comma := by
    rw [State.kind_of_ahead hahead]
    exact (Word.mk.inj hy).1
  refine ⟨m, { s' with stream := s'.stream.advance }, ts₁ ++ [y], ts₃, List.append_cons _ _ _, ?_,
    hm.consumes.trans hc, hs₃, ?_, hm.mirrors, hm.typed⟩
  · rw [commaStep_of_ok before hrun, if_pos hcomma]
  · rw [hs₃.ahead, hs.ahead]
    simp only [List.length_append, List.length_cons]
    omega

theorem reads_commas (hne : args ≠ []) (he : Guards N e) (hr : headKind rest = .rightParen)
    (ha : ∀ a ∈ args, ReadsAs s₀ .bool a.1 a.2 (f a.1) d)
    (hs : Ready s₀ N d (commas (args.map fun a => f a.1)) ts rest s) (hlt : s.ahead.length < N)
    (before : List (Token × Node)) :
    ∃ items s', loop (commaStep (argument e)) before s = .ok (before.reverse ++ items) s' ∧
      s.Consumes ts s' ∧ Passed s₀ s'.scopes args items := by
  induction args generalizing s ts before with
  | nil => exact absurd rfl hne
  | cons a args ih =>
    have hfirst := ha a List.mem_cons_self
    rw [loop_eq]
    by_cases hargs : args = []
    · subst hargs
      have hs : Ready s₀ N d (f a.1) ts rest s := by simpa [commas] using hs
      obtain ⟨m, s', hstep, hc, hm⟩ := commaStep_last he hfirst hs hlt hr before
      refine ⟨[(s.stream.current, m)], s', ?_, hc, .cons hm .nil⟩
      rw [bind_of_ok hstep, List.reverse_cons]
      rfl
    · rw [List.map_cons, commas_cons _ (by simpa using hargs)] at hs
      obtain ⟨m, s', ts₁, ts₂, rfl, hstep, hc, hs', hlen, hm, ht⟩ :=
        commaStep_more he hfirst hs hlt before
      obtain ⟨items, s'', hloop, hc', hitems⟩ := ih hargs
        (fun b hb => ha b (List.mem_cons_of_mem a hb)) hs' (Nat.lt_trans hlen hlt)
        ((s.stream.current, m) :: before)
      have e' := hc'.gains.toExtends
      refine ⟨(s.stream.current, m) :: items, s'', ?_, hc.trans hc',
        .cons ⟨hm.mono e', ht.mono e'⟩ hitems⟩
      rw [bind_of_ok hstep]
      refine (guarded_of_lt hlen).trans (hloop.trans ?_)
      rw [List.reverse_cons, List.append_assoc]
      rfl

theorem arguments_of_readsAs (he : Guards N e) (hr : headKind rest = .rightParen)
    (ha : ∀ a ∈ args, ReadsAs s₀ .bool a.1 a.2 (f a.1) d)
    (hs : Ready s₀ N d (commas (args.map fun a => f a.1)) ts rest s) (hlt : s.ahead.length < N) :
    ∃ items s', arguments e s = .ok items s' ∧ s.Consumes ts s' ∧
      Passed s₀ s'.scopes args items := by
  cases args with
  | nil =>
    obtain rfl := List.map_eq_nil_iff.1 hs.words
    have hparen : s.stream.kind = .rightParen := by
      rw [State.kind_eq, hs.ahead, List.nil_append, hr]
    rw [arguments, bind_of_ok (is_of_eq hparen)]
    exact ⟨[], s, rfl, .nil (.refl hs.scopes.pool), .nil⟩
  | cons a args =>
    have hparen : s.stream.kind ≠ .rightParen := by
      obtain ⟨w, us, hw, hne, -⟩ :=
        (ha a List.mem_cons_self).begins.commas (args.map fun a => f a.1)
      rw [State.kind_eq, hs.ahead, headKind_of_words (hs.words.trans hw)]
      exact hne
    rw [arguments, bind_of_ok (is_of_ne hparen)]
    exact reads_commas (by simp) he hr ha hs hlt []

theorem parameterTypes_mono {params : List Symbol.Id} (hS : s₀.Extends S)
    (hp : (params.map fun p => (s₀.symbol? p).bind Symbol.dataType?) =
      args.map fun a => some a.2) :
    (params.map fun p => (S.symbol? p).bind Symbol.dataType?) = args.map fun a => some a.2 := by
  rw [← hp]
  refine List.map_congr_left fun p hmem => ?_
  have hsome : (s₀.symbol? p).bind Symbol.dataType? ∈ args.map fun a => some a.2 := by
    rw [← hp]
    exact List.mem_map_of_mem hmem
  obtain ⟨a, -, ha⟩ := List.mem_map.1 hsome
  obtain ⟨par, hpar, -⟩ := Option.bind_eq_some_iff.1 ha.symm
  rw [hpar, hS.symbols p par hpar]

theorem checkArguments_of_passed {params : List Symbol.Id} (h : Passed s₀ s.scopes args items)
    (hp : (params.map fun p => (s.scopes.symbol? p).bind Symbol.dataType?) =
      args.map fun a => some a.2) : checkArguments items params s = .ok () s := by
  induction h generalizing params with
  | nil =>
    obtain rfl := List.map_eq_nil_iff.1 hp
    rfl
  | @cons a i args items hi _ ih =>
    obtain ⟨p, ps, rfl, hpar, hps⟩ := List.map_eq_cons_iff.1 hp
    obtain ⟨x, arg⟩ := i
    have htype : typeOf arg s = .ok a.2 s := typeOf_of_typed hi.2
    rw [checkArguments, bind_of_ok (symbol?_eq p s), bind_of_ok htype]
    simp only [hpar, Option.getD_some, DataType.assignableTo, decide_true, if_true]
    exact ih hps

/-- What a call does once its arguments are read. -/
def callWith (x : Token) (k : Node.Kind) (id : Symbol.Id) (items : List (Token × Node)) :
    Parser Node := do
  let params := ((← symbol? id).map Symbol.parameters).getD []
  unless params.length = items.length do
    fail x (.argumentCount x.text params.length items.length)
  checkArguments items params
  return ((Node.branch k (Node.list .expressionList (items.map Prod.snd)) none none).withValue
    x.text).withSymbol id

theorem callNamed_of_function {k : Node.Kind} {sym : Symbol}
    (hn : s.scopes.resolve x.text = some id) (hs : s.scopes.symbol? id = some sym)
    (hk : sym.kind = .function) : callNamed e x k s = (do
      let _ ← expect .leftParen
      let items ← arguments e
      let _ ← expect .rightParen
      callWith x k id items) s := by
  rw [callNamed, bind_of_ok (resolve_eq x.text s), hn]
  dsimp only
  rw [bind_of_ok (symbol?_eq id s), hs]
  simp only [Option.map_some, Option.getD_some, Symbol.Kind.isFunction, hk, decide_true, if_true]
  rfl

theorem callWith_of_passed {sym : Symbol} (hs : s.scopes.symbol? id = some sym)
    (h : Passed s₀ s.scopes args items)
    (hp : (sym.parameters.map fun p => (s.scopes.symbol? p).bind Symbol.dataType?) =
      args.map fun a => some a.2) : callWith x .call id items s =
      .ok (.mk .call (some x.text) (some id)
        (Node.list .expressionList (items.map Prod.snd)) none none) s := by
  have hlength : sym.parameters.length = items.length := by
    have := congrArg List.length hp
    rw [List.length_map, List.length_map] at this
    rw [this, h.length_eq]
  rw [callWith, bind_of_ok (symbol?_eq id s), hs]
  simp only [Option.map_some, Option.getD_some, hlength, if_true]
  rw [bind_of_ok (checkArguments_of_passed h hp)]
  rfl

theorem Passed.mirrors_list (h : Passed s₀ S args items) :
    s₀.Mirrors S (Node.list .expressionList (args.map Prod.fst))
      (Node.list .expressionList (items.map Prod.snd)) := by
  induction h with
  | nil => exact .none
  | @cons a i args items hi hrest ih =>
    rw [List.map_cons, List.map_cons, Node.list_cons, Node.list_cons]
    cases hrest with
    | nil => exact hi.1
    | cons =>
      rw [List.map_cons, List.map_cons, Node.list_cons, Node.list_cons] at ih ⊢
      exact .node (by simp) (fun hk => absurd rfl hk) hi.1 .none ih

theorem callNamed_of_readsAs {sym : Symbol} (hn : s₀.resolve x.text = some id)
    (hsym : s₀.symbol? id = some sym) (hk : sym.kind = .function)
    (hp : (sym.parameters.map fun p => (s₀.symbol? p).bind Symbol.dataType?) =
      args.map fun a => some a.2)
    (ha : ∀ a ∈ args, ReadsAs s₀ .bool a.1 a.2 (f a.1) d) (he : Guards N e)
    (hs : Ready s₀ N d
      (sign .leftParen :: (commas (args.map fun a => f a.1) ++ [sign .rightParen])) ts rest s) :
    ∃ items s', callNamed e x .call s = .ok (.mk .call (some x.text) (some id)
        (Node.list .expressionList (items.map Prod.snd)) none none) s' ∧
      s.Consumes ts s' ∧ Passed s₀ s'.scopes args items := by
  -- the tokens: a parenthesis, the arguments, a parenthesis
  obtain ⟨y, ts', rfl, hy, hahead, hc, hs'⟩ := hs.cons
  obtain ⟨ts₁, ts₂, rfl, hw₂, hs₁, hthen⟩ := hs'.split
  have hlt : s.advance.ahead.length < N := by
    have hbound := hs.bound
    rw [hahead, List.length_cons] at hbound
    rw [hs'.ahead]
    exact hbound
  obtain ⟨items, s₁, hargs, hc₁, hitems⟩ :=
    arguments_of_readsAs he (headKind_of_words hw₂) ha hs₁ hlt
  obtain ⟨z, ts₃, rfl, hz, hahead₁, hc₂, hs₂⟩ := (hthen s₁ hc₁).cons
  obtain rfl := List.map_eq_nil_iff.1 hs₂.words
  have hS := hs₂.scopes.toExtends
  refine ⟨items, _, ?_, hc.trans (hc₁.trans hc₂), hitems⟩
  rw [callNamed_of_function ((hs.scopes.resolve x.text).trans hn)
    (hs.scopes.symbols id sym hsym) hk, bind_of_ok (expect_of_ahead hahead (Word.mk.inj hy).1),
    bind_of_ok hargs, bind_of_ok (expect_of_ahead hahead₁ (Word.mk.inj hz).1)]
  exact callWith_of_passed (hS.symbols id sym hsym) hitems (parameterTypes_mono hS hp)

theorem named_of_call {m : Node} (hp : s.stream.kind = .leftParen)
    (h : callNamed e x .call s = .ok m s') (hm : s'.scopes.Typed m t) (hv : t ≠ .void) :
    named e x s = .ok m s' := by
  rw [named, bind_of_ok (is_of_eq hp)]
  simp only [if_true]
  rw [bind_of_ok h, bind_of_ok (typeOf_of_typed hm)]
  simp only [DataType.isVoid, hv, decide_false, Bool.false_eq_true, if_false]
  rfl

theorem readsAs_call {sym : Symbol} (hn : s₀.resolve text = some id) (hs : s₀.symbol? id = some sym)
    (hk : sym.kind = .function) (hv : sym.valueType ≠ .void)
    (hp : (sym.parameters.map fun p => (s₀.symbol? p).bind Symbol.dataType?) =
      args.map fun a => some a.2)
    (ha : ∀ a ∈ args, ReadsAs s₀ .bool a.1 a.2 (f a.1) d) :
    ReadsAs s₀ .exponent
      (.mk .call (some text) (some id) (Node.list .expressionList (args.map Prod.fst)) none none)
      sym.valueType
      (name text :: sign .leftParen :: (commas (args.map fun a => f a.1) ++ [sign .rightParen]))
      d := by
  have hd := Scopes.Expresses.call hn hs hk hv hp fun a h => (ha a h).expresses
  refine ⟨hd, ⟨_, _, rfl, by simp [name], fun _ => by simp [name]⟩,
    fun {N e s ts rest} he h₀ hstop => ?_⟩
  obtain ⟨x, ts', rfl, hx, hahead, hc, h₁⟩ := h₀.cons
  obtain ⟨hkind, hlexeme⟩ := Word.mk.inj hx
  obtain rfl : x.text = text := by rw [Token.text, hlexeme, Option.getD_some]
  have hparen : s.stream.advance.kind = .leftParen := by
    obtain ⟨y, _, -, hy, hahead₁, -⟩ := h₁.cons
    rw [State.kind_of_ahead (s := s.advance) hahead₁]
    exact (Word.mk.inj hy).1
  obtain ⟨items, s', hcall, hc', hitems⟩ := callNamed_of_readsAs hn hs hk hp ha he h₁
  have htyped : s'.scopes.Typed (.mk .call (some x.text) (some id)
      (Node.list .expressionList (items.map Prod.snd)) none none) sym.valueType :=
    ⟨id, rfl, sym, (h₁.scopes.trans hc'.gains).symbols id sym hs, rfl⟩
  refine ⟨_, s', ?_, hc.trans hc', ?_, htyped⟩
  · rw [primary_of_name hahead hkind, named_of_call hparen hcall htyped hv]
    rfl
  · exact .node (fun _ => rfl) (fun _ => ⟨_, hd, htyped⟩) hitems.mirrors_list .none .none

end Operands

end Parser

end StackCompiler
