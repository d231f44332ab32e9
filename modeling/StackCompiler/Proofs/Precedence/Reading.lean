import StackCompiler.Proofs.Precedence.Basic
import StackCompiler.Proofs.Reading.Expressions
import StackCompiler.Proofs.Recovery.Rules

/-!
# Reading a tree back

What it means that tokens have been read as a tree: exactly they are consumed, the tree that was
built mirrors the given one, and the scopes have at most gained symbols for literals and values. The
checks of types pass wherever the given tree has a type.
-/

namespace StackCompiler

open Word Grammar

namespace Scopes

variable {s s' s'' : Scopes}

/-- The pool holds literals only. -/
def PoolsLiterals (s : Scopes) : Prop :=
  ∀ key id, s.resolveConstant key = some id → ∃ sym, s.symbol? id = some sym ∧ sym.IsLiteral key

theorem Valid.poolsLiterals (h : s.Valid) : s.PoolsLiterals := fun _ _ hr => h.literal hr

/-- Nothing is lost, every name keeps its meaning, and the pool holds literals. -/
structure Gains (s s' : Scopes) : Prop extends s.Extends s' where
  resolve : ∀ name, s'.resolve name = s.resolve name
  pool : s'.PoolsLiterals

theorem Gains.refl (h : s.PoolsLiterals) : s.Gains s :=
  ⟨⟨fun _ _ h => h, fun _ _ h => h, fun _ h => h⟩, fun _ => rfl, h⟩

theorem Gains.trans (h : s.Gains s') (h' : s'.Gains s'') : s.Gains s'' :=
  ⟨h.toExtends.trans h'.toExtends, fun name => (h'.resolve name).trans (h.resolve name), h'.pool⟩

theorem Gains.add (h : s.PoolsLiterals) (sym : Symbol) : s.Gains (s.add sym).2 := by
  refine ⟨⟨fun _ _ => symbol?_add_of_some sym, fun _ _ h => h, fun _ h => h⟩, fun _ => rfl, ?_⟩
  intro key id hid
  obtain ⟨old, hs, hl⟩ := h key id hid
  exact ⟨old, symbol?_add_of_some sym hs, hl⟩

theorem Gains.addConstant {key : String} {sym : Symbol} (h : s.PoolsLiterals)
    (hn : s.resolveConstant key = none) (hl : sym.IsLiteral key) :
    s.Gains (s.addConstant key sym).2 := by
  have hadd := Gains.add h { sym with scope := poolName }
  refine ⟨⟨hadd.symbols, fun other id ho => ?_, hadd.made⟩, hadd.resolve, fun other id ho => ?_⟩
  · rw [resolveConstant_addConstant, if_neg, ho]
    rintro rfl
    simp [hn] at ho
  · rw [resolveConstant_addConstant] at ho
    split at ho
    · next heq =>
      cases ho
      exact ⟨_, symbol?_addConstant_self s key sym, heq ▸ hl.inScope poolName⟩
    · exact hadd.pool other id ho

theorem Mirrors.mono {s₀ : Scopes} {n m : Option Node} (h : s₀.Mirrors s n m)
    (e : s.Extends s') : s₀.Mirrors s' n m := by
  induction h with
  | none => exact .none
  | node hn ht _ _ _ ihl ihc ihr =>
    refine .node hn (fun hk => ?_) ihl ihc ihr
    obtain ⟨t, hd, hm⟩ := ht hk
    exact ⟨t, hd, hm.mono e⟩

end Scopes

namespace Parser

open Scopes (Gains)

variable {α β : Type} {s s' s'' : State} {n l r : Node} {t u v : DataType}

theorem is_of_eq {k : Token.Kind} (h : s.stream.kind = k) : is k s = .ok true s := by
  show EStateM.Result.ok (decide (s.stream.kind = k)) s = _
  rw [decide_eq_true h]

theorem is_of_ne {k : Token.Kind} (h : s.stream.kind ≠ k) : is k s = .ok false s := by
  show EStateM.Result.ok (decide (s.stream.kind = k)) s = _
  rw [decide_eq_false h]

theorem typeOf_of_typed (h : s.scopes.Typed n t) : typeOf n s = .ok t s := by
  obtain ⟨id, hn, hid⟩ := h
  show EStateM.Result.ok ((n.symbol.map s.scopes.valueType).getD .void) s = _
  rw [hn, Option.map_some, Option.getD_some, hid.valueType]

theorem exists_typed (h : s.scopes.PoolsLiterals) (n : Node) (t : DataType) (x : Token) :
    ∃ id S, typed n t x s = .ok (n.withSymbol id) { s with scopes := S } ∧
      s.scopes.Gains S ∧ S.HasType id t :=
  ⟨_, _, rfl, .add h _, _, Scopes.symbol?_add_self s.scopes _, rfl⟩

theorem exists_intern {key : String} {x : Token} {kind : Symbol.Kind} {value : Symbol.Attribute}
    (h : s.scopes.PoolsLiterals)
    (hl : (Symbol.new kind key x.position [value, .dataType t]).IsLiteral key) :
    ∃ id S, intern key x kind t value s = .ok id { s with scopes := S } ∧ s.scopes.Gains S ∧
      S.IsConstant id kind value t := by
  cases hr : s.scopes.resolveConstant key with
  | some id =>
    obtain ⟨sym, hs, hsym⟩ := h key id hr
    obtain ⟨hk, ha⟩ := hsym.unique hl
    refine ⟨id, s.scopes, ?_, .refl h, sym, hs, hk, ha⟩
    rw [intern, modifyGet_eq]
    simp only [hr]
  | none =>
    refine ⟨_, _, ?_, .addConstant h hr hl, _,
      Scopes.symbol?_addConstant_self s.scopes key _, rfl, rfl⟩
    rw [intern, modifyGet_eq]
    simp only [hr]

/-- Operands of the types `t` and `u` are joined to a node of kind `k` and type `v`. -/
def Combines (combine : Node → Node → Token → Token → Token → Parser Node) (k : Node.Kind)
    (t u v : DataType) : Prop :=
  ∀ (s : State) (l r : Node) (first next op : Token), s.scopes.PoolsLiterals →
    s.scopes.Typed l t → s.scopes.Typed r u →
    ∃ id S, combine l r first next op s =
      .ok ((Node.binary k l r).withSymbol id) { s with scopes := S } ∧
      s.scopes.Gains S ∧ S.HasType id v

theorem checkBoolean_of_typed (h : s.scopes.Typed n .bool) (x : Token) :
    checkBoolean n x s = .ok () s := by
  rw [checkBoolean, bind_of_ok (typeOf_of_typed h)]
  rfl

theorem combines_logical (k : Node.Kind) : Combines (logical k) k .bool .bool .bool := by
  intro s l r first next op hp hl hr
  rw [logical, bind_of_ok (checkBoolean_of_typed hl first),
    bind_of_ok (checkBoolean_of_typed hr next)]
  exact exists_typed hp _ _ _

theorem combines_arithmetic (k : Node.Kind) (ht : t.isNumeric) (hu : u.isNumeric) :
    Combines (arithmetic k) k t u (t.join u) := by
  intro s l r first next op hp hl hr
  rw [arithmetic, bind_of_ok (typeOf_of_typed hl), bind_of_ok (typeOf_of_typed hr)]
  simp only [ht, hu, if_true]
  exact exists_typed hp _ _ _

theorem combines_compare {k : Node.Kind} (hc : comparable k t u = true) :
    Combines (fun l r _ _ op => compare k l r op) k t u .bool := by
  intro s l r first next op hp hl hr
  show ∃ id S, compare k l r op s = _ ∧ _
  rw [compare, bind_of_ok (typeOf_of_typed hl), bind_of_ok (typeOf_of_typed hr)]
  simp only [hc, if_true]
  exact exists_typed hp _ _ _

/-- Exactly the tokens are consumed. Besides the scopes, nothing else changes. -/
structure State.Consumes (s : State) (ts : List Token) (s' : State) : Prop where
  frame : s' = { s with
    stream := { s.stream with index := s.stream.index + ts.length }, scopes := s'.scopes }
  gains : s.scopes.Gains s'.scopes

namespace State.Consumes

variable {ts us rest : List Token}

theorem ahead (h : s.Consumes ts s') (hs : s.ahead = ts ++ rest) : s'.ahead = rest := by
  rw [h.frame]
  show s.stream.tokens.toList.drop (s.stream.index + ts.length) = rest
  rw [← List.drop_drop]
  exact (congrArg (List.drop ts.length) hs).trans List.drop_left

theorem depth (h : s.Consumes ts s') : s'.depth = s.depth := by rw [h.frame]

theorem nil {S : Scopes} (h : s.scopes.Gains S) : s.Consumes [] { s with scopes := S } := ⟨rfl, h⟩

theorem advance (h : s.scopes.PoolsLiterals) (x : Token) :
    s.Consumes [x] s.advance := ⟨rfl, .refl h⟩

theorem trans (h : s.Consumes ts s') (h' : s'.Consumes us s'') : s.Consumes (ts ++ us) s'' where
  frame := by
    refine h'.frame.trans ?_
    rw [h.frame, List.length_append, Nat.add_assoc]
  gains := h.gains.trans h'.gains

end State.Consumes

theorem headKind_of_words {w : Word} {ws : List Word} {ts rest : List Token}
    (h : ts.map Token.word = w :: ws) : headKind (ts ++ rest) = w.kind := by
  obtain ⟨x, ts', rfl, rfl, -⟩ := List.map_eq_cons_iff.1 h
  rfl

/-- The tokens have been read as the tree `n`, which yields a value of type `t`. The tree that was
built is `m`. -/
structure Rebuilds (s₀ : Scopes) (s : State) (ts : List Token) (n : Node) (t : DataType) (m : Node)
    (s' : State) : Prop where
  consumes : s.Consumes ts s'
  mirrors : s₀.Mirrors s'.scopes (some n) (some m)
  typed : s'.scopes.Typed m t

/-- The tokens `ts` of the words `ws` lie ahead, and `rest` behind them. No more than `N` tokens are
left, and `d` parentheses may still be opened. -/
structure Ready (s₀ : Scopes) (N d : Nat) (ws : List Word) (ts rest : List Token) (s : State) :
    Prop where
  scopes : s₀.Gains s.scopes
  words : ts.map Token.word = ws
  ahead : s.ahead = ts ++ rest
  bound : s.ahead.length ≤ N
  depth : s.depth + d ≤ maxDepth

namespace Ready

variable {s₀ : Scopes} {N d d' : Nat} {ws us : List Word} {w : Word} {ts rest : List Token}

theorem weaken (h : Ready s₀ N d ws ts rest s) (hd : d' ≤ d) : Ready s₀ N d' ws ts rest s :=
  ⟨h.scopes, h.words, h.ahead, h.bound, Nat.le_trans (Nat.add_le_add_left hd _) h.depth⟩

theorem split (h : Ready s₀ N d (ws ++ us) ts rest s) : ∃ ts₁ ts₂, ts = ts₁ ++ ts₂ ∧
    ts₂.map Token.word = us ∧ Ready s₀ N d ws ts₁ (ts₂ ++ rest) s ∧
    ∀ s', s.Consumes ts₁ s' → Ready s₀ N d us ts₂ rest s' := by
  obtain ⟨ts₁, ts₂, rfl, h₁, h₂⟩ := List.map_eq_append_iff.1 h.words
  have hs : s.ahead = ts₁ ++ (ts₂ ++ rest) := by rw [h.ahead, List.append_assoc]
  refine ⟨ts₁, ts₂, rfl, h₂, ⟨h.scopes, h₁, hs, h.bound, h.depth⟩, fun s' hc => ?_⟩
  have hs' := hc.ahead hs
  refine ⟨h.scopes.trans hc.gains, h₂, hs', ?_, hc.depth ▸ h.depth⟩
  have := h.bound
  rw [hs, List.length_append] at this
  rw [hs']
  omega

theorem cons (h : Ready s₀ N d (w :: ws) ts rest s) : ∃ x ts', ts = x :: ts' ∧ x.word = w ∧
    s.ahead = x :: (ts' ++ rest) ∧ s.Consumes [x] s.advance ∧
    Ready s₀ N d ws ts' rest s.advance := by
  obtain ⟨x, ts', rfl, hx, hw⟩ := List.map_eq_cons_iff.1 h.words
  have hs : s.ahead = x :: (ts' ++ rest) := h.ahead
  have hadv := State.ahead_advance hs
  refine ⟨x, ts', rfl, hx, hs, .advance h.scopes.pool x, h.scopes, hw, hadv, ?_, h.depth⟩
  have := h.bound
  rw [hs, List.length_cons] at this
  rw [hadv]
  omega

end Ready

end Parser

end StackCompiler
