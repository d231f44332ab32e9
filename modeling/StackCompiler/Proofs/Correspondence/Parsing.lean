import StackCompiler.Proofs.Correspondence.Scopes
import StackCompiler.Proofs.Lockstep
import StackCompiler.Proofs.Operators

/-!
# Reading streams that correspond

The parsers of two streams that correspond go through the same steps and never consume the end: they
have come equally far, have made the same symbols and scopes, and have reported something about the
same tokens. What they build are trees of one shape, with the same symbols.
-/

namespace StackCompiler

namespace Node

/-- Kinds of nodes whose text tells a scope. -/
def Kind.isScoped : Kind → Bool
  | forLoop | ifThen | ifElse | repeatLoop | functionDef => true
  | _ => false

/-- Kinds of nodes that neither are parts of a chain nor tell a scope. -/
def Kind.isPlain (k : Kind) : Bool := !k.isList && !k.isScoped

/-- The node is no part of a chain. -/
abbrev Single (n : Node) : Prop := n.kind.isList = false

end Node

namespace Correspondence

variable (r : Correspondence)

/-! ## Trees -/

/-- The texts of two nodes of one kind tell scopes that correspond, if they tell any. -/
def SameText (k : Node.Kind) (v w : Option String) : Prop :=
  (r.Exact → v = w) ∧
    match k with
    | .forLoop | .ifThen | .ifElse | .repeatLoop => r.SameScope (v.getD "") (w.getD "")
    | .functionDef =>
      r.SameScope (Parser.functionScope (v.getD "")) (Parser.functionScope (w.getD ""))
    | _ => True

/-- Trees that differ in their texts only, or no trees. -/
inductive SameTree : Option Node → Option Node → Prop
  | none : SameTree none none
  | node {k : Node.Kind} {v v' : Option String} {s : Option Symbol.Id}
      {l l' c c' m m' : Option Node} (hv : r.SameText k v v') (hl : SameTree l l')
      (hc : SameTree c c') (hm : SameTree m m') :
      SameTree (some (.mk k v s l c m)) (some (.mk k v' s l' c' m'))

/-- Trees that differ in their texts only. -/
abbrev SameNode (n n' : Node) : Prop := r.SameTree (some n) (some n')

/-- Trees that differ in their texts only, and are no parts of a chain. -/
structure SameItem (n n' : Node) : Prop where
  tree : r.SameNode n n'
  single : n.Single

variable {r} {n n' : Node} {o o' : Option Node} {k : Node.Kind}

theorem sameText (hk : k.isScoped = false) {v w : Option String} (h : r.Exact → v = w) :
    r.SameText k v w := by
  refine ⟨h, ?_⟩
  cases k <;> first | exact trivial | cases hk

namespace SameTree

@[grind →] theorem eq (h : r.SameTree o o') (hx : r.Exact) : o = o' := by
  induction h with
  | none => rfl
  | node hv _ _ _ hl hc hm => rw [hv.1 hx, hl, hc, hm]

theorem kind (h : r.SameNode n n') : n.kind = n'.kind := by
  cases h
  rfl

theorem symbol (h : r.SameNode n n') : n.symbol = n'.symbol := by
  cases h
  rfl

theorem text (h : r.SameNode n n') : r.SameText n.kind n.value n'.value := by
  cases h
  assumption

theorem left (h : r.SameNode n n') : r.SameTree n.left n'.left := by
  cases h
  assumption

theorem right (h : r.SameNode n n') : r.SameTree n.right n'.right := by
  cases h
  assumption

theorem list (hk : k.isScoped = false) {xs ys : List Node} (h : List.Forall₂ r.SameItem xs ys) :
    r.SameTree (Node.list k xs) (Node.list k ys) := by
  induction h with
  | nil => exact .none
  | @cons a b as bs hab _ ih =>
    rw [Node.list_cons, Node.list_cons]
    generalize Node.list k as = o, Node.list k bs = o' at ih
    cases ih with
    | none => exact hab.tree
    | node hv hl hc hm =>
      exact .node (sameText hk fun _ => rfl) hab.tree .none (.node hv hl hc hm)

theorem toList (h : r.SameTree o o') : List.Forall₂ r.SameNode o.toList o'.toList := by
  cases h with
  | none => exact .nil
  | node hv hl hc hm => exact .cons (.node hv hl hc hm) .nil

theorem listed (k : Node.Kind) (h : r.SameTree o o') :
    List.Forall₂ r.SameNode (Node.listed k o) (Node.listed k o') := by
  induction h with
  | none => exact .nil
  | @node kind v v' s l l' c c' m m' hv hl hc hm _ _ ih =>
    show List.Forall₂ _ (Node.items k _) (Node.items k _)
    rw [Node.items.eq_def, Node.items.eq_def]
    dsimp only
    split
    · cases hm with
      | none => exact hl.toList
      | node => exact List.rel_append hl.toList ih
    · exact .cons (.node hv hl hc hm) .nil

end SameTree

namespace SameItem

variable {v v' : Option String} {s : Option Symbol.Id} {l l' c c' m m' : Option Node}

@[grind →] theorem eq (h : r.SameItem n n') (hx : r.Exact) : n = n' :=
  Option.some.inj (h.tree.eq hx)

theorem withSymbol (h : r.SameItem n n') (id : Symbol.Id) :
    r.SameItem (n.withSymbol id) (n'.withSymbol id) := by
  obtain ⟨ht, hs⟩ := h
  cases ht with
  | node hv hl hc hm => exact ⟨.node hv hl hc hm, hs⟩

theorem plain (hk : k.isPlain = true) (hl : r.SameTree l l') (hc : r.SameTree c c')
    (hm : r.SameTree m m') (hv : r.Exact → v = v') :
    r.SameItem (.mk k v s l c m) (.mk k v' s l' c' m') := by
  simp only [Node.Kind.isPlain, Bool.and_eq_true, Bool.not_eq_true'] at hk
  exact ⟨.node (sameText hk.2 hv) hl hc hm, hk.1⟩

theorem leaf (hk : k.isPlain = true) (hv : r.Exact → v = v') :
    r.SameItem (.mk k v s none none none) (.mk k v' s none none none) :=
  plain hk .none .none .none hv

theorem binary {l l' m m' : Node} (hk : k.isPlain = true) (hl : r.SameItem l l')
    (hm : r.SameItem m m') : r.SameItem (.binary k l m) (.binary k l' m') :=
  plain hk hl.tree .none hm.tree fun _ => rfl

theorem block {a b : String} (h : r.SameScope a b) (hl : r.SameTree l l') (hc : r.SameTree c c')
    (hm : r.SameTree m m') (hk : k ∈ [Node.Kind.forLoop, .ifThen, .ifElse, .repeatLoop]) :
    r.SameItem (.mk k (some a) none l c m) (.mk k (some b) none l' c' m') := by
  have hx (hx : r.Exact) : some a = some b := by rw [(hx.scope a b).1 h]
  fin_cases hk <;> exact ⟨.node ⟨hx, h⟩ hl hc hm, rfl⟩

end SameItem

/-! ## States -/

variable (r)

/-- Something of one severity was said about the same token. -/
structure SameDiagnostic (d d' : Diagnostic) : Prop where
  token : r.SameToken d.token d'.token
  severity : d.remark.severity = d'.remark.severity

/-- The same was reported before, and things that correspond since. -/
def SameReports (ds ds' : List Diagnostic) : Prop :=
  ∃ new new', ds = r.reported ++ new ∧ ds' = r.reported ++ new' ∧
    List.Forall₂ r.SameDiagnostic new new'

/-- The parsers have come equally far, and found the same up to names and places. -/
structure SameState (s t : Parser.State) : Prop where
  stream : ∃ m ≤ r.count, s.stream = { r.left with index := r.left.index + m } ∧
    t.stream = { r.right with index := r.right.index + m }
  scopes : r.SameScopes s.scopes t.scopes
  diagnostics : r.SameReports s.diagnostics.toList t.diagnostics.toList
  function : s.function = t.function
  depth : s.depth = t.depth
  exact : r.Exact → t = { s with stream := t.stream }

/-- The errors are about the same token. -/
structure SameError (e e' : ParseError) : Prop where
  token : r.SameToken e.token e'.token
  exact : r.Exact → e = e'

variable {r}

theorem SameReports.push {ds ds' : Array Diagnostic} (h : r.SameReports ds.toList ds'.toList)
    {d d' : Diagnostic} (hd : r.SameDiagnostic d d') :
    r.SameReports (ds.push d).toList (ds'.push d').toList := by
  obtain ⟨new, new', hs, ht, h⟩ := h
  refine ⟨new ++ [d], new' ++ [d'], ?_, ?_, List.rel_append h (.cons hd .nil)⟩
  · rw [Array.toList_push, hs, List.append_assoc]
  · rw [Array.toList_push, ht, List.append_assoc]

namespace SameState

variable {s t : Parser.State}

theorem current (h : r.SameState s t) : r.SameToken s.stream.current t.stream.current := by
  obtain ⟨m, hm, hs, ht⟩ := h.stream
  exact ⟨m, hm, by rw [hs]; rfl, by rw [ht]; rfl⟩

theorem kind (h : r.SameState s t) : s.stream.kind = t.stream.kind := h.current.kind.symm

theorem advance (h : r.SameState s t) (hk : s.stream.kind ≠ .eof) :
    r.SameState s.advance t.advance := by
  obtain ⟨m, hm, hs, ht⟩ := h.stream
  refine { h with
    stream := ⟨m + 1, Nat.lt_of_le_of_ne hm ?_, congrArg (·.advance) hs, congrArg (·.advance) ht⟩
    exact := fun hx => by rw [h.exact hx] }
  rintro rfl
  rw [hs] at hk
  exact hk r.ends.eof

theorem warn (h : r.SameState s t) {a b : Token} (hab : r.SameToken a b) {n m : Notice}
    (hn : r.Exact → n = m) :
    r.SameState
      { s with
        diagnostics := s.diagnostics.push (.warning a n)
        log := s.log.push (.warned (Diagnostic.warning a n).remark) }
      { t with
        diagnostics := t.diagnostics.push (.warning b m)
        log := t.log.push (.warned (Diagnostic.warning b m).remark) } :=
  { h with
    diagnostics := h.diagnostics.push ⟨hab, rfl⟩
    exact := fun hx => by rw [h.exact hx, hab.eq hx, hn hx] }

theorem unexpected (h : r.SameState s t) (what : String) :
    r.SameError (s.stream.unexpected what) (t.stream.unexpected what) := by
  refine ⟨h.current, fun hx => ?_⟩
  unfold TokenStream.unexpected
  rw [h.current.eq hx]

theorem start {a b : TokenStream} {n : Nat} (hends : a.EndsAfter n)
    (hsame : ∀ k ≤ n, a.ahead k = b.ahead k) {reported : List Diagnostic} (s : Parser.State)
    (hs : s.diagnostics.toList = reported) :
    (same hends hsame reported).SameState { s with stream := a } { s with stream := b } where
  stream := ⟨0, Nat.zero_le _, rfl, rfl⟩
  scopes := .refl (exact_same hends hsame reported) _
  diagnostics := ⟨[], [], by simp [hs, same], by simp [hs, same], .nil⟩
  function := rfl
  depth := rfl
  exact _ := rfl

end SameState

section

variable {α β γ δ : Type} {R : α → β → Prop} {T : γ → δ → Prop} {t u : Token} {k : Token.Kind}
  {f g : Fault}

variable (r) in
/-- On the two streams, the parsers run in step. -/
abbrev Alike (R : α → β → Prop) (p : Parser α) (q : Parser β) : Prop :=
  Lockstep r.SameState r.SameError R p q

variable (r) in
/-- On the two streams, the parsers run in step from a token of kind `k` on. -/
def AlikeAt (k : Token.Kind) (R : α → β → Prop) (p : Parser α) (q : Parser β) : Prop :=
  ∀ s t, r.SameState s t → s.stream.kind = k → Abreast r.SameState r.SameError R (p s) (q t)

open StackCompiler.Parser

theorem alike_peek : r.Alike r.SameToken peek peek := fun _ _ h => .ok h.current h

theorem alike_is (k : Token.Kind) : r.Alike Eq (is k) (is k) := by
  intro s t h
  refine .ok ?_ h
  rw [h.kind]

theorem alike_accept (k : Token.Kind) (hk : k ≠ .eof) :
    r.Alike Eq (accept k) (accept k) := by
  intro s t h
  show Abreast _ _ _ (.ok (s.stream.accept k).1 { s with stream := (s.stream.accept k).2 })
    (.ok (t.stream.accept k).1 { t with stream := (t.stream.accept k).2 })
  unfold TokenStream.accept
  rw [← h.kind]
  split
  · next hs => exact .ok rfl (h.advance (hs ▸ hk))
  · exact .ok rfl h

theorem alike_expect (k : Token.Kind) (hk : k ≠ .eof) :
    r.Alike (fun t u => r.SameToken t u ∧ t.kind = k) (expect k) (expect k) := by
  intro s t h
  unfold expect TokenStream.expect
  by_cases hs : s.stream.kind = k
  · rw [if_pos hs, if_pos (h.kind ▸ hs)]
    exact .ok ⟨h.current, hs⟩ (h.advance (hs ▸ hk))
  · rw [if_neg hs, if_neg (h.kind ▸ hs)]
    exact .error (h.unexpected _) h

theorem alike_skip {p : Parser α} {q : Parser β} (hk : k ≠ .eof) (h : r.Alike R p q) :
    r.Alike R (expect k >>= fun _ => p) (expect k >>= fun _ => q) :=
  (alike_expect k hk).bind fun _ _ _ => h

theorem alike_fail (h : r.SameToken t u) (hf : r.Exact → f = g) :
    r.Alike R (fail t f) (fail u g) :=
  .throw ⟨h, fun hx => by rw [h.eq hx, hf hx]⟩

theorem alike_check {c d : Prop} [Decidable c] [Decidable d] {p k : Parser γ} {q k' : Parser δ}
    (hc : c ↔ d) (ht : r.SameToken t u) (hf : r.Exact → f = g) (h : r.Alike T p q) :
    r.Alike T (if c then p else fail t f >>= fun _ : Unit => k)
      (if d then q else fail u g >>= fun _ : Unit => k') :=
  .ite hc (fun _ => h) fun _ => .throw_bind ⟨ht, fun hx => by rw [ht.eq hx, hf hx]⟩

theorem alike_refuse {c d : Prop} [Decidable c] [Decidable d] {p k : Parser γ} {q k' : Parser δ}
    (hc : c ↔ d) (ht : r.SameToken t u) (hf : r.Exact → f = g) (h : r.Alike T p q) :
    r.Alike T (if c then fail t f >>= fun _ : Unit => k else p)
      (if d then fail u g >>= fun _ : Unit => k' else q) :=
  .ite hc (fun _ => .throw_bind ⟨ht, fun hx => by rw [ht.eq hx, hf hx]⟩) fun _ => h

theorem alike_unexpected (what : String) : r.Alike R (unexpected what) (unexpected what) :=
  fun _ _ h => .error (h.unexpected what) h

theorem alike_warn {n m : Notice} (h : r.SameToken t u) (hn : r.Exact → n = m) :
    r.Alike (fun _ _ => True) (warn t n) (warn u m) :=
  .modify fun _ _ hs => hs.warn h hn

theorem alike_separator (k : Token.Kind) (hk : k ≠ .eof) :
    r.Alike (fun _ _ => True) (separator k) (separator k) := by
  refine (alike_accept k hk).bind fun a b hab => ?_
  refine .ite (by rw [hab]) (fun _ => .pure trivial) fun _ => ?_
  exact alike_peek.bind fun t u h => alike_warn h (by grind)

theorem alike_noProgress : r.Alike R noProgress noProgress :=
  alike_peek.bind fun t u h => alike_fail h (by grind)

theorem AlikeAt.of {p : Parser α} {q : Parser β} (h : r.Alike R p q) : r.AlikeAt k R p q :=
  fun s t hs _ => h s t hs

theorem alike_peek_bind {f : Token → Parser α} {g : Token → Parser β}
    (h : ∀ t u, r.SameToken t u → r.AlikeAt t.kind R (f t) (g u)) :
    r.Alike R (peek >>= f) (peek >>= g) :=
  fun s t hs => h _ _ hs.current s t hs rfl

theorem alike_is_bind {f : Bool → Parser α} {g : Bool → Parser β}
    (h : r.AlikeAt k R (f true) (g true)) (h' : r.Alike R (f false) (g false)) :
    r.Alike R (is k >>= f) (is k >>= g) := by
  intro s t hs
  show Abreast _ _ _ (f (decide (s.stream.kind = k)) s) (g (decide (t.stream.kind = k)) t)
  rw [← hs.kind]
  by_cases hk : s.stream.kind = k
  · rw [decide_eq_true hk]
    exact h s t hs hk
  · rw [decide_eq_false hk]
    exact h' s t hs

theorem alikeAt_advance_bind {f : Token → Parser α} {g : Token → Parser β} (hk : k ≠ .eof)
    (h : ∀ t u, r.SameToken t u → t.kind = k → r.Alike R (f t) (g u)) :
    r.AlikeAt k R (advance >>= f) (advance >>= g) :=
  fun _ _ hs hs' => h _ _ hs.current hs' _ _ (hs.advance (hs' ▸ hk))

theorem alikeAt_warn_bind {p : Parser α} {q : Parser β} {n m : Notice} (ht : r.SameToken t u)
    (hn : r.Exact → n = m) (h : r.AlikeAt k R p q) :
    r.AlikeAt k R (warn t n >>= fun _ => p) (warn u m >>= fun _ => q) :=
  fun _ _ hs hk => h _ _ (hs.warn ht hn) hk

theorem inStep_sameState (r : Correspondence) : InStep r.SameState := by
  intro s t s' t' h h'
  obtain ⟨m, -, hs, ht⟩ := h.stream
  obtain ⟨m', hm', hs', ht'⟩ := h'.stream
  rw [hs, ht, hs', ht', r.ends.remaining_lt_iff hm', r.ends_right.remaining_lt_iff hm']

theorem alike_fix {body : Parser α → Parser α} {body' : Parser β → Parser β}
    (h : ∀ p q, r.Alike R p q → r.Alike R (body p) (body' q)) :
    r.Alike R (fix body) (fix body') :=
  lockstep_fix r.inStep_sameState alike_noProgress h

theorem alike_loop {f : γ → Parser (γ ⊕ α)} {g : δ → Parser (δ ⊕ β)}
    (h : ∀ c d, T c d → r.Alike (Sum.LiftRel T R) (f c) (g d)) {c : γ} {d : δ} (hT : T c d) :
    r.Alike R (loop f c) (loop g d) :=
  lockstep_loop r.inStep_sameState alike_noProgress h hT

theorem alike_commaList {p : Parser α} {q : Parser β} (h : r.Alike R p q) :
    r.Alike (List.Forall₂ R) (commaList p) (commaList q) :=
  lockstep_commaList r.inStep_sameState alike_noProgress (alike_accept .comma (by simp)) h

theorem alike_whileList {more more' : Parser Bool} {p : Parser α} {q : Parser β}
    (hm : r.Alike Eq more more') (h : r.Alike R p q) :
    r.Alike (List.Forall₂ R) (whileList more p) (whileList more' q) :=
  lockstep_whileList r.inStep_sameState alike_noProgress hm h

section

variable {operator? : Token.Kind → Option Node.Kind} {ops : List Node.Kind}
  (hop : ∀ {w k}, operator? w = some k → w = k.operator ∧ k ∈ ops)
  (hops : ∀ k ∈ ops, k.isPlain = true ∧ k.operator ≠ .eof)
include hop hops

theorem alike_operator_bind {f : Option Node.Kind → Parser α} {g : Option Node.Kind → Parser β}
    (hsome : ∀ k, k.isPlain = true → k.operator ≠ .eof →
      r.AlikeAt k.operator R (f (some k)) (g (some k)))
    (hnone : r.Alike R (f none) (g none)) :
    r.Alike R (look operator? >>= f) (look operator? >>= g) := by
  intro s t hs
  show Abreast _ _ _ (f (operator? s.stream.kind) s) (g (operator? t.stream.kind) t)
  rw [← hs.kind]
  cases hk : operator? s.stream.kind with
  | none => exact hnone s t hs
  | some k =>
    obtain ⟨hw, hm⟩ := hop hk
    obtain ⟨hplain, hne⟩ := hops k hm
    exact hsome k hplain hne s t hs hw

theorem alike_leftChain {p q : Parser Node}
    {combine : Node.Kind → Node → Node → Token → Token → Token → Parser Node}
    (h : r.Alike r.SameItem p q)
    (hc : ∀ {k a b a' b' t u t' u' o o'}, k.isPlain = true → r.SameItem a b → r.SameItem a' b' →
      r.SameToken t u → r.SameToken t' u' → r.SameToken o o' →
      r.Alike r.SameItem (combine k a a' t t' o) (combine k b b' u u' o')) :
    r.Alike r.SameItem (leftChain p operator? combine) (leftChain q operator? combine) := by
  refine alike_peek.bind fun t u ht => ?_
  refine h.bind fun a b hab => ?_
  refine alike_loop (T := r.SameItem)
    (f := fun left => look operator? >>= chainLink p combine t left)
    (g := fun left => look operator? >>= chainLink q combine u left) (fun a b hab => ?_) hab
  refine alike_operator_bind hop hops (fun k hk hne => ?_) (.pure (.inr hab))
  refine alikeAt_advance_bind hne fun o o' ho _ => ?_
  refine alike_peek.bind fun t' u' ht' => ?_
  refine h.bind fun a' b' hab' => ?_
  exact (hc hk hab hab' ht ht' ho).bind fun _ _ hn => .pure (.inl hn)

end

variable {a b : String}

theorem alike_createScope (h : r.SameScope a b) :
    r.Alike (fun _ _ => True) (createScope a) (createScope b) :=
  .modify fun _ _ hs =>
    { hs with
      scopes := hs.scopes.create h
      exact := fun hx => by rw [hs.exact hx, (hx.scope a b).1 h] }

theorem alike_leaveScope : r.Alike (fun _ _ => True) leaveScope leaveScope :=
  .modify fun _ _ hs =>
    { hs with
      scopes := hs.scopes.leave
      exact := fun hx => by rw [hs.exact hx] }

theorem alike_statementScope {construct : String} (hc : ':' ∉ construct.toList)
    (h : r.SameToken t u) :
    r.Alike r.SameScope (statementScope construct t) (statementScope construct u) :=
  fun _ _ hs => .ok (h.scope (rel_getD hs.scopes.current? r.scope_global) hc) hs

theorem alike_resolve (h : r.SameName a b) : r.Alike Eq (resolve a) (resolve b) :=
  fun _ _ hs => .ok (hs.scopes.resolve h) hs

variable (r) in
/-- What is known of symbols with the same number. -/
structure SameFound (x y : Option Symbol) : Prop where
  rel : Option.Rel r.SameSymbol x y
  exact : r.Exact → x = y

attribute [grind →] SameFound.exact

theorem alike_symbol? (id : Symbol.Id) : r.Alike r.SameFound (symbol? id) (symbol? id) :=
  fun _ _ hs => .ok ⟨hs.scopes.symbol? id, fun hx => by rw [hs.exact hx]⟩ hs

theorem alike_checkFresh (h : r.SameToken t u) (hk : t.kind = .ident) :
    r.Alike (fun _ _ => True) (checkFresh t) (checkFresh u) := by
  refine Lockstep.get.bind fun s s' hs => ?_
  refine .ite (by rw [hs.scopes.declaresHere (h.name hk)]) (fun _ => ?_) fun _ => .pure trivial
  exact alike_fail h (by grind)

theorem alike_declare (h : r.SameToken t u) (hk : t.kind = .ident) {kind : Symbol.Kind}
    {as bs : List Symbol.Attribute} (hab : List.Forall₂ r.SameAttribute as bs)
    (region : Option Region) :
    r.Alike Eq (declare t (.new kind t.text t.position as) region)
      (declare u (.new kind u.text u.position bs) region) := by
  refine (alike_checkFresh h hk).bind fun _ _ _ => ?_
  refine .modifyGet fun s s' hs => ?_
  obtain ⟨hid, hd⟩ := hs.scopes.declare (SameSymbol.new hab) (h.name hk) region
  refine ⟨hid, { hs with scopes := hd, exact := fun hx => ?_ }⟩
  have heq : as = bs := List.forall₂_eq_eq_eq ▸ hab.imp fun _ _ h => h.eq hx
  rw [hs.exact hx, h.eq hx, heq]

theorem alike_addAttribute (id : Symbol.Id) {x y : Symbol.Attribute} (h : r.SameAttribute x y) :
    r.Alike (fun _ _ => True) (addAttribute id x) (addAttribute id y) :=
  .modify fun _ _ hs =>
    { hs with
      scopes := hs.scopes.addAttribute id h
      exact := fun hx => by rw [hs.exact hx, h.eq hx] }

theorem alike_typeOf (h : r.SameItem n n') : r.Alike r.SameType (typeOf n) (typeOf n') := by
  intro s t hs
  refine .ok ?_ hs
  rw [h.tree.symbol]
  cases n'.symbol with
  | none => exact .void
  | some id => exact hs.scopes.valueType id

theorem alike_typed (h : r.SameItem n n') {x y : DataType} (hxy : r.SameType x y)
    (ht : r.SameToken t u) : r.Alike r.SameItem (typed n x t) (typed n' y u) := by
  refine .modifyGet fun s s' hs => ?_
  obtain ⟨hid, ha⟩ := hs.scopes.addTemporary hxy t.position u.position
  refine ⟨?_, { hs with scopes := ha, exact := fun hx => ?_ }⟩
  · dsimp only
    rw [hid]
    exact h.withSymbol _
  · rw [hs.exact hx, hxy.eq hx, ht.eq hx]

theorem alike_intern (key : String) (ht : r.SameToken t u) (k : Symbol.Kind) {x y : DataType}
    (hxy : r.SameType x y) {v w : Symbol.Attribute} (hv : r.SameAttribute v w) :
    r.Alike Eq (intern key t k x v) (intern key u k y w) := by
  refine .modifyGet fun s s' hs => ?_
  dsimp only
  rw [hs.scopes.resolveConstant key]
  split
  · exact ⟨rfl, hs⟩
  · obtain ⟨hid, ha⟩ := hs.scopes.addConstant key
      (SameSymbol.new (k := k) (.cons hv (.cons (.dataType hxy) .nil)))
    refine ⟨hid, { hs with scopes := ha, exact := fun hx => ?_ }⟩
    rw [hs.exact hx, hxy.eq hx, hv.eq hx, ht.eq hx]

end

end Correspondence

end StackCompiler
