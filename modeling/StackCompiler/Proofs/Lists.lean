import StackCompiler.Program.Code
import StackCompiler.Proofs.Correspondence.Programs
import StackCompiler.Proofs.Emission.Statements

/-!
# Lists in a tree

A list of any length is kept in a tree as a chain of nodes. A chain is taken apart into the items it
was made of, unless its last item is a chain of the same kind. No item that a parser reads is a
chain, so code is made for the items of a list as they were read: all of them, each once, in order.
-/

namespace StackCompiler

namespace Node

variable {k : Kind}

theorem map_items_list (k : Kind) (xs : List Node) (z : Node) :
    (list k (xs ++ [z])).map (items k) = some (xs ++ z.items k) := by
  induction xs with
  | nil => rfl
  | cons a xs ih =>
    obtain ⟨n, hn, hitems⟩ := Option.map_eq_some_iff.1 ih
    rw [List.cons_append, list_cons, hn, Option.elim_some, Option.map_some, items_binary, hitems]
    rfl

theorem sizeOf_le_of_mem_items {n m : Node} (h : m ∈ n.items k) :
    sizeOf m ≤ sizeOf n ∧ (n.kind = k → sizeOf m < sizeOf n) := by
  have hchain {v : Option String} {s : Option Symbol.Id} {l c r : Option Node}
      (hlt : sizeOf m < sizeOf (mk k v s l c r)) : sizeOf m ≤ sizeOf (mk k v s l c r) ∧
        ((mk k v s l c r).kind = k → sizeOf m < sizeOf (mk k v s l c r)) :=
    ⟨Nat.le_of_lt hlt, fun _ => hlt⟩
  fun_induction items k n with
  | case1 v s l c rest ih =>
    refine hchain ?_
    rcases List.mem_append.1 h with h | h
    · obtain rfl := Option.mem_toList.1 h
      simp
      omega
    · have := (ih h).1
      simp
      omega
  | case2 v s l c =>
    obtain rfl := Option.mem_toList.1 h
    refine hchain ?_
    simp
    omega
  | case3 kind v s l c r hk =>
    obtain rfl := List.mem_singleton.1 h
    exact ⟨Nat.le_refl _, fun h => absurd h hk⟩

theorem items_eq_singleton {z : Node} : z.items k = [z] ↔ z.kind ≠ k := by
  refine ⟨fun h hz => ?_, items_of_kind_ne⟩
  exact Nat.lt_irrefl _ ((sizeOf_le_of_mem_items (h ▸ List.mem_singleton_self z)).2 hz)

theorem map_items_list_eq_self (k : Kind) (xs : List Node) (z : Node) :
    (list k (xs ++ [z])).map (items k) = some (xs ++ [z]) ↔ z.kind ≠ k := by
  rw [map_items_list, Option.some.injEq, List.append_cancel_left_eq, items_eq_singleton]

end Node

namespace Emitter

theorem blockCode_eq_forM (routine : Routine) (n : Node) : blockCode routine n =
    forM (n.items .statements) fun m =>
      if m.kind = .statements then misplaced m.kind .statement else blockCode routine m := by
  fun_induction Node.items .statements n with
  | case1 v s l c rest ih =>
    rw [List.forM_append, ← ih]
    cases l with
    | none => exact blockCode_tail
    | some m =>
      rw [blockCode_chain, Option.toList_some, List.forM_cons, List.forM_nil, bind_assoc]
      split <;> rfl
  | case2 v s l c =>
    cases l with
    | none => exact blockCode_tail
    | some m =>
      rw [blockCode_chain, Option.toList_some, List.forM_cons, List.forM_nil]
      split <;> rfl
  | case3 kind v s l c r hk =>
    simp [Node.kind, hk]

theorem values_chain (v : Option String) (s : Option Symbol.Id) (l c r : Option Node) :
    values (.mk .expressionList v s l c r) =
      (r.map values).getD (pure ()) >>= fun _ => (l.map value).getD (pure ()) := by
  cases l <;> cases r <;> rfl

theorem values_eq_forM (n : Node) : values n = forM (n.items .expressionList).reverse value := by
  fun_induction Node.items .expressionList n with
  | case1 v s l c rest ih =>
    rw [values_chain, List.reverse_append, List.forM_append, ← ih]
    cases l <;> simp
  | case2 v s l c =>
    rw [values_chain]
    cases l <;> simp
  | case3 kind v s l c r hk =>
    simp [value, single, Node.kind, hk]

end Emitter

namespace Parser

open StackCompiler.Correspondence

variable {α β : Type}

/-- What the parser reads has the property. -/
def Gives (R : α → Prop) (p : Parser α) : Prop := ∀ s, Reads p (fun a _ => R a) s

theorem Gives.pure {R : α → Prop} {a : α} (h : R a) : Gives R (pure a) := fun _ => h

theorem Gives.bind {R : α → Prop} (x : Parser β) {f : β → Parser α} (h : ∀ b, Gives R (f b)) :
    Gives R (x >>= f) := by
  intro s
  rw [Reads, wp_bind, wp]
  split
  · exact h _ _
  · trivial

/-- A stream corresponds to itself. -/
theorem gives_single {p : Parser Node} (h : ∀ r : Correspondence, r.Alike r.SameItem p p) :
    Gives Node.Single p := by
  intro s
  obtain ⟨n, hends⟩ := s.stream.exists_endsAfter
  have hrun := h _ s s (.start hends (fun _ _ => rfl) s rfl)
  rw [Reads, wp]
  generalize p s = x at hrun
  cases hrun with
  | ok hn _ => exact hn.single
  | error _ _ => trivial

theorem single_expression : Gives Node.Single expression := gives_single fun _ => alike_expression

theorem single_declaration (region : Option Region) (isParameter : Bool) :
    Gives Node.Single (declaration region isParameter) :=
  gives_single fun _ => alike_declaration region isParameter

/-! ## Items in a row -/

/-- The values of runs of `item`, one behind the other. There is a first one if `ask` says so, and
another one as long as `more` does. -/
inductive Series (more : Parser Bool) (item : Parser α) :
    Parser Bool → State → List α → State → Prop
  | done {ask : Parser Bool} {s s' : State} (h : ask s = .ok false s') :
      Series more item ask s [] s'
  | next {ask : Parser Bool} {s s₁ s₂ s' : State} {a : α} {as : List α} (h : ask s = .ok true s₁)
      (ha : item s₁ = .ok a s₂) (has : Series more item more s₂ as s') :
      Series more item ask s (a :: as) s'

section Series

variable {ask more : Parser Bool} {item : Parser α} {s s₁ s' : State} {as : List α}

namespace Series

theorem of_pure (h : Series more item (pure true) s₁ as s') (hs : ask s = .ok true s₁) :
    Series more item ask s as s' := by
  cases h with
  | done h => cases h
  | next h ha has =>
    cases h
    exact .next hs ha has

theorem all {R : α → Prop} (h : Series more item ask s as s') (hi : Gives R item) :
    ∀ a ∈ as, R a := by
  induction h with
  | done _ => simp
  | next _ ha _ ih => exact List.forall_mem_cons.2 ⟨wp_of_ok (Q := fun a _ => R a) (hi _) ha, ih⟩

theorem map {f : α → β} {p : Parser β} (h : Series more item ask s as s')
    (hi : ∀ s a s', item s = .ok a s' → p s = .ok (f a) s') :
    Series more p ask s (as.map f) s' := by
  induction h with
  | done h => exact .done h
  | next h ha _ ih => exact .next h (hi _ _ _ ha) ih

end Series

theorem reads_of_ok {p : Parser α} {Q : α → State → Prop} (h : ∀ a s', p s = .ok a s' → Q a s') :
    Reads p Q s := by
  rw [Reads, wp]
  split
  · exact h _ _ ‹_›
  · trivial

theorem series_whileList : Reads (whileList more item) (Series more item more s) s := by
  refine reads_loop (I := fun (before : List α) s₁ => ∀ as s', Series more item more s₁ as s' →
    Series more item more s (before.reverse ++ as) s') (fun before s₁ hb => ?_) [] s fun _ _ h => h
  rw [Reads, wp_bind]
  refine reads_of_ok fun c s₂ hm => ?_
  cases c with
  | false => simpa [wp_pure] using hb [] s₂ (.done hm)
  | true =>
    rw [if_pos rfl, wp_bind]
    refine reads_of_ok fun a s₃ ha as s' has => ?_
    simpa using hb (a :: as) s' (.next hm ha has)

/-- A loop whose steps read an item each, and end it if there are no more. -/
theorem series_loop {step : List α → Parser (List α ⊕ List α)}
    (h : ∀ before s, Reads (step before) (fun r s' => ∃ a s₁, item s = .ok a s₁ ∧
      (more s₁ = .ok true s' ∧ r = .inl (a :: before) ∨
        more s₁ = .ok false s' ∧ r = .inr (a :: before).reverse)) s) :
    Reads (loop step []) (Series more item (pure true) s) s := by
  refine reads_loop (I := fun (before : List α) s₁ => ∀ as s',
    Series more item (pure true) s₁ as s' → Series more item (pure true) s (before.reverse ++ as) s')
    (fun before s₁ hb => ?_) [] s fun _ _ h => h
  refine wp_mono (h before s₁) ?_
  rintro _ s₃ ⟨a, s₂, ha, ⟨hm, rfl⟩ | ⟨hm, rfl⟩⟩
  · intro as s' has
    simpa using hb (a :: as) s' (.next rfl ha (has.of_pure hm))
  · simpa using hb [a] s₃ (.next rfl ha (.done hm))

theorem series_commaList :
    Reads (commaList item) (Series (accept .comma) item (pure true) s) s := by
  refine series_loop fun before s => ?_
  rw [Reads, wp_bind]
  refine reads_of_ok fun a s₁ ha => ?_
  rw [wp_bind]
  refine reads_of_ok fun c s₂ hm => ?_
  cases c with
  | true => exact ⟨a, s₁, ha, .inl ⟨hm, rfl⟩⟩
  | false => exact ⟨a, s₁, ha, .inr ⟨hm, rfl⟩⟩

/-- Whether another statement follows in a block. -/
def goesOn : Parser Bool := do return !((← atBlockEnd) || (← atEnd))

theorem series_statementList (b : Parser (Option Node)) :
    Reads (statementList b) (Series goesOn (statement b) (pure true) s) s := by
  refine series_loop fun before s => ?_
  rw [Reads, wp_bind]
  refine reads_of_ok fun n s₁ hn => ?_
  simp only [wp_bind]
  refine reads_of_ok fun c s₂ hc => reads_of_ok fun d s₃ hd => ?_
  have hm : goesOn s₁ = .ok (!(c || d)) s₃ := (bind_of_ok hc).trans (bind_of_ok hd)
  generalize (c || d) = stop at hm ⊢
  cases stop with
  | true => exact ⟨n, s₁, hn, .inr ⟨hm, rfl⟩⟩
  | false => exact ⟨n, s₁, hn, .inl ⟨hm, rfl⟩⟩

theorem series_unless {c : Parser Bool} {q : Parser (List α)}
    (h : ∀ s, Reads q (Series more item (pure true) s) s) :
    Reads (c >>= fun b => if b then pure [] else q) (Series more item ((! ·) <$> c) s) s := by
  rw [Reads, wp_bind]
  refine reads_of_ok fun b s₁ hb => ?_
  have hask : ((! ·) <$> c) s = .ok (!b) s₁ := by simp only [Functor.map, EStateM.map, hb]
  cases b with
  | true => exact .done hask
  | false => exact wp_mono (h s₁) fun as s' has => has.of_pure hask

end Series

/-- What `p` reads, `q` reads as well. -/
def Under (p q : Parser α) : Prop := ∀ s a s', p s = .ok a s' → q s = .ok a s'

namespace Under

variable {p q : Parser α} {f g : α → Parser β}

theorem refl (p : Parser α) : Under p p := fun _ _ _ h => h

theorem bind (h : Under p q) (hf : ∀ a, Under (f a) (g a)) : Under (p >>= f) (q >>= g) := by
  intro s b s' hs
  cases hp : p s with
  | error e s₁ => cases (bind_of_error hp).symm.trans hs
  | ok a s₁ =>
    rw [bind_of_ok (h s a s₁ hp)]
    exact hf a s₁ b s' ((bind_of_ok hp).symm.trans hs)

theorem next (p : Parser α) (hf : ∀ a, Under (f a) (g a)) : Under (p >>= f) (p >>= g) :=
  (refl p).bind hf

theorem ite {c : Prop} [Decidable c] {p' q' : Parser α} (h : Under p q) (h' : Under p' q') :
    Under (if c then p else p') (if c then q else q') := by
  split
  · exact h
  · exact h'

end Under

theorem under_statement {b b' : Parser (Option Node)} (h : Under b b') :
    Under (statement b) (statement b') := by
  refine .next _ fun t => ?_
  split
  · refine .next _ fun t => .next _ fun scope => .next _ fun _ => .next _ fun _ => ?_
    refine .next _ fun c => .ite ?_ ?_
    all_goals
      refine .next _ fun start => .next _ fun _ => .next _ fun test => .next _ fun _ => ?_
      exact h.bind fun body => .refl _
  · refine .next _ fun t => .next _ fun scope => .next _ fun _ => .next _ fun _ => ?_
    refine .next _ fun test => .next _ fun _ => h.bind fun body => .next _ fun c => ?_
    exact .ite (h.bind fun other => .refl _) (.refl _)
  · refine .bind (.next _ fun t => ?_) fun n => .refl _
    split
    · refine .next _ fun t => .next _ fun scope => .next _ fun _ => .next _ fun _ => ?_
      refine .next _ fun c => .ite ?_ ?_
      all_goals
        refine .next _ fun start => .next _ fun _ => h.bind fun body => .refl _
    all_goals exact .refl _

/-! ## Lists that parsers make -/

/-- A run of the parser begins with `lead`. In the state that this leaves `item` is run for the
first time, again where it ends, and so on, and the rest of the run follows on the last of these
runs. The items of the list that is made are what `item` has read. -/
def Lists (k : Node.Kind) (lead : Parser β) (ask more : Parser Bool) (item : Parser Node)
    (p : Parser (Option Node)) : Prop :=
  ∃ rest : β → List Node → Parser (Option Node), ∀ s, Reads p (fun list s' => ∃ b s₁ s₂,
    lead s = .ok b s₁ ∧ Series more item ask s₁ (Node.listed k list) s₂ ∧
    rest b (Node.listed k list) s₂ = .ok list s') s

section

variable {k : Node.Kind} {lead : Parser β} {ask more : Parser Bool} {item : Parser Node}
  {rest : β → List Node → Parser (Option Node)}

theorem Series.listed (k : Node.Kind) {s s' : State} {xs : List Node}
    (h : Series more item ask s xs s') (hi : Gives Node.Single item) (hk : k.isList = true) :
    Node.listed k (Node.list k xs) = xs :=
  Node.listed_list fun n hn => Node.kind_ne_of_not_list (h.all hi n hn) hk

theorem lists_bind {q : Parser (List Node)} (lead : Parser β)
    (hq : ∀ s, Reads q (Series more item ask s) s) (hi : Gives Node.Single item)
    (hk : k.isList = true) (hrest : ∀ b xs, Gives (· = Node.list k xs) (rest b xs)) :
    Lists k lead ask more item (lead >>= fun b => q >>= rest b) := by
  refine ⟨rest, fun s => ?_⟩
  rw [Reads, wp_bind]
  refine reads_of_ok fun b s₁ hb => ?_
  rw [wp_bind]
  refine wp_mono (hq s₁) fun xs s₂ h => reads_of_ok fun list s' hlist => ?_
  obtain rfl := wp_of_ok (Q := fun list _ => list = Node.list k xs) (hrest b xs s₂) hlist
  rw [h.listed k hi hk]
  exact ⟨b, s₁, s₂, hb, h, hlist⟩

end

theorem lists_assignments : Lists .assignList (pure ()) (pure true) (accept .comma)
    (expect .ident >>= assignmentTo) assignments :=
  lists_bind (pure ()) (fun _ => series_commaList)
    (gives_single fun r =>
      (alike_expect .ident (by simp)).bind fun _ _ h => alike_assignmentTo h.1 h.2)
    rfl fun _ _ => .pure rfl

theorem lists_inputStatement : Lists .variableList (expect (.keyword .input)) (pure true)
    (accept .comma) inputTarget (Node.left <$> inputStatement) := by
  simp only [inputStatement, map_bind, map_pure]
  exact lists_bind _ (fun _ => series_commaList) (gives_single fun _ => alike_inputTarget) rfl
    fun _ _ => .pure rfl

theorem lists_printStatement (k : Node.Kind) : Lists .printList advance (pure true) (accept .comma)
    printEntry (Node.left <$> printStatement k) := by
  simp only [printStatement, map_bind, map_pure]
  exact lists_bind _ (fun _ => series_commaList) (gives_single fun _ => alike_printEntry) rfl
    fun _ _ => .pure rfl

theorem left_named {k : Node.Kind} {text : String} {id : Symbol.Id} {l c r : Option Node} :
    (((Node.branch k l c r).withValue text).withSymbol id).left = l := rfl

theorem checkArguments_keeps {args : List (Token × Node)} {params : List Symbol.Id} (s : State) :
    Reads (checkArguments args params) (fun _ s' => s' = s) s := by
  induction args generalizing params with
  | nil => exact rfl
  | cons arg args ih =>
    cases params with
    | nil => exact rfl
    | cons id params =>
      simp only [checkArguments, symbol?, typeOf, wp_bind, wp_get, wp_pure, wp_ite]
      exact ⟨fun _ => ih, fun _ => reads_fail arg.1 _⟩

theorem lists_callNamed {e : Parser Node} (he : Under e expression) (name : Token)
    (k : Node.Kind) : Lists .expressionList (expect .leftParen) ((! ·) <$> is .rightParen)
      (accept .comma) expression (Node.left <$> callNamed e name k) := by
  -- Only the parenthesis that closes the arguments is consumed behind them.
  refine ⟨fun _ xs => do
    let _ ← expect .rightParen
    return Node.list .expressionList xs, fun s => ?_⟩
  simp only [callNamed, resolve, symbol?, Reads, wp_map, wp_bind, wp_get, wp_pure]
  split
  · exact reads_fail name _
  · next id _ =>
    simp only [wp_bind, wp_get, wp_pure, wp_ite]
    refine ⟨fun _ => ?_, fun _ => reads_fail name _⟩
    refine reads_of_ok fun _ s₁ hs₁ => ?_
    refine wp_mono (series_unless fun s => series_commaList) fun args s₂ h => ?_
    refine reads_of_ok fun _ s₃ hs₃ => ⟨fun _ => ?_, fun _ => reads_fail name _⟩
    refine wp_mono (checkArguments_keeps s₃) fun _ s₄ hs₄ => ?_
    have hxs := h.map (f := Prod.snd) (p := expression) fun s a s' ha => ?_
    · rw [left_named, hxs.listed .expressionList single_expression rfl, hs₄]
      exact ⟨_, s₁, s₂, hs₁, hxs, bind_of_ok hs₃⟩
    · cases hn : e s with
      | error f s₁ => cases (bind_of_error hn).symm.trans ha
      | ok n s₁ =>
        cases (bind_of_ok hn).symm.trans ha
        exact he s n s' hn

/-- A recursive parser may be taken to read no more in its body. -/
theorem reads_fix_under {body : Parser α → Parser α} {Q : State → α → State → Prop}
    (h : ∀ p, Under p (fix body) → ∀ s, Reads (body p) (Q s) s) (s : State) :
    Reads (fix body) (Q s) s := by
  rw [Reads, wp, fix]
  refine h _ (fun s₁ a s₂ hs => ?_) s
  split at hs
  · exact hs
  · cases hs

theorem lists_block : Lists .statements (pure ()) ((! ·) <$> atBlockEnd) goesOn (statement block)
    block := by
  refine ⟨fun _ xs => do
    if xs.isEmpty then warn (← peek) .emptyBlock
    return Node.list .statements xs, reads_fix_under fun b hb s => ?_⟩
  rw [Reads, wp_bind]
  refine reads_of_ok fun c s₁ hc => ?_
  have hask : ((! ·) <$> atBlockEnd) s = .ok (!c) s₁ := by simp only [Functor.map, EStateM.map, hc]
  cases c with
  | true => exact ⟨(), s, s₁, rfl, .done hask, rfl⟩
  | false =>
    refine (wp_bind _ _ _ _).2 (wp_mono (series_statementList b) fun xs s' h => ?_)
    have hxs := (h.of_pure hask).map (f := id) (under_statement hb)
    rw [List.map_id] at hxs
    show ∃ _ _ _, _
    rw [hxs.listed .statements (gives_single fun _ => alike_statement alike_block) rfl]
    refine ⟨(), s, s', rfl, hxs, ?_⟩
    cases h with
    | done h => cases h
    | next => rfl

theorem lists_declarations (region : Region) : Lists .declList (pure ()) (is .ident)
    (accept .comma) (declaration (some region) false) (declarations region) := by
  refine ⟨fun _ xs => pure (Node.list .declList xs), fun s => ?_⟩
  rw [declarations, Reads, wp_bind]
  refine reads_of_ok fun b s₁ hb => ?_
  cases b with
  | false => exact ⟨(), s, s₁, rfl, .done hb, rfl⟩
  | true =>
    rw [if_pos rfl, wp_bind]
    refine wp_mono series_commaList fun xs s' h => ?_
    show ∃ _ _ _, _
    rw [h.listed .declList (single_declaration _ _) rfl]
    exact ⟨(), s, s', rfl, h.of_pure hb, rfl⟩

theorem lists_constants : Lists .initList (pure ()) (pure true) (accept .comma) constant
    constants :=
  lists_bind (pure ()) (fun _ => series_commaList) (gives_single fun _ => alike_constant) rfl
    fun _ _ => .pure rfl

theorem lists_typeDefinitions : Lists .typeList (pure ()) (pure true) (is .ident) typeDefinition
    typeDefinitions := by
  refine ⟨fun _ xs => pure (Node.list .typeList xs), fun s => ?_⟩
  rw [typeDefinitions, Reads, wp_bind]
  refine reads_of_ok fun first s₁ hfirst => ?_
  rw [wp_bind]
  refine wp_mono series_whileList fun xs s' h => ?_
  have hrow : Series (is .ident) typeDefinition (pure true) s (first :: xs) s' := .next rfl hfirst h
  show ∃ _ _ _, _
  rw [hrow.listed .typeList (gives_single fun _ => alike_typeDefinition) rfl]
  exact ⟨(), s, s', rfl, hrow, rfl⟩

/-- What is done before the fields of a record type are read. -/
def recordHead (name : Token) : Parser Symbol.Id := do
  let sym := Symbol.new .typeName name.text name.position [.dataType (.struct name.text)]
  let id ← declare name sym none
  createScope ("__struct__" ++ name.text)
  return id

theorem lists_recordType (name : Token) : Lists .structFields (recordHead name) (pure true)
    (accept .comma) (declaration none false) (Node.left <$> recordType name) := by
  have hsplit : Node.left <$> recordType name = recordHead name >>= fun _ =>
      commaList (declaration none false) >>= fun fields => expect (.keyword .endWord) >>= fun _ =>
        leaveScope >>= fun _ => pure (Node.list .structFields fields) := by
    simp only [recordType, recordHead, map_bind, map_pure, bind_assoc, pure_bind, left_named]
  rw [hsplit]
  exact lists_bind _ (fun _ => series_commaList) (single_declaration _ _) rfl
    fun _ _ => .bind _ fun _ => .bind _ fun _ => .pure rfl

theorem lists_arrayDeclarations : Lists .arrayDecls (pure ()) (pure true) (accept .comma)
    arrayDeclaration arrayDeclarations :=
  lists_bind (pure ()) (fun _ => series_commaList) (gives_single fun _ => alike_arrayDeclaration)
    rfl fun _ _ => .pure rfl

theorem lists_functions : Lists .functions (pure ()) (is (.keyword .func)) (is (.keyword .func))
    function functions :=
  lists_bind (pure ()) (fun _ => series_whileList) (gives_single fun _ => alike_function) rfl
    fun _ _ => .pure rfl

/-- What is done before the parameters of a function are read. -/
def functionHead : Parser Symbol.Id := do
  let _ ← expect (.keyword .func)
  let name ← expect .ident
  let id ← declare name (.new .function name.text name.position []) none
  createScope (functionScope name.text)
  let _ ← expect .leftParen
  return id

theorem lists_function : Lists .paramList functionHead ((! ·) <$> is .rightParen) (accept .comma)
    (declaration (some .declarations) true) (Node.left <$> function) := by
  have hsplit (f : Symbol.Id → List Node → Parser (Option Node)) :
      (expect (.keyword .func) >>= fun _ => expect .ident >>= fun name =>
        declare name (.new .function name.text name.position []) none >>= fun id =>
          createScope (functionScope name.text) >>= fun _ => expect .leftParen >>= fun _ =>
            parameters >>= f id) = functionHead >>= fun id => parameters >>= f id := by
    simp only [functionHead, bind_assoc, pure_bind]
  simp only [function, map_bind, map_pure, left_named]
  rw [hsplit]
  refine lists_bind functionHead (fun _ => series_unless fun _ => series_commaList)
    (single_declaration _ _) rfl fun id params => ?_
  refine .bind _ fun _ => .bind _ fun _ => .bind _ fun _ => .bind _ fun _ => .bind _ fun _ => ?_
  refine .bind _ fun locals => .bind _ fun _ => .bind _ fun body => .bind _ fun _ => ?_
  exact .bind _ fun _ => .pure rfl

end Parser

open StackCompiler.Parser StackCompiler.Emitter

/-- A list is taken apart into the items it was made of exactly if the last of them is no chain of
its kind. All lists that are read are, so the items of each are what was read for it. Blocks and
arguments are compiled item by item too. -/
theorem lists_round_trip :
    (∀ k xs z, (Node.list k (xs ++ [z])).map (Node.items k) = some (xs ++ [z]) ↔ z.kind ≠ k) ∧
    Lists .assignList (pure ()) (pure true) (accept .comma) (expect .ident >>= assignmentTo)
      assignments ∧
    Lists .variableList (expect (.keyword .input)) (pure true) (accept .comma) inputTarget
      (Node.left <$> inputStatement) ∧
    (∀ k, Lists .printList advance (pure true) (accept .comma) printEntry
      (Node.left <$> printStatement k)) ∧
    (∀ e name k, Under e expression → Lists .expressionList (expect .leftParen)
      ((! ·) <$> is .rightParen) (accept .comma) expression (Node.left <$> callNamed e name k)) ∧
    Lists .statements (pure ()) ((! ·) <$> atBlockEnd) goesOn (statement block) block ∧
    (∀ region, Lists .declList (pure ()) (is .ident) (accept .comma)
      (declaration (some region) false) (declarations region)) ∧
    Lists .initList (pure ()) (pure true) (accept .comma) constant constants ∧
    Lists .typeList (pure ()) (pure true) (is .ident) typeDefinition typeDefinitions ∧
    (∀ name, Lists .structFields (recordHead name) (pure true) (accept .comma)
      (declaration none false) (Node.left <$> recordType name)) ∧
    Lists .arrayDecls (pure ()) (pure true) (accept .comma) arrayDeclaration arrayDeclarations ∧
    Lists .functions (pure ()) (is (.keyword .func)) (is (.keyword .func)) function functions ∧
    Lists .paramList functionHead ((! ·) <$> is .rightParen) (accept .comma)
      (declaration (some .declarations) true) (Node.left <$> function) ∧
    (∀ routine n, blockCode routine n = forM (n.items .statements) fun m =>
      if m.kind = .statements then misplaced m.kind .statement else blockCode routine m) ∧
    ∀ n, values n = forM (n.items .expressionList).reverse value :=
  ⟨Node.map_items_list_eq_self, lists_assignments, lists_inputStatement, lists_printStatement,
    fun _ name k h => lists_callNamed h name k, lists_block, lists_declarations, lists_constants,
    lists_typeDefinitions, lists_recordType, lists_arrayDeclarations, lists_functions,
    lists_function, blockCode_eq_forM, values_eq_forM⟩

end StackCompiler
