import StackCompiler.Proofs.Lexemes
import StackCompiler.Proofs.Logic
import StackCompiler.Proofs.Scoping

/-!
# Reading tokens, names and literals

The steps that all parsers are made of: which tokens they give, and what they leave of the state.
-/

namespace StackCompiler.Parser

variable {α : Type} {s s' s'' : State} {names : Names} {ret : Option DataType}

namespace State

/-- Only the place in the stream, the diagnostics and the log differ. -/
structure Moves (s s' : State) : Prop where
  tokens : s'.stream.tokens = s.stream.tokens
  function : s'.function = s.function
  scopes : s'.scopes = s.scopes

/-- What reading a part of a body does to the state. -/
structure Grows (s s' : State) : Prop where
  tokens : s'.stream.tokens = s.stream.tokens
  function : s'.function = s.function
  scopes : s.scopes.Grows s'.scopes
  valid : s.scopes.Valid → s'.scopes.Valid

/-- All tokens carry what the lexer puts into tokens of their kind. -/
def Lexed (s : State) : Prop := ∀ t ∈ s.stream.tokens, t.Lexed

/-- What is read belongs to a function of the given return type, or to none. -/
def Returns (s : State) : Option DataType → Prop
  | none => s.function = none
  | some t => ∃ id sym, s.function = some id ∧ s.scopes.symbol? id = some sym ∧
      sym.returnType?.getD .void = t

/-- The state while a part of a body is read, where names stand for what `names` says. -/
structure Body (names : Names) (ret : Option DataType) (s : State) : Prop where
  lexed : s.Lexed
  valid : s.scopes.Valid
  resolve : ∀ name, s.scopes.resolve name = names name
  returns : s.Returns ret

theorem Moves.refl (s : State) : s.Moves s := ⟨rfl, rfl, rfl⟩

theorem Moves.trans (h : s.Moves s') (h' : s'.Moves s'') : s.Moves s'' :=
  ⟨h'.tokens.trans h.tokens, h'.function.trans h.function, h'.scopes.trans h.scopes⟩

theorem Moves.grows (h : s.Moves s') : s.Grows s' :=
  ⟨h.tokens, h.function, h.scopes ▸ .refl _, fun hv => h.scopes ▸ hv⟩

theorem Grows.refl (s : State) : s.Grows s := (Moves.refl s).grows

theorem Grows.trans (h : s.Grows s') (h' : s'.Grows s'') : s.Grows s'' :=
  ⟨h'.tokens.trans h.tokens, h'.function.trans h.function, h.scopes.trans h'.scopes,
    fun hv => h'.valid (h.valid hv)⟩

theorem Lexed.current (h : s.Lexed) : s.stream.current.Lexed := by
  unfold TokenStream.current Array.getD
  split
  · exact h _ (Array.getElem_mem _)
  · exact Token.lexed_eof _

theorem Body.mono (h : s.Body names ret) (g : s.Grows s') : s'.Body names ret where
  lexed t ht := h.lexed t (g.tokens ▸ ht)
  valid := g.valid h.valid
  resolve name := by rw [g.scopes.resolve h.valid, h.resolve]
  returns := by
    cases ret with
    | none => exact g.function.trans h.returns
    | some t =>
      obtain ⟨id, sym, hf, hs, ht⟩ := h.returns
      exact ⟨id, sym, g.function.trans hf, g.scopes.symbols id sym hs, ht⟩

theorem Body.moves (h : s.Body names ret) (m : s.Moves s') : s'.Body names ret := h.mono m.grows

end State

/-- In a body, the parser reads a part of it for which `P` holds in the scopes it leaves. -/
def ReadsPart (names : Names) (ret : Option DataType) (p : Parser α) (P : Scopes → α → Prop) :
    Prop :=
  ∀ s, s.Body names ret → Reads p (fun a s' => s.Grows s' ∧ P s'.scopes a) s

section Parts

variable {p : Parser α} {P : Scopes → α → Prop}

theorem ReadsPart.after (hp : ReadsPart names ret p P) (hs : s.Body names ret) (g : s.Grows s') :
    Reads p (fun a s'' => s.Grows s'' ∧ P s''.scopes a) s' :=
  wp_mono (hp s' (hs.mono g)) fun _ _ ⟨g', ha⟩ => ⟨g.trans g', ha⟩

theorem ReadsPart.fix {body : Parser α → Parser α}
    (h : ∀ p, ReadsPart names ret p P → ReadsPart names ret (body p) P) :
    ReadsPart names ret (fix body) P := by
  intro s hs
  refine wp_mono (reads_fix (Q := fun s a s' => s.Body names ret → s.Grows s' ∧ P s'.scopes a)
    (fun p hp s => ?_) s) fun _ _ hq => hq hs
  by_cases hs : s.Body names ret
  · exact wp_mono (h p (fun s hs => wp_mono (hp s) fun _ _ hq => hq hs) s hs) fun _ _ hq _ => hq
  · unfold Reads wp
    split
    · exact fun hs' => absurd hs' hs
    · trivial

end Parts

theorem reads_peek (Q : Token → State → Prop) (s : State) :
    Reads peek Q s ↔ Q s.stream.current s := Iff.rfl

theorem reads_is (k : Token.Kind) (Q : Bool → State → Prop) (s : State) :
    Reads (is k) Q s ↔ Q (s.stream.kind = k) s := Iff.rfl

theorem reads_advance (s : State) :
    Reads advance (fun t s' => t = s.stream.current ∧ s.Moves s') s := ⟨rfl, rfl, rfl, rfl⟩

theorem reads_accept (k : Token.Kind) (s : State) : Reads (accept k) (fun _ s' => s.Moves s') s := by
  rw [accept, Reads, wp_modifyGet]
  by_cases hk : s.stream.kind = k <;> simp only [TokenStream.accept, hk, if_true, if_false] <;>
    exact ⟨rfl, rfl, rfl⟩

theorem reads_expect (h : s.Lexed) (k : Token.Kind) :
    Reads (expect k) (fun t s' => t.kind = k ∧ t.Lexed ∧ s.Moves s') s := by
  unfold Reads wp expect TokenStream.expect
  by_cases hk : s.stream.kind = k
  · simp only [hk, if_true]
    exact ⟨hk, h.current, rfl, rfl, rfl⟩
  · simp only [hk, if_false]

theorem reads_skip (k : Token.Kind) : Reads (expect k) (fun _ s' => s.Moves s') s := by
  unfold Reads wp expect TokenStream.expect
  by_cases hk : s.stream.kind = k
  · simp only [hk, if_true]
    exact ⟨rfl, rfl, rfl⟩
  · simp only [hk, if_false]

theorem reads_warn (t : Token) (n : Notice) (s : State) :
    Reads (warn t n) (fun _ s' => s.Moves s') s := ⟨rfl, rfl, rfl⟩

theorem reads_separator (k : Token.Kind) (s : State) :
    Reads (separator k) (fun _ s' => s.Moves s') s := by
  simp only [separator, wp_bind, wp_ite, wp_pure, reads_peek]
  refine wp_mono (reads_accept k s) fun found s₁ m => ⟨fun _ => m, fun _ => ?_⟩
  exact wp_mono (reads_warn s₁.stream.current (.missing k) s₁) fun _ s₂ m' => m.trans m'

section Lists

variable {item : Parser α} {more : Parser Bool} {I : List α → State → Prop}

theorem reads_commaList (hm : ∀ as s s', s.Moves s' → I as s → I as s')
    (h : ∀ as s, I as s → Reads item (fun a s' => I (as ++ [a]) s') s) (h0 : I [] s) :
    Reads (commaList item) (fun as s' => as ≠ [] ∧ I as s') s := by
  refine reads_loop (I := fun before s => I before.reverse s) (fun before s hI => ?_) [] s h0
  simp only [wp_bind, wp_ite, wp_pure, Sum.elim_inl, Sum.elim_inr]
  refine wp_mono (h _ s hI) fun a s₁ ha => wp_mono (reads_accept .comma s₁) fun _ s₂ m => ?_
  rw [← List.reverse_cons] at ha
  exact ⟨fun _ => hm _ _ _ m ha, fun _ => ⟨by simp, hm _ _ _ m ha⟩⟩

theorem reads_whileList (hm : ∀ as s, I as s → Reads more (fun _ s' => I as s') s)
    (h : ∀ as s, I as s → Reads item (fun a s' => I (as ++ [a]) s') s) (h0 : I [] s) :
    Reads (whileList more item) I s := by
  refine reads_loop (I := fun before s => I before.reverse s) (fun before s hI => ?_) [] s h0
  simp only [wp_bind, wp_ite, wp_pure, Sum.elim_inl, Sum.elim_inr]
  refine wp_mono (hm _ s hI) fun _ s₁ hI' =>
    ⟨fun _ => wp_mono (h _ s₁ hI') fun a s₂ ha => ?_, fun _ => hI'⟩
  rwa [List.reverse_cons]

end Lists

theorem reads_resolve (name : String) (Q : Option Symbol.Id → State → Prop) (s : State) :
    Reads (resolve name) Q s ↔ Q (s.scopes.resolve name) s := Iff.rfl

theorem reads_symbol? (id : Symbol.Id) (Q : Option Symbol → State → Prop) (s : State) :
    Reads (symbol? id) Q s ↔ Q (s.scopes.symbol? id) s := Iff.rfl

theorem reads_typeOf {n : Node} {type : DataType} (h : s.scopes.Typed n type)
    (Q : DataType → State → Prop) : Reads (typeOf n) Q s ↔ Q type s := by
  obtain ⟨id, hn, sym, hs, rfl⟩ := h
  show Q ((n.symbol.map s.scopes.valueType).getD .void) s ↔ _
  simp only [hn, Option.map_some, Option.getD_some, Scopes.valueType, hs]

theorem reads_typed (n : Node) (type : DataType) (t : Token) (s : State) :
    Reads (typed n type t) (fun m s' => s.Grows s' ∧
      ∃ id, m = n.withSymbol id ∧ s'.scopes.HasType id type) s := by
  refine ⟨⟨rfl, rfl, Scopes.Grows.add _ _ rfl (by simp [Symbol.new]), fun hv => hv.add _⟩, _, rfl, ?_⟩
  exact ⟨_, Scopes.symbol?_add_self s.scopes _, rfl⟩

/-- The literals of equal text are one symbol, which has the value that the text has. -/
theorem reads_intern {key : String} {t : Token} {kind : Symbol.Kind} {type : DataType}
    {value : Symbol.Attribute} (hv : s.scopes.Valid)
    (hl : (Symbol.new kind key t.position [value, .dataType type]).IsLiteral key) :
    Reads (intern key t kind type value) (fun id s' => s.Grows s' ∧
      s'.scopes.resolveConstant key = some id ∧ s'.scopes.IsConstant id kind value type) s := by
  rw [intern, Reads, wp_modifyGet]
  cases hr : s.scopes.resolveConstant key with
  | some id =>
    obtain ⟨sym, hs, hsym⟩ := hv.literal hr
    obtain ⟨hk, ha⟩ := hsym.unique hl
    exact ⟨.refl s, hr, sym, hs, hk, ha⟩
  | none =>
    refine ⟨⟨rfl, rfl, .addConstant rfl hl.not_function hr, fun hv => hv.addConstant hr hl rfl rfl⟩,
      ?_, _, Scopes.symbol?_addConstant_self s.scopes key _, rfl, rfl⟩
    exact (Scopes.resolveConstant_addConstant s.scopes key key _).trans (if_pos rfl)

end StackCompiler.Parser
