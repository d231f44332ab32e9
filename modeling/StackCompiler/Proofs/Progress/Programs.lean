import StackCompiler.Program.Parser
import StackCompiler.Proofs.Progress.Statements

/-!
# How far the parsers of declarations and programs come
-/

namespace StackCompiler.Parser

variable {o s : State} {st : List Nat} {ts : List Token} {ls : List Node}

theorem at_scalarType (h : At o st ts ls s) :
    wp (Broken o) scalarType (fun _ s' => At o st ts ls s') s := by
  simp only [scalarType, wp_bind, wp_peek]
  split
  case h_1 hk => exact h.advance (by rw [TokenStream.kind, hk]; rfl)
  case h_2 hk => exact h.advance (by rw [TokenStream.kind, hk]; rfl)
  case h_3 hk => exact h.advance (by rw [TokenStream.kind, hk]; rfl)
  case h_4 => exact h.see.fail List.mem_cons_self
  case h_5 => exact h.unexpected _

theorem at_declaration (region : Option Region) (isParameter : Bool) (h : At o st ts ls s) :
    Tracks o st ts ls Node.literals (declaration region isParameter) s := by
  simp only [declaration, wp_bind]
  refine wp_mono (at_expect h rfl) fun t s₁ ⟨h₁, _⟩ => ?_
  refine wp_mono (at_separator h₁ rfl) fun _ s₂ h₂ => ?_
  refine wp_mono (at_scalarType h₂) fun type s₃ h₃ => ?_
  refine wp_mono (at_declare h₃ List.mem_cons_self _ region) fun id s₄ ⟨h₄, _⟩ => ?_
  rw [wp_pure, Node.leaf, Node.branch, Node.withValue, Node.withSymbol,
    Node.literals_typedLeaf id rfl, List.append_nil]
  exact h₄.tail

theorem at_declarationList (region : Option Region) (isParameter : Bool) (h : At o st ts ls s) :
    wp (Broken o) (commaList (declaration region isParameter))
      (fun ns s' => At o st ts (ls ++ ns.flatMap Node.literals) s') s :=
  at_commaList (P := fun _ => True) (fun _ _ => trivial)
    (fun _ _ h _ => at_declaration region isParameter h) h trivial

theorem at_declarations (region : Region) (h : At o st ts ls s) :
    Tracks o st ts ls Node.literalsIn (declarations region) s := by
  simp only [declarations, wp_bind, wp_is, wp_ite, wp_pure]
  refine ⟨fun _ => ?_, fun _ => by simpa using h⟩
  refine wp_mono (at_declarationList (some region) false h) fun items s₁ h₁ => ?_
  rwa [Node.literalsIn_list rfl]

theorem at_constant (h : At o st ts ls s) : Tracks o st ts ls Node.literals constant s := by
  simp only [constant, wp_bind]
  refine wp_mono (at_expect h rfl) fun t s₁ ⟨h₁, _⟩ => ?_
  refine wp_mono (at_checkFresh h₁ List.mem_cons_self) fun _ s₂ hs₂ => ?_
  subst hs₂
  refine wp_mono (at_skip h₁ rfl) fun _ s₃ ⟨h₃, hd₃⟩ => ?_
  refine wp_mono (readsOperand_sumExpression o _ _ _ _ h₃ hd₃) fun value s₄ ⟨h₄, _⟩ => ?_
  simp only [wp_typeOf]
  refine wp_mono (at_declare h₄ List.mem_cons_self _ _) fun id s₅ ⟨h₅, _⟩ => ?_
  rw [wp_pure, Node.unary, Node.branch, Node.withValue, Node.withSymbol, Node.literals_mk rfl]
  simpa using h₅.tail

theorem at_constants (h : At o st ts ls s) : Tracks o st ts ls Node.literalsIn constants s := by
  simp only [constants, wp_bind, wp_pure]
  refine wp_mono (at_commaList (P := fun _ => True) (L := Node.literals) (fun _ _ => trivial)
    (fun _ _ h _ => at_constant h) h trivial) fun items s₁ h₁ => ?_
  rwa [Node.literalsIn_list rfl]

theorem wp_namesType {E : ParseError → State → Prop} (p : DataType → Bool) (id : Symbol.Id)
    {Q : Bool → State → Prop} (hQ : ∀ b, Q b s) : wp E (namesType p id) Q s := by
  simp only [namesType, wp_bind, wp_symbol?]
  split <;> exact hQ _

theorem at_arrayType {name : Token} (h : At o st ts ls s) (hn : name ∈ ts) :
    Tracks o st ts ls Node.literals (arrayType name) s := by
  simp only [arrayType, wp_bind]
  refine wp_mono (at_skip h rfl) fun _ s₁ ⟨h₁, hd₁⟩ => ?_
  simp only [wp_peek]
  refine wp_mono (readsOperand_sumExpression o _ _ _ _ h₁.see hd₁) fun length s₂ ⟨h₂, _⟩ => ?_
  simp only [wp_typeOf, wp_ite, wp_bind]
  refine ⟨fun _ => ?_, fun _ => h₂.fail List.mem_cons_self⟩
  refine wp_mono (at_skip h₂.tail rfl) fun _ s₃ ⟨h₃, _⟩ => ?_
  refine wp_mono (at_skip h₃ rfl) fun _ s₄ ⟨h₄, _⟩ => ?_
  refine wp_mono (at_expect h₄ rfl) fun element s₅ ⟨h₅, _⟩ => ?_
  simp only [wp_resolve]
  split
  · exact h₅.fail List.mem_cons_self
  · next elementId _ =>
    simp only [wp_bind]
    refine wp_namesType _ _ fun found => ?_
    simp only [wp_ite, wp_bind]
    refine ⟨fun _ => ?_, fun _ => h₅.fail List.mem_cons_self⟩
    refine wp_mono (at_declare h₅.tail hn _ none) fun id s₆ ⟨h₆, _⟩ => ?_
    rw [wp_pure, Node.branch, Node.withValue, Node.withSymbol, Node.literals_mk rfl,
      Node.literalsIn_some, Node.literalsIn_some, Node.leaf, Node.branch, Node.withValue,
      Node.withSymbol, Node.literals_typedLeaf elementId rfl]
    simpa using h₆

theorem at_recordType {name : Token} (h : At o st ts ls s) (hn : name ∈ ts) :
    Tracks o st ts ls Node.literals (recordType name) s := by
  simp only [recordType, wp_bind]
  refine wp_mono (at_declare h hn _ none) fun id s₁ ⟨h₁, _⟩ => ?_
  refine wp_mono (at_createScope h₁ _) ?_
  rintro _ s₂ ⟨⟨i, h₂⟩, _⟩
  refine wp_mono (at_declarationList none false h₂) fun fields s₃ h₃ => ?_
  refine wp_mono (at_skip h₃ rfl) fun _ s₄ ⟨h₄, _⟩ => ?_
  refine wp_mono (at_leaveScope h₄ h.base) fun _ s₅ h₅ => ?_
  rw [wp_pure, Node.branch, Node.withValue, Node.withSymbol, Node.literals_mk rfl,
    Node.literalsIn_list rfl]
  simpa using h₅

theorem at_typeDefinition (h : At o st ts ls s) :
    Tracks o st ts ls Node.literals typeDefinition s := by
  simp only [typeDefinition, wp_bind]
  refine wp_mono (at_expect h rfl) fun name s₁ ⟨h₁, _⟩ => ?_
  refine wp_mono (at_skip h₁ rfl) fun _ s₂ ⟨h₂, _⟩ => ?_
  refine wp_mono (at_accept h₂ rfl) fun found s₃ ⟨h₃, _⟩ => ?_
  rw [wp_ite]
  refine ⟨fun _ => ?_, fun _ => ?_⟩
  · exact wp_mono (at_arrayType h₃ List.mem_cons_self) fun n s₄ h₄ => h₄.tail
  · exact wp_mono (at_recordType h₃ List.mem_cons_self) fun n s₄ h₄ => h₄.tail

theorem at_typeDefinitions (h : At o st ts ls s) :
    Tracks o st ts ls Node.literalsIn typeDefinitions s := by
  simp only [typeDefinitions, wp_bind, wp_pure]
  refine wp_mono (at_typeDefinition h) fun first s₁ h₁ => ?_
  refine wp_mono (at_whileList (L := Node.literals) (fun _ _ h => at_typeDefinition h) h₁)
    fun others s₂ h₂ => ?_
  rw [Node.literalsIn_list rfl, List.flatMap_cons, ← List.append_assoc]
  exact h₂

theorem at_arrayDeclaration (h : At o st ts ls s) :
    Tracks o st ts ls Node.literals arrayDeclaration s := by
  simp only [arrayDeclaration, wp_bind]
  refine wp_mono (at_expect h rfl) fun t s₁ ⟨h₁, _⟩ => ?_
  refine wp_mono (at_separator h₁ rfl) fun _ s₂ h₂ => ?_
  refine wp_mono (at_expect h₂ rfl) fun type s₃ ⟨h₃, _⟩ => ?_
  -- the declaration itself, whatever the name of the type stands for
  have hend : ∀ isArray : Bool, wp (Broken o) (do
      unless isArray do
        fail type (.undefinedArray type.text)
      let id ← declare t (.new .structOrArrayVariable t.text t.position
        [.dataType (.array type.text)]) none
      return ((Node.leaf .arrayDecl).withValue t.text).withSymbol id)
      (fun n s' => At o st ts (ls ++ n.literals) s') s₃ := by
    intro isArray
    simp only [wp_bind, wp_ite]
    refine ⟨fun _ => ?_, fun _ => h₃.fail List.mem_cons_self⟩
    refine wp_mono (at_declare h₃ (by simp) _ none) fun id s₄ ⟨h₄, _⟩ => ?_
    rw [wp_pure, Node.leaf, Node.branch, Node.withValue, Node.withSymbol,
      Node.literals_typedLeaf id rfl, List.append_nil]
    exact h₄.tail.tail
  simp only [wp_resolve]
  split
  · rw [wp_bind]
    exact wp_namesType _ _ hend
  · exact hend false

theorem at_arrayDeclarations (h : At o st ts ls s) :
    Tracks o st ts ls Node.literalsIn arrayDeclarations s := by
  simp only [arrayDeclarations, wp_bind, wp_pure]
  refine wp_mono (at_commaList (P := fun _ => True) (L := Node.literals) (fun _ _ => trivial)
    (fun _ _ h _ => at_arrayDeclaration h) h trivial) fun items s₁ h₁ => ?_
  rwa [Node.literalsIn_list rfl]

theorem at_introduced {k : Keyword} {p : Parser (Option Node)}
    (hk : (Token.Kind.keyword k).isPlain = true) (hp : ReadsStatements o p) (h : At o st ts ls s) :
    Tracks o st ts ls Node.literalsIn (introduced k p) s := by
  simp only [introduced, wp_bind]
  refine wp_mono (at_accept h hk) fun found s₁ ⟨h₁, _⟩ => ?_
  rw [wp_ite]
  exact ⟨fun _ => hp _ _ _ _ h₁, fun _ => by simpa [wp_pure] using h₁⟩

theorem at_globals (h : At o st ts ls s) : Tracks o st ts ls Node.literals globals s := by
  simp only [globals, wp_bind]
  refine wp_mono (at_introduced rfl (fun _ _ _ _ h => at_constants h) h) fun cs s₁ h₁ => ?_
  refine wp_mono (at_introduced rfl (fun _ _ _ _ h => at_typeDefinitions h) h₁)
    fun types s₂ h₂ => ?_
  refine wp_mono (at_introduced rfl (fun _ _ _ _ h => at_arrayDeclarations h) h₂)
    fun arrays s₃ h₃ => ?_
  rw [wp_pure, Node.branch, Node.literals_mk rfl]
  simpa using h₃

theorem at_within {p : Parser (Option Node)} (id : Symbol.Id) (hp : ReadsStatements o p)
    (h : At o st ts ls s) :
    Tracks o st ts ls Node.literalsIn (within id p) s := by
  simp only [within, wp_bind, wp_get, wp_modify, wp_pure]
  exact wp_mono (hp _ _ _ _ (h.congr rfl rfl rfl)) fun n s₁ h₁ => h₁.congr rfl rfl rfl

theorem at_parameters (h : At o st ts ls s) :
    wp (Broken o) parameters (fun ns s' => At o st ts (ls ++ ns.flatMap Node.literals) s') s := by
  simp only [parameters, wp_bind, wp_is, wp_ite, wp_pure]
  exact ⟨fun _ => by simpa using h, fun _ => at_declarationList _ true h⟩

theorem at_returnType (h : At o st ts ls s) :
    wp (Broken o) returnType (fun _ s' => At o st ts ls s') s := by
  simp only [returnType, wp_bind]
  refine wp_mono (at_accept h rfl) fun found s₁ ⟨h₁, _⟩ => ?_
  rw [wp_ite]
  exact ⟨fun _ => h₁, fun _ => at_scalarType h₁⟩

theorem at_addParameters {id : Symbol.Id} (hid : o.scopes.symbols.size ≤ id) (h : At o st ts ls s)
    (ids : List Symbol.Id) :
    wp (Broken o) (forIn ids PUnit.unit fun param _ =>
        addAttribute id (.parameter param) >>= fun _ => pure (.yield PUnit.unit))
      (fun _ s' => At o st ts ls s') s :=
  wp_forM (fun param => addAttribute id (.parameter param)) (fun _ _ s => At o st ts ls s)
    (fun _ param _ _ h => wp_mono (at_addAttribute h hid (.parameter param)) fun _ _ h' => h'.1)
    [] ids s h

theorem at_function (h : At o st ts ls s) : Tracks o st ts ls Node.literals function s := by
  simp only [function, wp_bind]
  refine wp_mono (at_skip h rfl) fun _ s₁ ⟨h₁, _⟩ => ?_
  refine wp_mono (at_expect h₁ rfl) fun name s₂ ⟨h₂, _⟩ => ?_
  refine wp_mono (at_declare h₂ List.mem_cons_self _ none) fun id s₃ ⟨h₃, hid, _⟩ => ?_
  refine wp_mono (at_createScope h₃.tail _) ?_
  rintro _ s₄ ⟨⟨i, h₄⟩, _⟩
  refine wp_mono (at_skip h₄ rfl) fun _ s₅ ⟨h₅, _⟩ => ?_
  refine wp_mono (at_parameters h₅) fun params s₆ h₆ => ?_
  refine wp_mono (at_expect h₆ rfl) fun _ s₇ ⟨h₇, _⟩ => ?_
  refine wp_mono (at_addParameters hid h₇.tail _) fun _ s₈ h₈ => ?_
  refine wp_mono (at_separator h₈ rfl) fun _ s₉ h₉ => ?_
  refine wp_mono (at_returnType h₉) fun type s₁₀ h₁₀ => ?_
  refine wp_mono (at_addAttribute h₁₀ hid _) fun _ s₁₁ ⟨h₁₁, _⟩ => ?_
  refine wp_mono (at_declarations .declarations h₁₁) fun locals s₁₂ h₁₂ => ?_
  refine wp_mono (at_skip h₁₂ rfl) fun _ s₁₃ ⟨h₁₃, _⟩ => ?_
  refine wp_mono (at_within id (readsStatements_block o) h₁₃) fun body s₁₄ h₁₄ => ?_
  refine wp_mono (at_skip h₁₄ rfl) fun _ s₁₅ ⟨h₁₅, _⟩ => ?_
  refine wp_mono (at_leaveScope h₁₅ h.base) fun _ s₁₆ h₁₆ => ?_
  rw [wp_pure, Node.branch, Node.withValue, Node.withSymbol, Node.literals_mk rfl,
    Node.literalsIn_list rfl]
  simpa using h₁₆

theorem at_functions (h : At o st ts ls s) : Tracks o st ts ls Node.literalsIn functions s := by
  simp only [functions, wp_bind, wp_pure]
  refine wp_mono (at_whileList (L := Node.literals) (fun _ _ h => at_function h) h)
    fun fs s₁ h₁ => ?_
  rwa [Node.literalsIn_list rfl]

theorem at_mainBody (h : At o st ts ls s) : Tracks o st ts ls Node.literals mainBody s := by
  simp only [mainBody, wp_bind]
  refine wp_mono (at_skip h rfl) fun _ s₁ ⟨h₁, _⟩ => ?_
  refine wp_mono (at_createScope h₁ _) ?_
  rintro _ s₂ ⟨⟨i, h₂⟩, _⟩
  refine wp_mono (at_declarations .globals h₂) fun declared s₃ h₃ => ?_
  refine wp_mono (at_skip h₃ rfl) fun _ s₄ ⟨h₄, _⟩ => ?_
  refine wp_mono (readsStatements_block o _ _ _ _ h₄) fun body s₅ h₅ => ?_
  refine wp_mono (at_skip h₅ rfl) fun _ s₆ ⟨h₆, _⟩ => ?_
  refine wp_mono (at_leaveScope h₆ h.base) fun _ s₇ h₇ => ?_
  rw [wp_pure, Node.branch, Node.withValue, Node.literals_mk rfl]
  simpa using h₇

def started (s : State) : State :=
  { s with
    scopes := s.scopes.create globalScope
    log := s.log.push (.scopeCreated globalScope) }

theorem at_started (s : State) :
    At (started s) (started s).scopes.stack [] [] (started s) :=
  ⟨⟨rfl, Nat.le_refl _, by simp, ⟨[], by simp, by simp, by simp⟩, rfl, List.suffix_rfl, .refl _⟩,
    by simp, rfl⟩

theorem at_program (s : State) :
    wp (Broken (started s)) program (fun root s' => ∃ s₁,
      At (started s) (started s).scopes.stack [] root.literals s₁ ∧
      s' = { s₁ with scopes := s₁.scopes.leave }) s := by
  simp only [program, wp_bind, createScope, wp_modify]
  refine wp_mono (at_skip (at_started s) rfl) fun _ s₁ ⟨h₁, _⟩ => ?_
  refine wp_mono (at_expect h₁ rfl) fun name s₂ ⟨h₂, _⟩ => ?_
  refine wp_mono (at_globals h₂.tail) fun globals s₃ h₃ => ?_
  refine wp_mono (at_functions h₃) fun functions s₄ h₄ => ?_
  refine wp_mono (at_mainBody h₄) fun main s₅ h₅ => ?_
  refine wp_mono (at_skip h₅ rfl) fun _ s₆ ⟨h₆, _⟩ => ?_
  refine wp_mono (at_expect h₆ rfl) fun endName s₇ ⟨h₇, _⟩ => ?_
  have hroot : ((Node.branch .program (some globals) functions (some main)).withValue
      name.text).literals =
      [] ++ globals.literals ++ Node.literalsIn functions ++ main.literals := by
    rw [Node.branch, Node.withValue, Node.literals_mk rfl]
    rfl
  simp only [wp_ite, wp_bind]
  refine ⟨fun _ => ⟨fun _ => ?_, fun _ => ?_⟩, fun _ => h₇.fail List.mem_cons_self⟩
  · exact ⟨s₇, hroot ▸ h₇.tail, rfl⟩
  · refine (wp_peek _).2 (wp_mono (at_warn h₇.tail .trailingInput) fun _ s₈ h₈ => ?_)
    exact ⟨s₈, hroot ▸ h₈.1, rfl⟩

end StackCompiler.Parser
