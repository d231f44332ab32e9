import StackCompiler.Proofs.Correspondence.Statements

/-!
# Programs that correspond

Declarations bind names that correspond in scopes that do. So both programs are accepted or both
rejected, with something to say about the same tokens, and have trees of one shape and the same
symbols if they are accepted.
-/

namespace StackCompiler.Correspondence

open StackCompiler.Parser

variable {r : Correspondence} {t u : Token} {n n' : Node}

theorem alike_scalarType : r.Alike r.SameType scalarType scalarType := by
  refine alike_peek_bind fun t u ht => ?_
  rw [ht.kind]
  split
  · next hk => exact alikeAt_advance_bind (by simp [hk]) fun _ _ _ _ => .pure .int
  · next hk => exact alikeAt_advance_bind (by simp [hk]) fun _ _ _ _ => .pure .real
  · next hk => exact alikeAt_advance_bind (by simp [hk]) fun _ _ _ _ => .pure .bool
  · exact .of (alike_fail ht (by grind))
  · exact .of (alike_unexpected _)

theorem alike_declaration (region : Option Region) (isParameter : Bool) :
    r.Alike r.SameItem (declaration region isParameter) (declaration region isParameter) := by
  refine (alike_expect .ident (by simp)).bind fun t u ht => ?_
  refine (alike_separator _ (by simp)).bind fun _ _ _ => ?_
  refine alike_scalarType.bind fun x y hxy => ?_
  rw [hxy.variableOf]
  have hattributes : List.Forall₂ r.SameAttribute
      (if isParameter then [.dataType x, .isParameter] else [.dataType x])
      (if isParameter then [.dataType y, .isParameter] else [.dataType y]) := by
    split
    · exact .cons (.dataType hxy) (.cons (.other rfl rfl) .nil)
    · exact .cons (.dataType hxy) .nil
  refine (alike_declare ht.1 ht.2 hattributes region).bind ?_
  rintro id _ rfl
  exact .pure (.leaf rfl (by grind))

theorem alike_declarations (region : Region) :
    r.Alike r.SameTree (declarations region) (declarations region) := by
  refine (alike_is .ident).bind fun a b hab => ?_
  refine .ite (by rw [hab]) (fun _ => ?_) fun _ => .pure .none
  exact (alike_commaList (alike_declaration _ _)).bind fun _ _ h => .pure (.list rfl h)

theorem alike_constant : r.Alike r.SameItem constant constant := by
  refine (alike_expect .ident (by simp)).bind fun t u ht => ?_
  refine (alike_checkFresh ht.1 ht.2).bind fun _ _ _ => ?_
  refine alike_skip (by simp) ?_
  refine alike_sumExpression.bind fun n n' hn => ?_
  refine (alike_typeOf hn).bind fun x y hxy => ?_
  rw [hxy.constantOf]
  refine (alike_declare ht.1 ht.2 (.cons (.dataType hxy) (.cons (.other rfl rfl) .nil)) _).bind ?_
  rintro id _ rfl
  exact .pure (.plain rfl hn.tree .none .none (by grind))

theorem alike_constants : r.Alike r.SameTree constants constants :=
  (alike_commaList alike_constant).bind fun _ _ h => .pure (.list rfl h)

theorem alike_namesType {f : DataType → Bool} (hf : ∀ x y, r.SameType x y → f x = f y)
    (id : Symbol.Id) : r.Alike Eq (namesType f id) (namesType f id) := by
  refine (alike_symbol? id).bind fun x y hxy => ?_
  cases hxy.rel with
  | none => exact .pure rfl
  | some h => exact .pure (by rw [h.kind, map_eq_of_rel h.dataType? hf])

theorem alike_arrayType (h : r.SameToken t u) (hk : t.kind = .ident) :
    r.Alike r.SameItem (arrayType t) (arrayType u) := by
  refine alike_skip (by simp) ?_
  refine alike_peek.bind fun t' u' ht' => ?_
  refine alike_sumExpression.bind fun n n' hn => ?_
  refine (alike_typeOf hn).bind fun x y hxy => ?_
  refine alike_check (hxy.eq_iff .int) ht' (by grind) ?_
  refine alike_skip (by simp) ?_
  refine alike_skip (by simp) ?_
  refine (alike_expect .ident (by simp)).bind fun e e' he => ?_
  refine (alike_resolve (he.1.name he.2)).bind ?_
  rintro element _ rfl
  cases element with
  | none => exact alike_fail he.1 (by grind)
  | some element =>
    refine (alike_namesType (fun _ _ h => h.isStruct) element).bind fun a b hab => ?_
    refine alike_check (by rw [hab]) he.1 (by grind) ?_
    refine (alike_declare h hk (.cons (.dataType (.array (h.name hk))) .nil) none).bind ?_
    rintro id _ rfl
    exact .pure (.plain rfl hn.tree .none (SameItem.leaf rfl (by grind)).tree (by grind))

theorem alike_recordType (h : r.SameToken t u) (hk : t.kind = .ident) :
    r.Alike r.SameItem (recordType t) (recordType u) := by
  refine (alike_declare h hk (.cons (.dataType (.struct (h.name hk))) .nil) none).bind ?_
  rintro id _ rfl
  refine (alike_createScope (r.scope_record (h.name hk))).bind fun _ _ _ => ?_
  refine (alike_commaList (alike_declaration _ _)).bind fun _ _ hfields => ?_
  refine alike_skip (by simp) ?_
  refine alike_leaveScope.bind fun _ _ _ => ?_
  exact .pure (.plain rfl (.list rfl hfields) .none .none (by grind))

theorem alike_typeDefinition : r.Alike r.SameItem typeDefinition typeDefinition := by
  refine (alike_expect .ident (by simp)).bind fun t u ht => ?_
  refine alike_skip (by simp) ?_
  refine (alike_accept _ (by simp)).bind fun a b hab => ?_
  exact .ite (by rw [hab]) (fun _ => alike_arrayType ht.1 ht.2) fun _ => alike_recordType ht.1 ht.2

theorem alike_typeDefinitions : r.Alike r.SameTree typeDefinitions typeDefinitions := by
  refine alike_typeDefinition.bind fun n n' hn => ?_
  refine (alike_whileList (alike_is _) alike_typeDefinition).bind fun _ _ h => ?_
  exact .pure (.list rfl (.cons hn h))

theorem alike_arrayDeclaration : r.Alike r.SameItem arrayDeclaration arrayDeclaration := by
  refine (alike_expect .ident (by simp)).bind fun t u ht => ?_
  refine (alike_separator _ (by simp)).bind fun _ _ _ => ?_
  refine (alike_expect .ident (by simp)).bind fun e e' he => ?_
  have hend (a b : Bool) (hab : a = b) : r.Alike r.SameItem
      (do
        unless a do
          fail e (.undefinedArray e.text)
        let id ← declare t
          (.new .structOrArrayVariable t.text t.position [.dataType (.array e.text)]) none
        return ((Node.leaf .arrayDecl).withValue t.text).withSymbol id)
      (do
        unless b do
          fail e' (.undefinedArray e'.text)
        let id ← declare u
          (.new .structOrArrayVariable u.text u.position [.dataType (.array e'.text)]) none
        return ((Node.leaf .arrayDecl).withValue u.text).withSymbol id) := by
    refine alike_check (by rw [hab]) he.1 (by grind) ?_
    refine (alike_declare ht.1 ht.2 (.cons (.dataType (.array (he.1.name he.2))) .nil) none).bind ?_
    rintro id _ rfl
    exact .pure (.leaf rfl (by grind))
  refine (alike_resolve (he.1.name he.2)).bind ?_
  rintro id _ rfl
  cases id with
  | none => exact hend false false rfl
  | some id => exact (alike_namesType (fun _ _ h => h.isArray) id).bind hend

theorem alike_arrayDeclarations : r.Alike r.SameTree arrayDeclarations arrayDeclarations :=
  (alike_commaList alike_arrayDeclaration).bind fun _ _ h => .pure (.list rfl h)

theorem alike_introduced (w : Keyword) {p q : Parser (Option Node)} (h : r.Alike r.SameTree p q) :
    r.Alike r.SameTree (introduced w p) (introduced w q) := by
  refine (alike_accept _ (by simp)).bind fun _ _ hab => ?_
  exact .ite (by rw [hab]) (fun _ => h) fun _ => .pure .none

theorem alike_globals : r.Alike r.SameItem globals globals := by
  refine (alike_introduced _ alike_constants).bind fun _ _ hc => ?_
  refine (alike_introduced _ alike_typeDefinitions).bind fun _ _ ht => ?_
  refine (alike_introduced _ alike_arrayDeclarations).bind fun _ _ ha => ?_
  exact .pure (.plain rfl hc ht ha (by grind))

theorem alike_within (id : Symbol.Id) {α β : Type} {R : α → β → Prop} {p : Parser α}
    {q : Parser β} (h : r.Alike R p q) : r.Alike R (within id p) (within id q) := by
  refine Lockstep.get.bind fun s s' hs => ?_
  have henter : r.Alike (fun _ _ => True) (modify fun s => { s with function := some id })
      (modify fun s => { s with function := some id }) :=
    .modify fun _ _ hs =>
      { hs with
        function := rfl
        exact := fun hx => by rw [hs.exact hx] }
  have hleave : r.Alike (fun _ _ => True) (modify fun t => { t with function := s.function })
      (modify fun t => { t with function := s'.function }) :=
    .modify fun _ _ ht =>
      { ht with
        function := hs.function
        exact := fun hx => by rw [ht.exact hx, hs.function] }
  refine henter.bind fun _ _ _ => ?_
  refine h.bind fun a b hab => ?_
  exact hleave.bind fun _ _ _ => .pure hab

theorem alike_parameters : r.Alike (List.Forall₂ r.SameItem) parameters parameters := by
  refine (alike_is .rightParen).bind fun a b hab => ?_
  exact .ite (by rw [hab]) (fun _ => .pure .nil) fun _ => alike_commaList (alike_declaration _ _)

theorem alike_returnType : r.Alike r.SameType returnType returnType := by
  refine (alike_accept _ (by simp)).bind fun a b hab => ?_
  exact .ite (by rw [hab]) (fun _ => .pure .void) fun _ => alike_scalarType

theorem filterMap_symbol {as bs : List Node} (h : List.Forall₂ r.SameItem as bs) :
    as.filterMap Node.symbol = bs.filterMap Node.symbol := by
  induction h with
  | nil => rfl
  | cons hab _ ih => rw [List.filterMap_cons, List.filterMap_cons, hab.tree.symbol, ih]

theorem alike_function : r.Alike r.SameItem function function := by
  refine alike_skip (by simp) ?_
  refine (alike_expect .ident (by simp)).bind fun t u ht => ?_
  have hscope : r.SameScope (functionScope t.text) (functionScope u.text) :=
    r.scope_function (ht.1.name ht.2)
  refine (alike_declare ht.1 ht.2 .nil none).bind ?_
  rintro id _ rfl
  refine (alike_createScope hscope).bind fun _ _ _ => ?_
  refine alike_skip (by simp) ?_
  refine alike_parameters.bind fun ps qs hps => ?_
  refine alike_skip (by simp) ?_
  rw [filterMap_symbol hps]
  refine (Lockstep.forIn (R := Eq) (List.forall₂_refl _) ?_).bind fun _ _ _ => ?_
  · rintro param _ rfl
    exact alike_addAttribute id (.other rfl rfl)
  refine (alike_separator _ (by simp)).bind fun _ _ _ => ?_
  refine alike_returnType.bind fun x y hxy => ?_
  refine (alike_addAttribute id (.returnType hxy)).bind fun _ _ _ => ?_
  refine (alike_declarations _).bind fun l l' hl => ?_
  refine alike_skip (by simp) ?_
  refine (alike_within id alike_block).bind fun o o' ho => ?_
  refine alike_skip (by simp) ?_
  refine alike_leaveScope.bind fun _ _ _ => ?_
  exact .pure ⟨.node ⟨by grind, hscope⟩ (.list rfl hps) hl ho, rfl⟩

theorem alike_functions : r.Alike r.SameTree functions functions :=
  (alike_whileList (alike_is _) alike_function).bind fun _ _ h => .pure (.list rfl h)

theorem alike_mainBody : r.Alike r.SameItem mainBody mainBody := by
  refine alike_skip (by simp) ?_
  refine (alike_createScope r.scope_main).bind fun _ _ _ => ?_
  refine (alike_declarations _).bind fun l l' hl => ?_
  refine alike_skip (by simp) ?_
  refine alike_block.bind fun o o' ho => ?_
  refine alike_skip (by simp) ?_
  exact alike_leaveScope.bind fun _ _ _ => .pure (.plain rfl hl .none ho (by grind))

theorem alike_program : r.Alike r.SameItem program program := by
  refine (alike_createScope r.scope_global).bind fun _ _ _ => ?_
  refine alike_skip (by simp) ?_
  refine (alike_expect .ident (by simp)).bind fun t u ht => ?_
  refine alike_globals.bind fun g g' hg => ?_
  refine alike_functions.bind fun f f' hf => ?_
  refine alike_mainBody.bind fun m m' hm => ?_
  refine alike_skip (by simp) ?_
  refine (alike_expect .ident (by simp)).bind fun e e' he => ?_
  refine alike_check (r.name_iff (he.1.name he.2) (ht.1.name ht.2)) he.1 (by grind) ?_
  have hend : r.Alike r.SameItem
      (do
        leaveScope
        return (Node.branch .program g f m).withValue t.text)
      (do
        leaveScope
        return (Node.branch .program g' f' m').withValue u.text) :=
    alike_leaveScope.bind fun _ _ _ => .pure (.plain rfl hg.tree hf hm.tree (by grind))
  refine (alike_is .eof).bind fun a b hab => ?_
  refine .ite (by rw [hab]) (fun _ => hend) fun _ => ?_
  refine alike_peek.bind fun t u ht => ?_
  exact (alike_warn ht (by grind)).bind fun _ _ _ => hend

/-- What is left of two runs. -/
structure SameParsed (r : Correspondence) (p q : Parsed) : Prop where
  root : r.SameTree p.root q.root
  scopes : r.SameScopes p.scopes q.scopes
  diagnostics : r.SameReports p.diagnostics q.diagnostics
  exact : r.Exact → p = q

theorem sameParsed {before : List Diagnostic} {a b : TokenStream} {S S' : Scopes}
    (h : r.SameState ⟨a, S, before.toArray, #[], none, 0⟩ ⟨b, S', before.toArray, #[], none, 0⟩) :
    r.SameParsed (parseOnto before a S) (parseOnto before b S') := by
  have h := alike_program _ _ h
  unfold parseOnto runOnto
  generalize program _ = x at h
  generalize program _ = y at h
  cases h with
  | ok hn hs =>
    refine ⟨hn.tree, hs.scopes, hs.diagnostics, fun hx => ?_⟩
    dsimp only
    rw [hs.exact hx, hn.eq hx]
  | error he hs =>
    refine ⟨.none, hs.scopes, hs.diagnostics.push ⟨he.token, rfl⟩, fun hx => ?_⟩
    dsimp only
    rw [hs.exact hx, he.exact hx]

end StackCompiler.Correspondence
