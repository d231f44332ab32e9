import StackCompiler.Proofs.Correspondence.Code
import StackCompiler.Proofs.Renaming.Tokens

/-!
# Modules of renamed programs

The module of a program depends on the kinds of its tokens, the texts of its literals and on which
identifiers are equal. Layout, comments, the case of keywords and the choice of names leave no trace
in it, and move what is said about the program only along with the tokens.
-/

namespace StackCompiler

/-- The remark underlines the token. -/
structure Remark.Marks (m : Remark) (t : Token) : Prop where
  position : m.position = t.position
  length : m.length = t.width

/-- The remarks are of one severity, and mark tokens at one index of `ts` and of `us`. -/
def SameRemark (ts us : List Token) (m m' : Remark) : Prop :=
  m.severity = m'.severity ∧
    ∃ (i : Nat) (t u : Token), ts[i]? = some t ∧ us[i]? = some u ∧ m.Marks t ∧ m'.Marks u

/-- Compiling sources with the tokens `ts` and `us` ends alike. -/
inductive SameOutcome (ts us : List Token) : Except Error Compiled → Except Error Compiled → Prop
  | compiled {text : String} {remarks remarks' : List Remark}
      (h : List.Forall₂ (SameRemark ts us) remarks remarks') :
      SameOutcome ts us (.ok ⟨text, remarks⟩) (.ok ⟨text, remarks'⟩)
  | rejected {remarks remarks' : List Remark}
      (h : List.Forall₂ (SameRemark ts us) remarks remarks') :
      SameOutcome ts us (.error (.rejected remarks)) (.error (.rejected remarks'))
  | defect (d : Defect) : SameOutcome ts us (.error (.defect d)) (.error (.defect d))

namespace Correspondence

variable {r : Correspondence} {s t : Scopes}

/-- Both are the same value, or both are defects. -/
inductive SameResult {α : Type} : Except Defect α → Except Defect α → Prop
  | ok (a : α) : SameResult (.ok a) (.ok a)
  | error {d d' : Defect} (h : SameDefect d d') : SameResult (.error d) (.error d')

theorem placePool_same (pool : List (Symbol.Id × Nat)) (offset : Nat) (h : r.SameScopes s t) :
    (Code.placePool offset s pool).1 = (Code.placePool offset t pool).1 ∧
      r.SameScopes (Code.placePool offset s pool).2 (Code.placePool offset t pool).2 := by
  induction pool generalizing offset s t with
  | nil => exact ⟨rfl, h⟩
  | cons literal pool ih =>
    unfold Code.placePool
    split
    · exact ih _ (h.setStorage _ _)
    · exact ⟨rfl, h⟩

theorem resolve_same (h : r.SameScopes s t) (i : Instruction) :
    SameResult (i.resolve s) (i.resolve t) := by
  cases i with
  | plain op bytes => exact .ok _
  | symbolic op id offset =>
    have hs := h.symbol? id
    unfold Instruction.resolve
    dsimp only
    generalize s.symbol? id = o, t.symbol? id = o' at hs
    cases hs with
    | none => exact .ok _
    | @some x y hs =>
      dsimp only
      rw [hs.storage]
      cases y.storage with
      | none => exact .error (.inr ⟨rfl, rfl⟩)
      | some st => exact .ok _

theorem resolveFrom_same (h : r.SameScopes s t) (k : Nat) (is : Array Code.Placed) :
    SameResult (Code.resolveFrom s k is).1 (Code.resolveFrom t k is).1 ∧
      (Code.resolveFrom s k is).2 = (Code.resolveFrom t k is).2 := by
  fun_induction Code.resolveFrom s k is with
  | case1 k is hk i hi ih =>
    have hr := resolve_same h is[k].instruction
    generalize ht : is[k].instruction.resolve t = y at hr
    rw [hi] at hr
    cases hr
    have hstep : Code.resolveFrom t k is =
        Code.resolveFrom t (k + 1) (is.set k ⟨is[k].position, i⟩) := by
      conv_lhs => rw [Code.resolveFrom, dif_pos hk]
      simp only [ht]
    rwa [hstep]
  | case2 k is hk d hd =>
    have hr := resolve_same h is[k].instruction
    generalize ht : is[k].instruction.resolve t = y at hr
    rw [hd] at hr
    cases hr with
    | @error _ d' hdd =>
      have hstop : Code.resolveFrom t k is = (.error d', is) := by
        rw [Code.resolveFrom, dif_pos hk]
        simp only [ht]
      rw [hstop]
      exact ⟨.error hdd, rfl⟩
  | case3 k is hk =>
    rw [Code.resolveFrom, dif_neg hk]
    exact ⟨.ok _, rfl⟩

theorem build_same (h : r.SameScopes s t) (c : Code) :
    SameResult (c.build s).result (c.build t).result := by
  obtain ⟨hp, hs⟩ := placePool_same c.pool (Code.wordBoundary c.size) h
  unfold Code.build
  generalize Code.placePool _ s c.pool = x, Code.placePool _ t c.pool = y at hp hs
  obtain ⟨placed, s'⟩ := x
  obtain ⟨placed', t'⟩ := y
  dsimp only at hp hs
  subst hp
  cases placed with
  | error d => exact .error (.inl rfl)
  | ok size =>
    obtain ⟨hr, his⟩ := resolveFrom_same hs 0 c.instructions
    dsimp only
    unfold Code.resolve
    generalize Code.resolveFrom s' 0 c.instructions = x,
      Code.resolveFrom t' 0 c.instructions = y at hr his
    obtain ⟨result, is⟩ := x
    obtain ⟨result', is'⟩ := y
    dsimp only at hr his
    subst his
    cases hr with
    | ok a => exact .ok _
    | error hd => exact .error hd

theorem generate_same {n n' : Node} (h : r.SameNode n n')
    (hf : ∀ f ∈ n.functionNodes, f.kind = .functionDef) (hs : r.SameScopes s t) :
    SameResult (generate n s).code (generate n' t).code ∧
      r.SameScopes (generate n s).scopes (generate n' t).scopes := by
  have hp := sameUnit_programCode h hf ⟨s, .empty, #[]⟩ ⟨t, .empty, #[]⟩ ⟨rfl, hs⟩
  unfold generate
  generalize Emitter.programCode n _ = x, Emitter.programCode n' _ = y at hp
  cases hp with
  | ok _ hc =>
    refine ⟨?_, hc.scopes⟩
    dsimp only
    rw [hc.code]
    exact .ok _
  | error hd hc => exact ⟨.error hd, hc.scopes⟩

end Correspondence

namespace Renaming

variable {r : Renaming}

variable (r) in
theorem sameParsed_parseSource :
    r.correspondence.SameParsed (parseSource r.source .empty) (parseSource r.target .empty) := by
  exact Correspondence.sameParsed ⟨⟨0, Nat.zero_le _, rfl, rfl⟩, .empty, ⟨[], [], rfl, rfl, .nil⟩,
    rfl, rfl, fun _ => rfl⟩

theorem sameRemark {d d' : Diagnostic} (h : r.correspondence.SameDiagnostic d d') :
    SameRemark (tokensOf r.source) (tokensOf r.target) d.remark d'.remark := by
  obtain ⟨i, ht, hu⟩ := r.sameToken_of_correspondence h.token
  refine ⟨h.severity, i, d.token, d'.token, ht, hu, ?_, ?_⟩
  · cases d <;> exact ⟨rfl, rfl⟩
  · cases d' <;> exact ⟨rfl, rfl⟩

theorem sameRemarks {p q : Parsed} (h : r.correspondence.SameParsed p q) :
    List.Forall₂ (SameRemark (tokensOf r.source) (tokensOf r.target)) p.remarks q.remarks := by
  obtain ⟨ds, ds', hp, hq, hds⟩ := h.diagnostics
  unfold Parsed.remarks
  rw [hp, hq]
  exact List.rel_map (fun _ _ hd => sameRemark hd) hds

/-- An accepted program lacks a module only because of a limit of the machine. -/
theorem tellsLimit_of_compile {source : String} {dumps : Dumps} {d : Defect}
    (h : (compile source dumps).1 = .error (.defect d)) : d.tellsLimit = true := by
  cases hp : (parseSource source .empty).root with
  | none =>
    rw [compile_of_rejected hp] at h
    cases h
  | some root =>
    rcases compile_cases dumps hp with ⟨m, hm⟩ | ⟨d', hd, hl, -⟩
    · rw [hm] at h
      cases h
    · rw [hd] at h
      cases h
      exact hl

theorem sameOutcome_of_defects {dumps dumps' : Dumps} {d d' : Defect}
    (h : Correspondence.SameDefect d d')
    (hs : (compile r.source dumps).1 = .error (.defect d))
    (ht : (compile r.target dumps').1 = .error (.defect d')) :
    SameOutcome (tokensOf r.source) (tokensOf r.target) (compile r.source dumps).1
      (compile r.target dumps').1 := by
  rw [hs, ht]
  rcases h with rfl | ⟨hd, -⟩
  · exact .defect d
  · rw [tellsLimit_of_compile hs] at hd
    cases hd

theorem sameOutcome_of_accepted {root root' : Node} (dumps dumps' : Dumps)
    (hs : (parseSource r.source .empty).root = some root)
    (ht : (parseSource r.target .empty).root = some root') :
    SameOutcome (tokensOf r.source) (tokensOf r.target) (compile r.source dumps).1
      (compile r.target dumps').1 := by
  have hp := r.sameParsed_parseSource
  have hnode := hp.root
  rw [hs, ht] at hnode
  have hf : ∀ f ∈ root.functionNodes, f.kind = .functionDef := by
    obtain ⟨o, rfl, -⟩ := Parser.parseSource_outline hs
    intro f hf
    rw [Outline.functionNodes_root] at hf
    obtain ⟨g, -, rfl⟩ := List.mem_map.1 hf
    rfl
  obtain ⟨hg, hscopes⟩ := Correspondence.generate_same hnode hf hp.scopes
  -- the split is on how the two results are related, not on each of them
  generalize hgs : (generate root (parseSource r.source .empty).scopes).code = x,
    hgt : (generate root' (parseSource r.target .empty).scopes).code = y at hg
  cases hg with
  | error hd =>
    exact sameOutcome_of_defects hd (compile_of_generate_error hs hgs)
      (compile_of_generate_error ht hgt)
  | ok code =>
    have hb := Correspondence.build_same hscopes code
    have hcs : (compile r.source dumps).1 = _ := compile_of_build hs hgs
    have hct : (compile r.target dumps').1 = _ := compile_of_build ht hgt
    generalize (code.build (generate root (parseSource r.source .empty).scopes).scopes).result = x,
      (code.build (generate root' (parseSource r.target .empty).scopes).scopes).result = y
      at hb hcs hct
    cases hb with
    | ok text =>
      rw [hcs, hct]
      exact .compiled (sameRemarks hp)
    | error hd => exact sameOutcome_of_defects hd hcs hct

end Renaming

/-- If the tokens of two sources differ in their places and in the spelling of identifiers only,
equal identifiers standing where equal ones stand, then both sources have the same module, or both
are rejected, or both run into the same limit of the machine. What is said about them is of the same
severities and about tokens at the same indices. -/
theorem compile_renamed {f : String → String} {source target : String}
    (h : Renames f (tokensOf source) (tokensOf target)) (dumps dumps' : Dumps) :
    SameOutcome (tokensOf source) (tokensOf target) (compile source dumps).1
      (compile target dumps').1 := by
  let r : Renaming := ⟨source, target, f, h⟩
  have hp := r.sameParsed_parseSource
  have hroot := hp.root.rel
  generalize hs : (parseSource r.source .empty).root = root,
    ht : (parseSource r.target .empty).root = root' at hroot
  cases hroot with
  | none =>
    rw [compile_of_rejected hs, compile_of_rejected ht]
    exact .rejected (Renaming.sameRemarks hp)
  | some _ => exact Renaming.sameOutcome_of_accepted dumps dumps' hs ht

/-- A program without the semicolon behind its only statement. -/
def terseSource : String := "CD20 a main x : int, y : int begin x = y + 2 end CD20 a"

/-- The program of `terseSource` in other names, with comments and in many lines. -/
def relaxedSource : String :=
  "cd20 y /-- spare\nMain\n  a: INT, b: Int\nbegin /** sum **/ a = b+2\nEnd\nCd20 y\n"

/-- The names of `relaxedSource` in place of those of `terseSource`. -/
def relax (name : String) : String :=
  if name = "a" then "y" else if name = "x" then "a" else "b"

theorem compile_renamed_relaxed :
    Renames relax (tokensOf terseSource) (tokensOf relaxedSource) ∧
      (compile terseSource .none).1.isOk = true ∧
      (parseSource relaxedSource .empty).remarks.length = 1 ∧
      SameOutcome (tokensOf terseSource) (tokensOf relaxedSource) (compile terseSource .none).1
        (compile relaxedSource .none).1 := by
  have h : Renames relax (tokensOf terseSource) (tokensOf relaxedSource) :=
    ⟨by decide +kernel, by decide +kernel⟩
  exact ⟨h, by decide +kernel, by decide +kernel, compile_renamed h .none .none⟩

end StackCompiler
