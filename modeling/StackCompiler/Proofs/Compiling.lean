import StackCompiler.Compilation
import StackCompiler.Proofs.Reading.Programs
import StackCompiler.Proofs.Operands

/-!
# Compiling a program

What becomes of a program with a valid outline: a module whose code is the assembly of the program
with all places filled in, or a defect that says which limit the program exceeds.
-/

namespace StackCompiler

namespace Outline

variable {o : Outline} {s : Scopes}

/-- What is left when the module of a program has been built. -/
structure Builds (o : Outline) (s : Scopes) (built : Code.Build) : Prop where
  result : built.result = .ok built.code.moduleText
  loaded : o.Loaded s built.scopes
  code : built.code.Is ((Assembly.program s.valueType o.root).map (Line.placed built.scopes))
  literals : built.code.literals = (Emitter.withLiterals s .empty).literals
  addresses : ∀ id ∈ s.constants.symbols,
    ∃ a ≤ maxOffset, built.scopes.Stores id ⟨.constants, (a : Nat)⟩
  fit : ∀ l ∈ Assembly.program s.valueType o.root, l.Fits
  entries : ∀ k < o.functions.length,
    span ((Assembly.segments s.valueType o.root).take (k + 1)).flatten ≤ maxOffset

theorem Valid.generate_cases (h : o.Valid s) :
    (∃ code, (generate o.root s).code = .ok code ∧
      code.Is ((Assembly.program s.valueType o.root).map Line.instruction) ∧
      code.literals = (Emitter.withLiterals s .empty).literals ∧
      (generate o.root s).scopes.symbols = (Assembly.enter s.valueType s
        (span (Assembly.main s.valueType o.root)) o.root.functionNodes).symbols ∧
      (∀ l ∈ Assembly.program s.valueType o.root, l.Fits) ∧
      ∀ k < o.functions.length,
        span ((Assembly.segments s.valueType o.root).take (k + 1)).flatten ≤ maxOffset) ∨
    ∃ d, (generate o.root s).code = .error d ∧
      d.IsLimit (Assembly.Fits o.root) (span (Assembly.program s.valueType o.root)) := by
  have hw := Emitter.wp_programCode h
  cases hp : Emitter.programCode o.root ⟨s, .empty, #[]⟩ with
  | ok u st =>
    obtain ⟨ha, hentries⟩ := wp_of_ok hw hp
    refine .inl ⟨st.code, ?_, ha.code, ha.literals, ?_, ha.fit, hentries⟩
    · rw [generate, hp]
    · rw [generate, hp]
      exact ha.symbols
  | error d st =>
    have hd := wp_of_error hw hp
    exact .inr ⟨d, by rw [generate, hp], hd⟩

theorem Valid.build_cases (h : o.Valid s) :
    (∃ code, (generate o.root s).code = .ok code ∧
      o.Builds s (code.build (generate o.root s).scopes)) ∨
    (∃ code p, (generate o.root s).code = .ok code ∧
      (code.build (generate o.root s).scopes).result = .error (.constantTooFar p) ∧
      maxOffset < p ∧ p ≤ Code.wordBoundary (span (Assembly.program s.valueType o.root)) +
        Code.poolBytes s.literalSizes) ∨
    ∃ d, (generate o.root s).code = .error d ∧
      d.IsLimit (Assembly.Fits o.root) (span (Assembly.program s.valueType o.root)) := by
  rcases h.generate_cases with ⟨code, hg, hc, hl, hs, hfit, hentries⟩ | hd
  · have hL := h.loaded (Code.wordBoundary code.size) hs hl
    have hcases := hc.build_cases (generate o.root s).scopes fun i hi => by
      obtain ⟨l, hl, rfl⟩ := List.mem_map.1 hi
      exact (hL.isPlaced h hl).resolve
    rcases hcases with ⟨hr, hscopes, hcode, hlit, hreach⟩ | ⟨p, hr, hlt, hle⟩
    · rw [← hscopes] at hL
      rw [List.map_map] at hcode
      refine .inl ⟨code, hg, hr, hL, hcode, hlit.trans hl, fun id hid => ?_, hfit, hentries⟩
      obtain ⟨-, sym, hs, -⟩ := hL.literal hid
      have hmem : id ∈ code.pool.map Prod.fst := by
        rwa [((Emitter.pool_of_literals h.scopes hl).map Prod.fst).mem_iff,
          Scopes.map_fst_literalSizes]
      obtain ⟨a, ha, hst⟩ := hreach id hmem sym hs
      exact ⟨a, ha, sym, hs, hst⟩
    · rw [hc.size, Emitter.poolBytes_of_literals h.scopes hl] at hle
      exact .inr (.inl ⟨code, p, hg, hr, hlt, hle⟩)
  · exact .inr (.inr hd)

theorem Builds.slots_le {built : Code.Build} (hb : o.Builds s built)
    {visible : Symbol.Id → Prop} {last : Operation} {slots p : Nat} {lines : List Line}
    (hs : s.IsSegment visible last slots p lines)
    (hmem : lines ∈ Assembly.segments s.valueType o.root) : slots ≤ Emitter.maxHalf := by
  by_cases hz : slots = 0
  · omega
  · obtain ⟨body, rfl, -⟩ := hs.linked
    have hl : .count slots ∈ Assembly.program s.valueType o.root :=
      List.mem_flatten.2 ⟨_, hmem, by rw [Assembly.alloc, if_neg hz]; simp⟩
    exact hb.fit _ hl

end Outline

section Compile

variable {source : String} {dumps : Dumps} {root : Node} {code : Code} {d : Defect}

theorem compile_of_rejected (h : (parseSource source .empty).root = none) :
    (compile source dumps).1 = .error (.rejected (parseSource source .empty).remarks) := by
  simp only [compile, h]

theorem compile_of_generate_error (h : (parseSource source .empty).root = some root)
    (hg : (generate root (parseSource source .empty).scopes).code = .error d) :
    (compile source dumps).1 = .error (.defect d) := by
  simp only [compile, h, hg]

theorem compile_of_build (h : (parseSource source .empty).root = some root)
    (hg : (generate root (parseSource source .empty).scopes).code = .ok code) :
    (compile source dumps).1 =
      match (code.build (generate root (parseSource source .empty).scopes).scopes).result with
      | .ok text => .ok ⟨text, (parseSource source .empty).remarks⟩
      | .error d => .error (.defect d) := by
  simp only [compile, h, hg]
  split <;> rename_i hr <;> simp only [hr]

/-- The tree of a source, and the module that was built for it. -/
structure CompilesTo (source : String) (root : Node) (built : Code.Build) : Prop where
  tree : (parseSource source .empty).root = some root
  module : ∃ code, (generate root (parseSource source .empty).scopes).code = .ok code ∧
    built = code.build (generate root (parseSource source .empty).scopes).scopes

theorem exists_builds {m : Compiled} (h : (compile source dumps).1 = .ok m) :
    ∃ o : Outline, ∃ built, CompilesTo source o.root built ∧ built.result = .ok m.moduleText ∧
      o.Valid (parseSource source .empty).scopes ∧
      o.Builds (parseSource source .empty).scopes built := by
  cases hr : (parseSource source .empty).root with
  | none => simp [compile_of_rejected hr] at h
  | some root =>
    obtain ⟨o, rfl, hv⟩ := Parser.parseSource_outline hr
    rcases hv.build_cases with ⟨code, hg, hb⟩ | ⟨code, p, hg, he, -⟩ | ⟨d, hg, -⟩
    · rw [compile_of_build hr hg, hb.result] at h
      obtain rfl : _ = m := Except.ok.inj h
      exact ⟨o, _, ⟨hr, code, hg, rfl⟩, hb.result, hv, hb⟩
    · simp [compile_of_build hr hg, he] at h
    · simp [compile_of_generate_error hr hg] at h

theorem exists_of_isOk {ε α : Type} {x : Except ε α} (h : x.isOk = true) : ∃ a, x = .ok a := by
  cases x with
  | error e => cases h
  | ok a => exact ⟨a, rfl⟩

end Compile

end StackCompiler
