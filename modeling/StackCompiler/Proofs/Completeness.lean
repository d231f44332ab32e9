import StackCompiler.Proofs.Compiling

/-!
# Every accepted program is compiled

The code generator accepts every tree that the parser makes. A program that is not rejected has a
module, unless it exceeds a limit of the machine.
-/

namespace StackCompiler

/-- Programs that the machine can hold: all counts fit the operands that hold them, and the code,
up to the next word, and the literals behind it can be addressed. -/
structure WithinLimits (root : Node) (scopes : Scopes) : Prop extends Assembly.Fits root where
  size : Code.wordBoundary (span (Assembly.program scopes.valueType root)) +
    Code.poolBytes scopes.literalSizes ≤ maxOffset

instance (root : Node) (scopes : Scopes) : Decidable (WithinLimits root scopes) :=
  decidable_of_iff (Assembly.Fits root ∧ _) ⟨fun h => ⟨h.1, h.2⟩, fun h => ⟨h.toFits, h.size⟩⟩

/-- Defects that tell of a limit of the machine. -/
def Defect.tellsLimit : Defect → Bool
  | countTooLarge _ | positionTooLarge _ | constantTooFar _ => true
  | _ => false

theorem Defect.IsLimit.tellsLimit {root : Node} {scopes : Scopes} {d : Defect}
    (h : d.IsLimit (Assembly.Fits root) (span (Assembly.program scopes.valueType root))) :
    d.tellsLimit = true ∧ ¬ WithinLimits root scopes := by
  rcases h with ⟨count, rfl, hf⟩ | ⟨p, rfl, hlt, hle⟩
  · exact ⟨rfl, fun hw => hf hw.toFits⟩
  · refine ⟨rfl, fun hw => ?_⟩
    have := hw.size
    have := le_wordBoundary (span (Assembly.program scopes.valueType root))
    omega

theorem compile_cases {source : String} {root : Node} (dumps : Dumps)
    (h : (parseSource source .empty).root = some root) :
    (∃ m, (compile source dumps).1 = .ok m) ∨
      ∃ d, (compile source dumps).1 = .error (.defect d) ∧ d.tellsLimit = true ∧
        ¬ WithinLimits root (parseSource source .empty).scopes := by
  obtain ⟨o, rfl, hv⟩ := Parser.parseSource_outline h
  rcases hv.build_cases with ⟨code, hg, hb⟩ | ⟨code, p, hg, hr, hlt, hle⟩ | ⟨d, hg, hd⟩
  · exact .inl ⟨_, by rw [compile_of_build h hg, hb.result]⟩
  · refine .inr ⟨.constantTooFar p, by rw [compile_of_build h hg, hr], rfl, fun hw => ?_⟩
    have := hw.size
    omega
  · exact .inr ⟨d, compile_of_generate_error h hg, hd.tellsLimit⟩

/-- A source that the parser rejects is rejected. One that it accepts has a module if the program is
within the limits of the machine; if there is none, then because the program exceeds them, and the
defect says so. The sizes that the limits speak of are those of the code. -/
theorem compile_total (source : String) (dumps : Dumps) :
    ((parseSource source .empty).root = none →
      (compile source dumps).1 = .error (.rejected (parseSource source .empty).remarks)) ∧
    ∀ root, (parseSource source .empty).root = some root →
      (WithinLimits root (parseSource source .empty).scopes →
        ∃ m, (compile source dumps).1 = .ok m) ∧
      (∀ e, (compile source dumps).1 = .error e →
        ¬ WithinLimits root (parseSource source .empty).scopes ∧
          ∃ d, e = .defect d ∧ d.tellsLimit = true) ∧
      ∀ code, (generate root (parseSource source .empty).scopes).code = .ok code →
        code.size = span (Assembly.program (parseSource source .empty).scopes.valueType root) ∧
          Code.poolBytes code.pool =
            Code.poolBytes (parseSource source .empty).scopes.literalSizes := by
  refine ⟨compile_of_rejected, fun root h => ⟨fun hw => ?_, fun e he => ?_, fun code hg => ?_⟩⟩
  · rcases compile_cases dumps h with hm | ⟨d, -, -, hn⟩
    · exact hm
    · exact absurd hw hn
  · rcases compile_cases dumps h with ⟨m, hm⟩ | ⟨d, hd, hl, hn⟩
    · simp [hm] at he
    · obtain rfl : .defect d = e := by simpa [hd] using he
      exact ⟨hn, d, rfl, hl⟩
  · obtain ⟨o, rfl, hv⟩ := Parser.parseSource_outline h
    rcases hv.generate_cases with ⟨code', hg', hc, hl, -⟩ | ⟨d, hd, -⟩
    · obtain rfl : code = code' := by simpa [hg] using hg'
      exact ⟨hc.size, Emitter.poolBytes_of_literals hv.scopes hl⟩
    · simp [hg] at hd

/-- A program with a function that calls itself. -/
def recursiveSource : String :=
  "CD20 p func f(x : int) : void begin f(x); end main begin f(1); end CD20 p"

theorem compile_total_recursive : ∃ root m,
    WithinLimits root (parseSource recursiveSource .empty).scopes ∧
      (compile recursiveSource .none).1 = .ok m := by
  have h : ((parseSource recursiveSource .empty).root.any fun root =>
      WithinLimits root (parseSource recursiveSource .empty).scopes) = true := by
    rw [parseSource, tokensOf_chars recursiveSource rfl]
    decide +kernel
  obtain ⟨root, hr, hw⟩ := (Option.any_eq_true _ _).1 h
  have hw := of_decide_eq_true hw
  obtain ⟨m, hm⟩ := ((compile_total recursiveSource .none).2 root hr).1 hw
  exact ⟨root, m, hw, hm⟩

end StackCompiler
