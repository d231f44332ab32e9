import StackCompiler.Proofs.Assembly
import StackCompiler.Proofs.Logic

/-!
# Emitting what is written down

An emitter appends the instructions of an assembly, or it fails because the code is too large. An
assembly depends on the position where it starts.
-/

namespace StackCompiler

namespace Node

def arity (n : Node) : Nat :=
  if n.kind = .call ∨ n.kind = .callStatement then (Emitter.argumentItems n.left).length else 0

/-- Every call in the tree has a number of arguments that fits an operand. -/
abbrev CallsFit (n : Node) : Prop := n.All fun m => m.arity ≤ Emitter.maxHalf

abbrev CallsFitIn (n : Option Node) : Prop := AllIn (fun m => m.arity ≤ Emitter.maxHalf) n

end Node

/-- A defect of code of the given size that no fault of the tree can cause: a count that is too
large although `fits` says otherwise, or a position that no address reaches. -/
def Defect.IsLimit (fits : Prop) (size : Nat) (d : Defect) : Prop :=
  (∃ count, d = .countTooLarge count ∧ ¬ fits) ∨
    ∃ p, d = .positionTooLarge p ∧ maxOffset < p ∧ p ≤ size

theorem Defect.IsLimit.mono {fits fits' : Prop} {size size' : Nat} {d : Defect}
    (h : d.IsLimit fits size) (hf : fits' → fits) (hs : size ≤ size') : d.IsLimit fits' size' := by
  rcases h with ⟨count, rfl, hn⟩ | ⟨p, rfl, hp, hle⟩
  · exact .inl ⟨count, rfl, fun hf' => hn (hf hf')⟩
  · exact .inr ⟨p, rfl, hp, Nat.le_trans hle hs⟩

def Symbol.unplaced (sym : Symbol) : Symbol := { sym with storage := none }

/-- The scopes differ in open scopes and in places of symbols only. -/
structure Scopes.Alike (S S' : Scopes) : Prop where
  index : S'.index = S.index
  tables : S'.tables = S.tables
  constants : S'.constants = S.constants
  symbols : ∀ id, (S'.symbol? id).map Symbol.unplaced = (S.symbol? id).map Symbol.unplaced

namespace Scopes.Alike

variable {S S' : Scopes}

theorem refl (S : Scopes) : S.Alike S := ⟨rfl, rfl, rfl, fun _ => rfl⟩

theorem symbol? (h : S.Alike S') {id : Symbol.Id} {sym : Symbol} (hs : S.symbol? id = some sym) :
    ∃ sym', S'.symbol? id = some sym' ∧ sym'.unplaced = sym.unplaced := by
  have := h.symbols id
  rw [hs, Option.map_some, Option.map_eq_some_iff] at this
  exact this

theorem valueType (h : S.Alike S') (id : Symbol.Id) : S'.valueType id = S.valueType id := by
  have hu : ∀ o : Option Symbol, (o.map Symbol.valueType).getD .void =
      ((o.map Symbol.unplaced).map Symbol.valueType).getD .void := by
    rintro (_ | sym) <;> rfl
  rw [Scopes.valueType, Scopes.valueType, hu, h.symbols, ← hu]

theorem made (h : S.Alike S') {scope : String} (hm : S.Made scope) : S'.Made scope := by
  obtain ⟨i, hi⟩ := hm
  exact ⟨i, h.index ▸ hi⟩

end Scopes.Alike

namespace Emitter

/-- The code emitted so far is `is`, all of which fits its operands, and the scopes are those of `S`,
whichever of them are open. -/
structure State.At (S : Scopes) (literals : Code.Literals) (is : List Line) (s : State) :
    Prop where
  code : s.code.Is (is.map Line.instruction)
  fit : ∀ l ∈ is, l.Fits
  literals : s.code.literals = literals
  symbols : s.scopes.symbols = S.symbols
  tables : s.scopes.tables = S.tables
  index : s.scopes.index = S.index
  constants : s.scopes.constants = S.constants

section Emits

variable {S : Scopes} {literals : Code.Literals} {fits : Prop} {size : Nat} {is : List Line}
  {s : State} {x y : Emitter Unit} {c d code : Nat → List Line} {l : Line}

theorem State.At.symbol? (h : s.At S literals is) (id : Symbol.Id) :
    s.scopes.symbol? id = S.symbol? id := by
  rw [Scopes.symbol?, Scopes.symbol?, h.symbols]

theorem State.At.valueType (h : s.At S literals is) (id : Symbol.Id) :
    s.scopes.valueType id = S.valueType id := by
  rw [Scopes.valueType, Scopes.valueType, h.symbol?]

variable (S literals) in
/-- The emitter appends the assembly for the position where it starts. If it fails, it does so
because that is too much code, or because not `fits`. -/
def Emits (fits : Prop) (x : Emitter Unit) (code : Nat → List Line) : Prop :=
  ∀ is s, s.At S literals is →
    wp (fun d _ => d.IsLimit fits (span is + span (code (span is)))) x
      (fun _ s' => s'.At S literals (is ++ code (span is))) s

theorem Emits.step {f : Prop} {Q : Unit → State → Prop} (h : Emits S literals f x code)
    (ha : s.At S literals is) (hf : fits → f) (hs : span is + span (code (span is)) ≤ size)
    (hQ : ∀ s', s'.At S literals (is ++ code (span is)) → Q () s') :
    wp (fun d _ => d.IsLimit fits size) x Q s :=
  wp_weaken (h is s ha) (fun _ _ hd => hd.mono hf hs) fun _ s' => hQ s'

theorem emits_pure : Emits S literals fits (pure ()) fun _ => [] := by
  intro is s ha
  simpa [wp_pure] using ha

theorem Emits.weaken {f : Prop} (h : Emits S literals f x code) (hf : fits → f) :
    Emits S literals fits x code :=
  fun _ _ ha => h.step ha hf (Nat.le_refl _) fun _ ha => ha

theorem Emits.congr (h : Emits S literals fits x c) (hd : ∀ p, d p = c p) :
    Emits S literals fits x d :=
  funext hd ▸ h

theorem Emits.bind (hx : Emits S literals fits x c) (hy : Emits S literals fits y d) :
    Emits S literals fits (x >>= fun _ => y) fun p => c p ++ d (p + span (c p)) := by
  intro is s ha
  rw [wp_bind]
  refine hx.step ha id (by simp only [span_append]; omega) fun s' ha' => ?_
  refine hy.step ha' id (by simp only [span_append]; omega) fun s'' ha'' => ?_
  simpa only [span_append, List.append_assoc] using ha''

theorem Emits.append {c d : List Line} (hx : Emits S literals fits x fun _ => c)
    (hy : Emits S literals fits y fun _ => d) :
    Emits S literals fits (x >>= fun _ => y) fun _ => c ++ d := hx.bind hy

theorem emits_forIn {γ : Type} {items : List γ} {x : γ → Emitter Unit}
    {code : γ → List Line} (h : ∀ n ∈ items, Emits S literals fits (x n) fun _ => code n) :
    Emits S literals fits
      (forIn items PUnit.unit fun n _ => x n >>= fun _ => pure (.yield PUnit.unit))
      fun _ => items.flatMap code := by
  induction items with
  | nil => exact emits_pure
  | cons n items ih =>
    simp only [List.forIn_cons, bind_assoc, pure_bind, List.flatMap_cons]
    exact (h n (by simp)).append (ih fun m hm => h m (by simp [hm]))

theorem State.At.emit (h : s.At S literals is) (hl : l.Fits) (log : Log) :
    ({ s with code := s.code.push l.instruction, log := log } : State).At S literals
      (is ++ [l]) := by
  refine ⟨?_, fun m hm => ?_, h.literals, h.symbols, h.tables, h.index, h.constants⟩
  · rw [List.map_append]
    exact h.code.push l.instruction
  · rcases List.mem_append.1 hm with hm | hm
    · exact h.fit m hm
    · rwa [List.mem_singleton.1 hm]

theorem emits_line (hl : l.Fits) : Emits S literals fits (emit l.instruction) fun _ => [l] := by
  intro is s ha
  exact ha.emit hl _

theorem emits_op (o : Operation) : Emits S literals fits (emitOp o) fun _ => [Line.op o] :=
  emits_line (l := .op o) trivial

theorem emits_value (id : Symbol.Id) :
    Emits S literals fits (emitValue id) fun _ => [Line.value id] :=
  emits_line (l := .value id) trivial

theorem emits_address (id : Symbol.Id) :
    Emits S literals fits (emitAddress id) fun _ => [Line.address id] :=
  emits_line (l := .address id) trivial

theorem emits_count (n : Nat) :
    Emits S literals (n ≤ maxHalf) (emitCount n) fun _ => [Line.count n] := by
  have he (h : n ≤ maxHalf) : emitCount n = emit (Line.count n).instruction := by
    simp only [emitCount, Line.instruction, if_pos h]
    split <;> rfl
  by_cases h : n ≤ maxHalf
  · rw [he h]
    exact emits_line h
  · intro is s ha
    have hb : ¬ n ≤ maxByte := fun hb => h (Nat.le_trans hb (by decide))
    rw [emitCount, if_neg hb, if_neg h]
    exact .inl ⟨n, rfl, h⟩

theorem emits_alloc (slots : Nat) :
    Emits S literals (slots ≤ maxHalf) (emitAlloc slots) fun _ => Assembly.alloc slots := by
  unfold emitAlloc Assembly.alloc
  split
  · exact emits_pure
  · exact (emits_count slots).append (emits_op .alloc)

end Emits

end Emitter

end StackCompiler
