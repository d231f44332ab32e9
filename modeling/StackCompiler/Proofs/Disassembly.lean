import StackCompiler.Proofs.Contents
import StackCompiler.Proofs.ControlFlow
import StackCompiler.Proofs.Machine

/-!
# Disassembling a module

Nothing in the bytes of a module tells where an instruction starts, so whoever reads them has to
know from each operation how many operand bytes follow it. All instructions of a program have as
many as that, so that the bytes can be read as the instructions they were written from.
-/

namespace StackCompiler

namespace Operation

/-- The number of operand bytes that a reader of code expects. -/
def operandLength : Operation → Nat
  | lb => 1
  | lh => 2
  | loadValue _ | loadAddress _ => 4
  | _ => 0

theorem operandLength_of_isOrdinary {o : Operation} (h : o.isOrdinary = true) :
    o.operandLength = 0 ∧ o.isPending = false := by
  cases o <;> first | exact ⟨rfl, rfl⟩ | cases h

theorem operandLength_inRegion (o : Operation) (r : Region) : (o.inRegion r).operandLength = 4 := by
  unfold inRegion
  split <;> rfl

theorem isPending_inRegion (o : Operation) (r : Region) : (o.inRegion r).isPending = false := by
  unfold inRegion
  split <;> rfl

end Operation

/-- What is read from the bytes of an instruction, and where they start. -/
structure Disassembled where
  position : Nat
  operation : Operation
  operands : List UInt8
deriving DecidableEq, Repr

/-- Reads bytes as instructions, the first of which starts at `p`. -/
def disassemble (p : Nat) : List UInt8 → Option (List Disassembled)
  | [] => some []
  | b :: bytes =>
    match Operation.ofCode? b.toNat with
    | none => none
    | some o =>
      if o.operandLength ≤ bytes.length then
        (disassemble (p + 1 + o.operandLength) (bytes.drop o.operandLength)).map
          (⟨p, o, bytes.take o.operandLength⟩ :: ·)
      else none
termination_by bytes => bytes.length
decreasing_by
  simp only [List.length_drop, List.length_cons]
  omega

def Code.Placed.disassembled (x : Code.Placed) : Disassembled :=
  ⟨x.position, x.instruction.operation, x.instruction.operands⟩

namespace Instruction

def WellSized (i : Instruction) : Prop := i.operands.length = i.operation.operandLength

theorem disassemble_bytes {i : Instruction} (h : i.WellSized) (p : Nat) (rest : List UInt8) :
    disassemble p (i.bytes ++ rest) =
      (disassemble (p + i.size) rest).map ((⟨p, i⟩ : Code.Placed).disassembled :: ·) := by
  have hcode : (UInt8.ofNat i.operation.code).toNat = i.operation.code := by
    rw [UInt8.toNat_ofNat', Nat.mod_eq_of_lt i.operation.code_lt]
  have hsize : p + 1 + i.operation.operandLength = p + i.size := by
    rw [← h, size]
    omega
  rw [bytes, List.cons_append, disassemble, hcode, Operation.ofCode?_code]
  simp only
  rw [if_pos (by rw [List.length_append, h]; omega), hsize, ← h, List.drop_left, List.take_left]
  rfl

end Instruction

namespace Code

theorem disassemble_flatMap {is : List Instruction} (h : ∀ i ∈ is, i.WellSized) (p : Nat) :
    disassemble p (is.flatMap Instruction.bytes) =
      some ((place p is).map Placed.disassembled) := by
  induction is generalizing p with
  | nil => rw [List.flatMap_nil, disassemble]; rfl
  | cons i is ih =>
    rw [List.flatMap_cons, Instruction.disassemble_bytes (h i (by simp)),
      ih fun j hj => h j (by simp [hj])]
    rfl

theorem flatMap_halts (k : Nat) :
    (List.replicate k (Instruction.ofOperation .halt)).flatMap Instruction.bytes =
      List.replicate k 0 := by
  induction k with
  | zero => rfl
  | succ k ih =>
    rw [List.replicate_succ, List.flatMap_cons, ih]
    rfl

theorem wellSized_halts (k : Nat) :
    ∀ i ∈ List.replicate k (Instruction.ofOperation .halt), i.WellSized := by
  intro i hi
  rw [List.eq_of_mem_replicate hi]
  rfl

theorem Is.disassemble {c : Code} {is : List Instruction} (hc : c.Is is)
    (h : ∀ i ∈ is, i.WellSized) (k : Nat) :
    StackCompiler.disassemble 0 (c.codeBytes ++ List.replicate k 0) =
      some ((c.instructions.toList ++ place c.size (List.replicate k (.ofOperation .halt))).map
        Placed.disassembled) := by
  have hall : ∀ i ∈ is ++ List.replicate k (.ofOperation .halt), i.WellSized := by
    intro i hi
    rcases List.mem_append.1 hi with hi | hi
    · exact h i hi
    · exact wellSized_halts k i hi
  have hread := disassemble_flatMap hall 0
  rwa [List.flatMap_append, flatMap_halts, ← hc.codeBytes, place_append, ← hc.instructions,
    Nat.zero_add, ← hc.size] at hread

end Code

namespace Line

variable {L : Scopes} {l : Line}

/-- A line that is filled in has the operand bytes of its operation, which waits for nothing. -/
theorem wellSized_placed (hl : l.IsPlaced L)
    (ho : ∀ o, l = .op o → o.operandLength = 0 ∧ o.isPending = false) :
    (l.placed L).WellSized ∧ (l.placed L).operation.isPending = false := by
  cases l with
  | op o =>
    obtain ⟨hlen, hp⟩ := ho o rfl
    exact ⟨hlen.symm, hp⟩
  | count n =>
    rw [placed_count]
    rcases operation_count n with ⟨hi, -⟩ | hi
    all_goals
      rw [hi]
      exact ⟨length_bigEndian _ _, rfl⟩
  | jump target => exact ⟨length_bigEndian _ _, rfl⟩
  | value id | address id =>
    obtain ⟨st, hst⟩ := hl
    rw [placed, instruction, hst.placed]
    refine ⟨?_, Operation.isPending_inRegion _ _⟩
    exact (length_bigEndian _ _).trans (Operation.operandLength_inRegion _ _).symm

end Line

theorem Scopes.IsSegment.operandLength {s : Scopes} {visible : Symbol.Id → Prop} {last : Operation}
    {slots p : Nat} {lines : List Line} (h : s.IsSegment visible last slots p lines) {o : Operation}
    (ho : .op o ∈ lines) : o.operandLength = 0 ∧ o.isPending = false := by
  rcases h.admits ho with hc | ha | ha
  · cases hc
  · cases ha
    exact ⟨rfl, rfl⟩
  · cases ha with
    | op hord => exact Operation.operandLength_of_isOrdinary hord

namespace Outline

variable {o : Outline} {s : Scopes} {built : Code.Build}

theorem Builds.wellSized (hb : o.Builds s built) (h : o.Valid s) :
    ∀ i ∈ (Assembly.program s.valueType o.root).map (Line.placed built.scopes),
      i.WellSized ∧ i.operation.isPending = false := by
  intro i hi
  obtain ⟨l, hl, rfl⟩ := List.mem_map.1 hi
  obtain ⟨lines, hlines, hmem⟩ := List.mem_flatten.1 hl
  obtain ⟨k, hk⟩ := List.mem_iff_getElem?.1 hlines
  obtain ⟨visible, last, slots, hseg, -⟩ := h.exists_isSegment hk
  refine Line.wellSized_placed (hb.loaded.isPlaced h hl) fun op hop => ?_
  subst hop
  exact hseg.operandLength hmem

theorem Builds.instructions {code : Code} (hb : o.Builds s built) (h : o.Valid s)
    (hg : (generate o.root s).code = .ok code) :
    built.code.instructions.toList = code.instructions.toList.map (Code.Placed.fill built.scopes) := by
  rcases h.generate_cases with ⟨code', hg', hc, -⟩ | ⟨d, hg', -⟩
  · obtain rfl : code' = code := Except.ok.inj (hg'.symm.trans hg)
    rw [hb.code.instructions, hc.instructions, ← Code.place_map_placed, List.map_map]
    rfl
  · rw [hg'] at hg
    cases hg

end Outline

/-- The code of every module can be disassembled: reading its bytes from the start on, with as many
operand bytes for each operation as the machine takes, gives the instructions of the program at
their positions, then instructions that halt up to the end of the word. No load waits for its
place. -/
theorem compile_disassembles {source : String} {dumps : Dumps} {m : Compiled}
    (h : (compile source dumps).1 = .ok m) :
    ∃ root code built contents k, CompilesTo source root built ∧
      built.result = .ok m.moduleText ∧
      (generate root (parseSource source .empty).scopes).code = .ok code ∧
      built.code.instructions.toList =
        code.instructions.toList.map (Code.Placed.fill built.scopes) ∧
      Contents.read? m.moduleText = some contents ∧ k < Section.wordSize ∧
      disassemble 0 contents.code = some ((built.code.instructions.toList ++
        Code.place built.code.size (List.replicate k (.ofOperation .halt))).map
          Code.Placed.disassembled) ∧
      ∀ x ∈ built.code.instructions.toList, x.instruction.operation.isPending = false := by
  obtain ⟨o, built, hc, hr, hv, hb⟩ := exists_builds h
  obtain ⟨code, hg, -⟩ := hc.module
  have hsized := hb.wellSized hv
  have hread : Contents.read? m.moduleText = some built.code.contents := by
    have hm : built.code.moduleText = m.moduleText := Except.ok.inj (hb.result.symm.trans hr)
    rw [← hm]
    exact built.code.contents_moduleText
  obtain ⟨k, hk, hfill, -⟩ := fillsUp_filled built.code.codeBytes
  refine ⟨o.root, code, built, _, k, hc, hr, hg, hb.instructions hv hg, hread, hk, ?_, ?_⟩
  · rw [Code.contents, hfill]
    exact hb.code.disassemble (fun i hi => (hsized i hi).1) k
  · intro x hx
    rw [hb.code.instructions] at hx
    obtain ⟨as, bs, hi, -⟩ := Code.mem_place.1 hx
    exact (hsized x.instruction (by rw [hi]; simp)).2

/-- A program with a call, a jump and loads of all regions. -/
def listedSource : String :=
  "CD20 p func f(a : int) : int begin return a; end " ++
  "main x : int begin if (true) x = f(2); end print x; end CD20 p"

theorem compile_disassembles_listed : ∃ m root code built contents k,
    (compile listedSource .none).1 = .ok m ∧ CompilesTo listedSource root built ∧
      (generate root (parseSource listedSource .empty).scopes).code = .ok code ∧
      built.code.instructions.toList =
        code.instructions.toList.map (Code.Placed.fill built.scopes) ∧
      Contents.read? m.moduleText = some contents ∧ k < Section.wordSize ∧
      disassemble 0 contents.code = some ((built.code.instructions.toList ++
        Code.place built.code.size (List.replicate k (.ofOperation .halt))).map
          Code.Placed.disassembled) := by
  have hok : (compile listedSource .none).1.isOk = true := by
    rw [compile, parseSource, tokensOf_chars listedSource (append_eq_ofList rfl rfl)]
    decide +kernel
  obtain ⟨m, hm⟩ := exists_of_isOk hok
  obtain ⟨root, code, built, contents, k, hc, -, hg, hi, hread, hk, hd, -⟩ :=
    compile_disassembles hm
  exact ⟨m, root, code, built, contents, k, hm, hc, hg, hi, hread, hk, hd⟩

end StackCompiler
