import Mathlib.Logic.ExistsUnique
import StackCompiler.Proofs.Edits

/-!
# The stream of instructions

Whatever is done to code, its instructions lie one behind the other from position 0 on and keep
their places and sizes. Operands are exchanged at the start of an instruction that has operands of
its own, for as many, and nothing else changes.
-/

namespace StackCompiler

theorem Instruction.patch?_eq_some_iff {i j : Instruction} {new : List UInt8} :
    i.patch? new = some j ↔
      ∃ op old, i = .plain op old ∧ old.length = new.length ∧ j = .plain op new := by
  cases i with
  | plain op old =>
    constructor
    · intro h
      rw [patch?] at h
      split at h
      · next hl => exact ⟨op, old, rfl, hl, (Option.some.inj h).symm⟩
      · cases h
    · rintro ⟨op', old', he, hl, rfl⟩
      cases he
      exact if_pos hl
  | symbolic op id offset => simp [patch?]

namespace Code

/-- The instructions lie without gaps and without overlaps, each behind all before it. -/
structure Contiguous (c : Code) : Prop where
  position : ∀ (k : Nat) (x : Placed), c.instructions[k]? = some x →
    x.position = sizeOfAll ((c.instructions.toList.take k).map Placed.instruction)
  size : c.size = sizeOfAll (c.instructions.toList.map Placed.instruction)
  /-- Every byte belongs to one instruction. -/
  owner : ∀ b < c.size, ∃! k : Nat, ∃ x : Placed, c.instructions[k]? = some x ∧
    x.position ≤ b ∧ b < x.position + x.instruction.size

section Place

variable {p : Nat} {is : List Instruction}

theorem map_instruction_place (p : Nat) (is : List Instruction) :
    (place p is).map Placed.instruction = is := by
  induction is generalizing p with
  | nil => rfl
  | cons i is ih => rw [place, List.map_cons, ih]

theorem getElem?_place (p : Nat) (is : List Instruction) (k : Nat) :
    (place p is)[k]? = is[k]?.map fun i => ⟨p + sizeOfAll (is.take k), i⟩ := by
  induction is generalizing p k with
  | nil => simp
  | cons i is ih =>
    cases k with
    | zero => simp [place]
    | succ k => simp [place, ih, Nat.add_assoc]

theorem end_le_of_lt {k j : Nat} {i : Instruction} (hi : is[k]? = some i) (h : k < j) :
    sizeOfAll (is.take k) + i.size ≤ sizeOfAll (is.take j) := by
  have hsucc : is.take (k + 1) = is.take k ++ [i] := by
    rw [List.take_add_one, hi]
    rfl
  have htake : (is.take j).take (k + 1) = is.take (k + 1) := by
    rw [List.take_take, Nat.min_eq_left h]
  rw [← List.take_append_drop (k + 1) (is.take j), htake, hsucc]
  simp only [sizeOfAll_append, sizeOfAll_cons, sizeOfAll_nil]
  omega

theorem exists_owner {b : Nat} (h : b < sizeOfAll is) : ∃ k i, is[k]? = some i ∧
    sizeOfAll (is.take k) ≤ b ∧ b < sizeOfAll (is.take k) + i.size := by
  induction is generalizing b with
  | nil => simp at h
  | cons i is ih =>
    rw [sizeOfAll_cons] at h
    by_cases hb : b < i.size
    · exact ⟨0, i, rfl, by simp, by simpa using hb⟩
    · obtain ⟨k, j, hj, hle, hlt⟩ := ih (b := b - i.size) (by omega)
      refine ⟨k + 1, j, by simpa using hj, ?_, ?_⟩
      · rw [List.take_succ_cons, sizeOfAll_cons]
        omega
      · rw [List.take_succ_cons, sizeOfAll_cons]
        omega

end Place

variable {c c' : Code} {is : List Instruction}

theorem Is.getElem? (h : c.Is is) (k : Nat) :
    c.instructions[k]? = is[k]?.map fun i => ⟨sizeOfAll (is.take k), i⟩ := by
  rw [← Array.getElem?_toList, h.instructions, getElem?_place, Nat.zero_add]

theorem Is.contiguous (h : c.Is is) : c.Contiguous := by
  have hmap : c.instructions.toList.map Placed.instruction = is := by
    rw [h.instructions, map_instruction_place]
  refine ⟨fun k x hx => ?_, by rw [hmap, h.size], fun b hb => ?_⟩
  · rw [h.getElem?] at hx
    obtain ⟨i, -, rfl⟩ := Option.map_eq_some_iff.1 hx
    rw [List.map_take, hmap]
  · rw [h.size] at hb
    obtain ⟨k, i, hi, hle, hlt⟩ := exists_owner hb
    refine ⟨k, ⟨_, by rw [h.getElem?, hi]; rfl, hle, hlt⟩, ?_⟩
    rintro j ⟨x, hx, hle', hlt'⟩
    rw [h.getElem?] at hx
    obtain ⟨i', hi', rfl⟩ := Option.map_eq_some_iff.1 hx
    dsimp only at hle' hlt'
    rcases Nat.lt_trichotomy j k with hjk | hjk | hjk
    · have := end_le_of_lt hi' hjk
      omega
    · exact hjk
    · have := end_le_of_lt hi hjk
      omega

theorem Is.keeps {es : List Edit} (h : c.Is is) {k : Nat} {x : Placed}
    (hx : c.instructions[k]? = some x) : ∃ y, (es.foldl Code.edit c).instructions[k]? = some y ∧
      y.position = x.position ∧ y.instruction.size = x.instruction.size := by
  obtain ⟨js, hjs, more, hsizes⟩ := h.edits es
  rw [h.getElem?] at hx
  obtain ⟨i, hi, rfl⟩ := Option.map_eq_some_iff.1 hx
  have hk : k < is.length := (List.getElem?_eq_some_iff.1 hi).1
  -- the first instructions are as large as those that were there
  have hget : (js.map Instruction.size)[k]? = some i.size := by
    rw [← hsizes, List.getElem?_append_left (by simpa using hk), List.getElem?_map, hi]
    rfl
  rw [List.getElem?_map] at hget
  obtain ⟨j, hj, hsize⟩ := Option.map_eq_some_iff.1 hget
  have htake : sizeOfAll (js.take k) = sizeOfAll (is.take k) := by
    refine sizeOfAll_congr ?_
    rw [List.map_take, List.map_take, ← hsizes,
      List.take_append_of_le_length (by simpa using Nat.le_of_lt hk)]
  exact ⟨⟨sizeOfAll (js.take k), j⟩, by rw [hjs.getElem?, hj]; rfl, htake, hsize⟩

section Patch

variable {position : Nat} {new : List UInt8} {as bs : List Placed} {x : Placed}

theorem starts_cases (xs : List Placed) (position : Nat) :
    (∀ x ∈ xs, x.position ≠ position) ∨ ∃ as x bs, xs = as ++ x :: bs ∧ x.position = position ∧
      ∀ y ∈ as, y.position ≠ position := by
  cases hf : xs.find? fun x => x.position = position with
  | none =>
    left
    simpa using hf
  | some x =>
    right
    obtain ⟨hx, as, bs, hxs, has⟩ := List.find?_eq_some_iff_append.1 hf
    exact ⟨as, x, bs, hxs, by simpa using hx, by simpa using has⟩

theorem at?_of_absent (h : ∀ x ∈ c.instructions.toList, x.position ≠ position) :
    c.at? position = none := by
  rw [at?, ← Array.find?_toList, List.find?_eq_none.2]
  · rfl
  · intro x hx
    simpa using h x hx

section

variable (hc : c.instructions.toList = as ++ x :: bs) (hx : x.position = position)
  (has : ∀ y ∈ as, y.position ≠ position)
include hc hx has

theorem at?_of_split : c.at? position = some x.instruction := by
  rw [at?, ← Array.find?_toList, hc, List.find?_append, List.find?_eq_none.2]
  · simp [hx]
  · intro y hy
    simpa using has y hy

theorem indexAt?_of_split : c.indexAt? position = some as.length := by
  have harr : c.instructions = (as ++ x :: bs).toArray := by rw [← hc]
  rw [indexAt?, harr, List.findIdx?_toArray, List.findIdx?_append, List.findIdx?_eq_none_iff.2]
  · simp [hx, List.findIdx?_cons]
  · intro y hy
    simpa using has y hy

theorem patch_of_split {i : Instruction} (hi : x.instruction.patch? new = some i) :
    c.patch position new =
      .ok { c with instructions := (as ++ ⟨position, i⟩ :: bs).toArray } := by
  have hset : c.instructions.setIfInBounds as.length ⟨position, i⟩ =
      (as ++ ⟨position, i⟩ :: bs).toArray := by
    refine Array.toList_inj.1 ?_
    simp [Array.toList_setIfInBounds, hc]
  rw [patch, indexAt?_of_split hc hx has, at?_of_split hc hx has]
  simp only [hi, hset]

theorem patch_of_split_none (hi : x.instruction.patch? new = none) :
    c.patch position new = .error (.cannotPatch new.length x.instruction) := by
  rw [patch, indexAt?_of_split hc hx has, at?_of_split hc hx has]
  simp only [hi]

end

/-- Operands can be exchanged where the first instruction that starts at the position has as many
of its own. -/
theorem patch_eq_ok_iff : c.patch position new = .ok c' ↔ ∃ as op old bs,
    c.instructions.toList = as ++ ⟨position, .plain op old⟩ :: bs ∧
      (∀ x ∈ as, x.position ≠ position) ∧ old.length = new.length ∧
      c' = { c with instructions := (as ++ ⟨position, .plain op new⟩ :: bs).toArray } := by
  constructor
  · intro h
    rcases starts_cases c.instructions.toList position with hnone | ⟨as, x, bs, hc, hx, has⟩
    · simp [patch, at?_of_absent hnone] at h
    · cases hp : x.instruction.patch? new with
      | none =>
        rw [patch_of_split_none hc hx has hp] at h
        cases h
      | some i =>
        rw [patch_of_split hc hx has hp] at h
        cases h
        obtain ⟨op, old, hi, hl, rfl⟩ := Instruction.patch?_eq_some_iff.1 hp
        obtain ⟨q, i⟩ := x
        subst hx hi
        exact ⟨as, op, old, bs, hc, has, hl, rfl⟩
  · rintro ⟨as, op, old, bs, hc, has, hl, rfl⟩
    exact patch_of_split hc rfl has (Instruction.patch?_eq_some_iff.2 ⟨op, old, rfl, hl, rfl⟩)

end Patch

/-- What exchanging operands does and when it succeeds. -/
structure Patches (c : Code) (position : Nat) (new : List UInt8) : Prop where
  succeeds : (∃ c', c.patch position new = .ok c') ↔
    ∃ op old, ⟨position, .plain op old⟩ ∈ c.instructions ∧ old.length = new.length
  changes : ∀ c', c.patch position new = .ok c' → ∃ as op old bs,
    c.instructions.toList = as ++ ⟨position, .plain op old⟩ :: bs ∧ old.length = new.length ∧
      c' = { c with instructions := (as ++ ⟨position, .plain op new⟩ :: bs).toArray }
  fails : ∀ d, c.patch position new = .error d → c.edit (.patch position new) = c

theorem Is.patches (h : c.Is is) (position : Nat) (new : List UInt8) : c.Patches position new := by
  refine ⟨⟨?_, ?_⟩, ?_, ?_⟩
  · rintro ⟨c', hc'⟩
    obtain ⟨as, op, old, bs, hc, -, hl, -⟩ := patch_eq_ok_iff.1 hc'
    exact ⟨op, old, by rw [← Array.mem_toList_iff, hc]; simp, hl⟩
  · rintro ⟨op, old, hmem, hl⟩
    rw [← Array.mem_toList_iff, h.instructions, mem_place] at hmem
    obtain ⟨as, bs, rfl, hpos⟩ := hmem
    obtain ⟨c', hc', -⟩ := h.patch hl
    have hpos : position = sizeOfAll as := by simpa using hpos
    exact ⟨c', by rw [hpos, hc']⟩
  · intro c' hc'
    obtain ⟨as, op, old, bs, hc, -, hl, he⟩ := patch_eq_ok_iff.1 hc'
    exact ⟨as, op, old, bs, hc, hl, he⟩
  · intro d hd
    rw [Code.edit, hd]

/-- Whatever edits made the code, its instructions lie one behind the other; more edits leave those
that are there in their places and of their sizes, and operands are exchanged or left alone. -/
theorem edited_contiguous (es : List Edit) :
    (edited es).Contiguous ∧
    (∀ (more : List Edit) (k : Nat) (x : Placed), (edited es).instructions[k]? = some x →
      ∃ y, (edited (es ++ more)).instructions[k]? = some y ∧
        y.position = x.position ∧ y.instruction.size = x.instruction.size) ∧
    ∀ position new, (edited es).Patches position new := by
  obtain ⟨is, h⟩ := is_edited es
  refine ⟨h.contiguous, fun more k x hx => ?_, h.patches⟩
  have happend : edited (es ++ more) = more.foldl edit (edited es) := List.foldl_append
  rw [happend]
  exact h.keeps hx

/-- A number of slots to reserve, and a load of a symbol. -/
def reservingEdits : List Edit :=
  [.push (.plain .lb [2]), .push (.ofOperation .alloc), .push (.pending .pendingValue 0)]

/-- The load stays behind the other instructions while the number is exchanged, the loads are filled
in and code is added. -/
theorem edited_contiguous_reserving :
    (edited reservingEdits).instructions[2]? = some ⟨3, .pending .pendingValue 0⟩ ∧
    (edited reservingEdits).Contiguous ∧ (edited reservingEdits).Patches 0 [7] ∧
    ∃ y, (edited (reservingEdits ++ [.patch 0 [7], .resolve .empty,
        .push (.ofOperation .halt)])).instructions[2]? = some y ∧
      y.position = 3 ∧ y.instruction.size = 5 := by
  obtain ⟨hcontiguous, hkeeps, hpatches⟩ := edited_contiguous reservingEdits
  have hload : (edited reservingEdits).instructions[2]? = some ⟨3, .pending .pendingValue 0⟩ := by
    decide
  exact ⟨hload, hcontiguous, hpatches 0 [7], hkeeps _ 2 _ hload⟩

end Code

end StackCompiler
