import Mathlib.Algebra.Ring.Nat
import StackCompiler.Code.Module

/-!
# Code as a list of instructions

A code whose instructions lie without gaps is known by their list: the position of each is the size
of all before it.
-/

namespace StackCompiler

theorem le_wordBoundary (n : Nat) : n ≤ Code.wordBoundary n := by
  simp only [Code.wordBoundary, Section.wordSize]
  omega

def sizeOfAll (is : List Instruction) : Nat := (is.map Instruction.size).sum

section Size

variable (is js : List Instruction) (i : Instruction)

@[simp] theorem sizeOfAll_nil : sizeOfAll [] = 0 := rfl

@[simp] theorem sizeOfAll_cons : sizeOfAll (i :: is) = i.size + sizeOfAll is := by
  simp [sizeOfAll]

@[simp] theorem sizeOfAll_append : sizeOfAll (is ++ js) = sizeOfAll is + sizeOfAll js := by
  simp [sizeOfAll]

end Size

namespace Code

def place (p : Nat) : List Instruction → List Placed
  | [] => []
  | i :: is => ⟨p, i⟩ :: place (p + i.size) is

section Place

variable {p q : Nat} {is js : List Instruction} {i : Instruction}

@[simp] theorem place_nil (p : Nat) : place p [] = [] := rfl

@[simp] theorem length_place (p : Nat) (is : List Instruction) :
    (place p is).length = is.length := by
  induction is generalizing p with
  | nil => rfl
  | cons i is ih => simp [place, ih]

theorem place_append (p : Nat) (is js : List Instruction) :
    place p (is ++ js) = place p is ++ place (p + sizeOfAll is) js := by
  induction is generalizing p with
  | nil => simp
  | cons i is ih => simp [place, ih, Nat.add_assoc]

theorem flatMap_place (p : Nat) (is : List Instruction) :
    (place p is).flatMap (fun x => x.instruction.bytes) = is.flatMap Instruction.bytes := by
  induction is generalizing p with
  | nil => rfl
  | cons i is ih => simp [place, ih]

theorem position_of_mem_place {x : Placed} (h : x ∈ place p is) :
    p ≤ x.position ∧ x.position < p + sizeOfAll is := by
  induction is generalizing p with
  | nil => simp at h
  | cons i is ih =>
    have hi := i.size_pos
    rcases List.mem_cons.1 h with rfl | h
    · simp only [sizeOfAll_cons]
      omega
    · have := ih h
      simp only [sizeOfAll_cons]
      omega

theorem mem_place {x : Placed} : x ∈ place p is ↔
    ∃ as bs, is = as ++ x.instruction :: bs ∧ x.position = p + sizeOfAll as := by
  induction is generalizing p with
  | nil => simp
  | cons i is ih =>
    simp only [place, List.mem_cons, ih]
    refine ⟨?_, ?_⟩
    · rintro (rfl | ⟨as, bs, rfl, hp⟩)
      · exact ⟨[], is, rfl, rfl⟩
      · exact ⟨i :: as, bs, rfl, by rw [hp, sizeOfAll_cons, Nat.add_assoc]⟩
    · rintro ⟨as, bs, hl, hp⟩
      cases as with
      | nil =>
        cases hl
        exact .inl (by cases x; simp at hp; simp [hp])
      | cons a as =>
        cases hl
        exact .inr ⟨as, bs, rfl, by rw [hp, sizeOfAll_cons, Nat.add_assoc]⟩

theorem find?_place (p : Nat) (is js : List Instruction) (i : Instruction) :
    (place p (is ++ i :: js)).find? (fun x => x.position = p + sizeOfAll is) =
      some ⟨p + sizeOfAll is, i⟩ := by
  rw [place_append, List.find?_append, List.find?_eq_none.2]
  · simp [place]
  · intro x hx
    have := (position_of_mem_place hx).2
    simp only [decide_eq_true_eq]
    omega

theorem findIdx?_place (p : Nat) (is js : List Instruction) (i : Instruction) :
    (place p (is ++ i :: js)).findIdx? (fun x => x.position = p + sizeOfAll is) =
      some is.length := by
  rw [place_append, List.findIdx?_append, List.findIdx?_eq_none_iff.2]
  · simp [place, List.findIdx?_cons]
  · intro x hx
    have := (position_of_mem_place hx).2
    simp only [decide_eq_false_iff_not]
    omega

end Place

/-- The code is the given instructions, one behind the other. -/
structure Is (c : Code) (is : List Instruction) : Prop where
  instructions : c.instructions.toList = place 0 is
  size : c.size = sizeOfAll is

abbrev Literals := Array (Constant Int) × Array (Constant Binary64) × Array (Constant String)

def literals (c : Code) : Literals := (c.integers, c.reals, c.strings)

section Is

variable {c : Code} {is js : List Instruction} {op : Operation} {old new : List UInt8}

theorem Is.codeBytes (h : c.Is is) : c.codeBytes = is.flatMap Instruction.bytes := by
  rw [Code.codeBytes, h.instructions, flatMap_place]

theorem Is.length_codeBytes (h : c.Is is) : c.codeBytes.length = c.size := by
  rw [h.codeBytes, h.size, List.length_flatMap, sizeOfAll]
  congr 1

theorem is_empty : empty.Is [] := ⟨rfl, rfl⟩

theorem Is.push (h : c.Is is) (i : Instruction) : (c.push i).Is (is ++ [i]) := by
  refine ⟨?_, ?_⟩
  · simp [Code.push, h.instructions, h.size, place_append, place]
  · simp [Code.push, h.size]

theorem Is.at? {i : Instruction} (h : c.Is (is ++ i :: js)) : c.at? (sizeOfAll is) = some i := by
  have hf := find?_place 0 is js i
  simp only [Nat.zero_add] at hf
  rw [Code.at?, ← Array.find?_toList, h.instructions, hf]
  rfl

theorem Is.indexAt? {i : Instruction} (h : c.Is (is ++ i :: js)) :
    c.indexAt? (sizeOfAll is) = some is.length := by
  have hf := findIdx?_place 0 is js i
  simp only [Nat.zero_add] at hf
  have hi : c.instructions = (place 0 (is ++ i :: js)).toArray := by rw [← h.instructions]
  rw [Code.indexAt?, hi, List.findIdx?_toArray, hf]

theorem Is.patch (h : c.Is (is ++ .plain op old :: js)) (hl : old.length = new.length) :
    ∃ c', c.patch (sizeOfAll is) new = .ok c' ∧ c'.Is (is ++ .plain op new :: js) ∧
      c'.literals = c.literals := by
  refine ⟨{ c with
    instructions := c.instructions.setIfInBounds is.length ⟨sizeOfAll is, .plain op new⟩ },
    ?_, ⟨?_, ?_⟩, rfl⟩
  · simp [Code.patch, h.indexAt?, h.at?, Instruction.patch?, hl]
  · have hs : (Instruction.plain op old).size = (Instruction.plain op new).size := by
      simp [Instruction.size, Instruction.operands, hl]
    simp [Array.toList_setIfInBounds, h.instructions, place_append, place, hs]
  · simp [h.size, Instruction.size, Instruction.operands, hl]

end Is

end Code

end StackCompiler
