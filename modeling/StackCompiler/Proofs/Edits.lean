import StackCompiler.Proofs.Layout

/-!
# Building code up

Code is built up by edits, from nothing on. Whatever the edits, each instruction starts where the
one before it ends, and an instruction that is there keeps its size.
-/

namespace StackCompiler

theorem Instruction.size_of_resolve {s : Scopes} {i j : Instruction} (h : i.resolve s = .ok j) :
    j.size = i.size := by
  cases i with
  | plain op bytes =>
    cases h
    rfl
  | symbolic op id offset =>
    simp only [resolve] at h
    cases hs : s.symbol? id with
    | none =>
      rw [hs] at h
      cases h
      rfl
    | some sym =>
      rw [hs] at h
      cases hst : sym.storage with
      | none => simp [hst] at h
      | some st =>
        simp only [hst, Except.ok.injEq] at h
        subst h
        simp [size, operands]

namespace Code

/-- One step of building code up. -/
inductive Edit where
  | push (i : Instruction)
  | patch (position : Nat) (bytes : List UInt8)
  | addInteger (n : Int) (id : Symbol.Id)
  | addReal (x : Binary64) (id : Symbol.Id)
  | addString (s : String) (id : Symbol.Id)
  | resolve (s : Scopes)
  | build (s : Scopes)

def edit (c : Code) : Edit → Code
  | .push i => c.push i
  | .patch position bytes =>
    match c.patch position bytes with
    | .ok c' => c'
    | .error _ => c
  | .addInteger n id => c.addInteger n id
  | .addReal x id => c.addReal x id
  | .addString s id => c.addString s id
  | .resolve s => (c.resolve s).2
  | .build s => (c.build s).code

def edited (es : List Edit) : Code := es.foldl edit empty

section Steps

variable {c c' : Code} {is js : List Instruction}

theorem place_set {i j : Instruction} (p : Nat) (h : j.size = i.size) :
    (place p (is ++ i :: js)).set is.length ⟨p + sizeOfAll is, j⟩ = place p (is ++ j :: js) := by
  rw [place_append, place_append, List.set_append_right _ _ (by simp), length_place, Nat.sub_self]
  simp [place, h]

theorem getElem_place (p : Nat) (i : Instruction) {k : Nat}
    (hk : k < (place p (is ++ i :: js)).length) (h : k = is.length) :
    (place p (is ++ i :: js))[k] = ⟨p + sizeOfAll is, i⟩ := by
  subst h
  simp [place_append, place]

theorem Is.of_patch {position : Nat} {new : List UInt8} (h : c.Is is)
    (hp : c.patch position new = .ok c') : ∃ as op old bs, is = as ++ .plain op old :: bs ∧
      position = sizeOfAll as ∧ old.length = new.length := by
  cases hk : c.indexAt? position with
  | none => simp [Code.patch, hk] at hp
  | some k =>
    cases hi : c.at? position with
    | none => simp [Code.patch, hk, hi] at hp
    | some i =>
      obtain ⟨x, hx, rfl⟩ := Option.map_eq_some_iff.1 hi
      have hmem := Array.mem_of_find?_eq_some hx
      have hpos : x.position = position := by simpa using Array.find?_some hx
      rw [← Array.mem_toList_iff, h.instructions, mem_place] at hmem
      obtain ⟨as, bs, rfl, hpre⟩ := hmem
      rw [Code.patch, hk, hi] at hp
      simp only at hp
      cases hx : x.instruction with
      | plain op old =>
        by_cases hl : old.length = new.length
        · exact ⟨as, op, old, bs, rfl, by omega, hl⟩
        · simp [hx, Instruction.patch?, hl] at hp
      | symbolic op id offset => simp [hx, Instruction.patch?] at hp

theorem resolveFrom_place (s : Scopes) (k : Nat) (arr : Array Placed)
    (h : arr.toList = place 0 is) : ∃ js, (resolveFrom s k arr).2.toList = place 0 js ∧
      js.map Instruction.size = is.map Instruction.size := by
  fun_induction resolveFrom s k arr generalizing is with
  | case1 k arr hk i hi ih =>
    have hlen : k < is.length := by
      have := congrArg List.length h
      simp only [Array.length_toList, length_place] at this
      omega
    obtain ⟨as, x, bs, rfl, has⟩ : ∃ as x bs, is = as ++ x :: bs ∧ k = as.length :=
      ⟨is.take k, is[k], is.drop (k + 1), by simp, by simp; omega⟩
    have hget : arr[k] = ⟨0 + sizeOfAll as, x⟩ := by
      rw [← Array.getElem_toList]
      simp only [h]
      exact getElem_place 0 x _ has
    rw [hget] at hi
    have hsize := Instruction.size_of_resolve hi
    obtain ⟨js, hjs, hsizes⟩ := @ih (as ++ i :: bs) (by
      rw [Array.toList_set, h, hget, has]
      exact place_set 0 hsize)
    refine ⟨js, hjs, ?_⟩
    rw [hsizes]
    simp [hsize]
  | case2 k arr hk d hd => exact ⟨is, h, rfl⟩
  | case3 k arr hk => exact ⟨is, h, rfl⟩

theorem sizeOfAll_congr (h : js.map Instruction.size = is.map Instruction.size) :
    sizeOfAll js = sizeOfAll is := by
  rw [sizeOfAll, h, sizeOfAll]

theorem Is.resolve_sizes (h : c.Is is) (s : Scopes) : ∃ js, (c.resolve s).2.Is js ∧
    js.map Instruction.size = is.map Instruction.size := by
  obtain ⟨js, hjs, hsizes⟩ := resolveFrom_place s 0 c.instructions h.instructions
  refine ⟨js, ⟨hjs, ?_⟩, hsizes⟩
  show c.size = sizeOfAll js
  rw [sizeOfAll_congr hsizes, h.size]

/-- Building places literals and fills in loads, which leaves the code as filling in does, or as it
was. -/
theorem code_build (c : Code) (s : Scopes) :
    (c.build s).code = c ∨ ∃ s', (c.build s).code = (c.resolve s').2 := by
  unfold build
  split
  · exact .inl rfl
  · next size s' _ =>
    right
    refine ⟨s', ?_⟩
    split
    · next hr => rw [hr]
    · next hr => rw [hr]

theorem Is.edit (h : c.Is is) (e : Edit) : ∃ js, (c.edit e).Is js ∧
    is.map Instruction.size <+: js.map Instruction.size := by
  cases e with
  | push i => exact ⟨is ++ [i], h.push i, by simp⟩
  | patch position bytes =>
    show ∃ js, (match c.patch position bytes with | .ok c' => c' | .error _ => c).Is js ∧ _
    cases hp : c.patch position bytes with
    | error d => exact ⟨is, h, List.prefix_rfl⟩
    | ok c' =>
      obtain ⟨as, op, old, bs, rfl, rfl, hl⟩ := h.of_patch hp
      obtain ⟨c'', hp', hc'', -⟩ := h.patch hl
      obtain rfl : c'' = c' := Except.ok.inj (hp'.symm.trans hp)
      exact ⟨_, hc'', by simp [Instruction.size, Instruction.operands, hl]⟩
  | addInteger n id => exact ⟨is, ⟨h.instructions, h.size⟩, List.prefix_rfl⟩
  | addReal x id => exact ⟨is, ⟨h.instructions, h.size⟩, List.prefix_rfl⟩
  | addString s id => exact ⟨is, ⟨h.instructions, h.size⟩, List.prefix_rfl⟩
  | resolve s =>
    obtain ⟨js, hjs, hsizes⟩ := h.resolve_sizes s
    exact ⟨js, hjs, hsizes ▸ List.prefix_rfl⟩
  | build s =>
    show ∃ js, (c.build s).code.Is js ∧ _
    rcases c.code_build s with hc | ⟨s', hc⟩
    · rw [hc]
      exact ⟨is, h, List.prefix_rfl⟩
    · obtain ⟨js, hjs, hsizes⟩ := h.resolve_sizes s'
      rw [hc]
      exact ⟨js, hjs, hsizes ▸ List.prefix_rfl⟩

theorem Is.edits (h : c.Is is) (es : List Edit) : ∃ js, (es.foldl Code.edit c).Is js ∧
    is.map Instruction.size <+: js.map Instruction.size := by
  induction es generalizing c is with
  | nil => exact ⟨is, h, List.prefix_rfl⟩
  | cons e es ih =>
    obtain ⟨js, hjs, hpre⟩ := h.edit e
    obtain ⟨ks, hks, hpre'⟩ := ih hjs
    exact ⟨ks, hks, hpre.trans hpre'⟩

theorem is_edited (es : List Edit) : ∃ is, (edited es).Is is := by
  obtain ⟨is, his, -⟩ := is_empty.edits es
  exact ⟨is, his⟩

end Steps

end Code

end StackCompiler
