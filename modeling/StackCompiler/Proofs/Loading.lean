import StackCompiler.Proofs.Emission.Programs

/-!
# Building a module

The literals get places one behind the other, behind the code. If every symbol that the code loads
has a place then, all loads are filled in, and nothing else about the code changes.
-/

namespace StackCompiler

namespace Code

def poolBytes (pool : List (Symbol.Id × Nat)) : Nat := (pool.map Prod.snd).sum

def laid (offset : Nat) (s : Scopes) : List (Symbol.Id × Nat) → Scopes
  | [] => s
  | (id, size) :: rest => laid (offset + size) (s.setStorage id ⟨.constants, offset⟩) rest

section Pool

variable {offset : Nat} {s : Scopes} {pool : List (Symbol.Id × Nat)} {id : Symbol.Id}

theorem symbol?_laid_of_not_mem (h : id ∉ pool.map Prod.fst) :
    (laid offset s pool).symbol? id = s.symbol? id := by
  induction pool generalizing offset s with
  | nil => rfl
  | cons e rest ih =>
    obtain ⟨id', size⟩ := e
    simp only [List.map_cons, List.mem_cons, not_or] at h
    rw [laid, ih h.2, Scopes.symbol?_setStorage, if_neg fun he => h.1 he.symm]

theorem placePool_cases (offset : Nat) (s : Scopes) (pool : List (Symbol.Id × Nat)) :
    (placePool offset s pool = (.ok (offset + poolBytes pool), laid offset s pool) ∧
      ∀ id ∈ pool.map Prod.fst, ∀ sym, (laid offset s pool).symbol? id = some sym →
        ∃ a ≤ maxOffset, sym.storage = some ⟨.constants, (a : Nat)⟩) ∨
      ∃ p s', placePool offset s pool = (.error (.constantTooFar p), s') ∧ maxOffset < p ∧
        p ≤ offset + poolBytes pool := by
  induction pool generalizing offset s with
  | nil => exact .inl ⟨rfl, by simp⟩
  | cons e rest ih =>
    obtain ⟨id, size⟩ := e
    have hbytes : poolBytes ((id, size) :: rest) = size + poolBytes rest := by simp [poolBytes]
    rw [placePool, hbytes, laid]
    split
    · next hle =>
      have ih := ih (offset + size) (s.setStorage id ⟨.constants, offset⟩)
      rw [Nat.add_assoc] at ih
      refine ih.imp_left fun ⟨hp, hreach⟩ => ⟨hp, fun id' hid sym hs => ?_⟩
      by_cases hrest : id' ∈ rest.map Prod.fst
      · exact hreach id' hrest sym hs
      · obtain rfl : id' = id := (List.mem_cons.1 hid).resolve_right hrest
        rw [symbol?_laid_of_not_mem hrest, Scopes.symbol?_setStorage, if_pos rfl] at hs
        obtain ⟨old, -, rfl⟩ := Option.map_eq_some_iff.1 hs
        exact ⟨offset, hle, rfl⟩
    · next hp => exact .inr ⟨offset, s, rfl, Nat.lt_of_not_le hp, by omega⟩

/-- Where a literal lies in the pool: behind those before it. -/
def poolOffset (pool : List (Symbol.Id × Nat)) (id : Symbol.Id) : Nat :=
  poolBytes (pool.takeWhile fun e => e.1 ≠ id)

theorem poolOffset_cons (e : Symbol.Id × Nat) (pool : List (Symbol.Id × Nat)) (id : Symbol.Id) :
    poolOffset (e :: pool) id = if e.1 = id then 0 else e.2 + poolOffset pool id := by
  by_cases h : e.1 = id <;> simp [poolOffset, poolBytes, h]

theorem symbol?_laid {sym : Symbol} (hs : s.symbol? id = some sym) (hid : id ∈ pool.map Prod.fst)
    (hnd : (pool.map Prod.fst).Nodup) :
    (laid offset s pool).symbol? id =
      some (sym.setStorage ⟨.constants, (offset + poolOffset pool id : Nat)⟩) := by
  induction pool generalizing offset s with
  | nil => simp at hid
  | cons e pool ih =>
    obtain ⟨id', size⟩ := e
    simp only [List.map_cons, List.mem_cons, List.nodup_cons] at hid hnd
    rw [laid, poolOffset_cons]
    by_cases he : id' = id
    · subst he
      rw [symbol?_laid_of_not_mem hnd.1, Scopes.symbol?_setStorage, if_pos rfl, hs, if_pos rfl]
      rfl
    · have hs' : (s.setStorage id' ⟨.constants, offset⟩).symbol? id = some sym := by
        rw [Scopes.symbol?_setStorage, if_neg he, hs]
      rw [if_neg he, ih hs' (hid.resolve_left fun h => he h.symm) hnd.2, Nat.add_assoc]

theorem poolOffset_inj {id' : Symbol.Id} (hsize : ∀ e ∈ pool, 0 < e.2)
    (hid : id ∈ pool.map Prod.fst) (hid' : id' ∈ pool.map Prod.fst)
    (h : poolOffset pool id = poolOffset pool id') : id = id' := by
  induction pool with
  | nil => simp at hid
  | cons e pool ih =>
    have he := hsize e (by simp)
    rw [poolOffset_cons, poolOffset_cons] at h
    simp only [List.map_cons, List.mem_cons] at hid hid'
    by_cases h₁ : e.1 = id
    · by_cases h₂ : e.1 = id'
      · exact h₁.symm.trans h₂
      · rw [if_pos h₁, if_neg h₂] at h
        omega
    · by_cases h₂ : e.1 = id'
      · rw [if_neg h₁, if_pos h₂] at h
        omega
      · rw [if_neg h₁, if_neg h₂] at h
        exact ih (fun e he => hsize e (by simp [he])) (hid.resolve_left fun h => h₁ h.symm)
          (hid'.resolve_left fun h => h₂ h.symm) (by omega)

end Pool

end Code

/-! ## The literals of a program -/

/-- The number of bytes of a literal. A string ends with a zero byte. -/
def Symbol.literalBytes (sym : Symbol) : Nat :=
  match sym.attributes.findSome? Symbol.Attribute.string? with
  | some text => text.utf8ByteSize + 1
  | none => Section.wordSize

theorem Symbol.literalBytes_pos (sym : Symbol) : 0 < sym.literalBytes := by
  unfold literalBytes
  split
  · omega
  · decide

def Scopes.literalSizes (s : Scopes) : List (Symbol.Id × Nat) :=
  s.constants.symbols.map fun id => (id, ((s.symbol? id).map Symbol.literalBytes).getD 0)

/-- The literal of one type that a symbol is, if it is one. -/
def Symbol.constant? {γ : Type} (sym : Symbol) (value? : Symbol.Attribute → Option γ)
    (id : Symbol.Id) : Option (Constant γ) :=
  (sym.attributes.findSome? value?).map fun v => ⟨v, id⟩

def Scopes.literalsWith {γ : Type} (s : Scopes) (value? : Symbol.Attribute → Option γ) :
    List (Constant γ) :=
  s.constants.symbols.filterMap fun id => (s.symbol? id).bind fun sym => sym.constant? value? id

theorem Scopes.mem_literalsWith {γ : Type} {s : Scopes} {value? : Symbol.Attribute → Option γ}
    {k : Constant γ} : k ∈ s.literalsWith value? ↔ k.symbol ∈ s.constants.symbols ∧
      ∃ sym, s.symbol? k.symbol = some sym ∧ sym.attributes.findSome? value? = some k.value := by
  obtain ⟨v, id⟩ := k
  simp only [literalsWith, Symbol.constant?, List.mem_filterMap, Option.bind_eq_some_iff,
    Option.map_eq_some_iff, Constant.mk.injEq]
  constructor
  · rintro ⟨_, hid, sym, hs, _, hv, rfl, rfl⟩
    exact ⟨hid, sym, hs, hv⟩
  · rintro ⟨hid, sym, hs, hv⟩
    exact ⟨id, hid, sym, hs, v, hv, rfl, rfl⟩

namespace Emitter

variable {s : Scopes} {sym : Symbol} {key : String} {c : Code}

theorem pool_addInteger (c : Code) (n : Int) (id : Symbol.Id) :
    (c.addInteger n id).pool.Perm ((id, Section.wordSize) :: c.pool) := by
  simp only [Code.pool, Code.addInteger, Array.toList_push, List.map_append, List.append_assoc]
  exact List.perm_middle

theorem pool_addReal (c : Code) (x : Binary64) (id : Symbol.Id) :
    (c.addReal x id).pool.Perm ((id, Section.wordSize) :: c.pool) := by
  simp only [Code.pool, Code.addReal, Array.toList_push, List.map_append, List.append_assoc]
  exact (List.perm_middle.append_left _).trans List.perm_middle

theorem pool_addString (c : Code) (text : String) (id : Symbol.Id) :
    (c.addString text id).pool.Perm ((id, text.utf8ByteSize + 1) :: c.pool) := by
  simp only [Code.pool, Code.addString, Array.toList_push, List.map_append]
  rw [← List.append_assoc]
  exact List.perm_append_singleton _ _

theorem pool_addLiteral (h : sym.IsLiteral key) (id : Symbol.Id) (c : Code) :
    (addLiteral id sym c).pool.Perm ((id, sym.literalBytes) :: c.pool) := by
  unfold addLiteral Symbol.literalBytes
  cases h with
  | integer n hn hk ha => rw [ha]; exact pool_addInteger c n id
  | real x hx hp hq hk ha => rw [ha]; exact pool_addReal c x id
  | string text ht hk ha => rw [ha]; exact pool_addString c text id

theorem pool_withLiterals (h : s.Valid) (c : Code) :
    (withLiterals s c).pool.Perm (s.literalSizes ++ c.pool) := by
  obtain ⟨l, hl, hlit⟩ := h.pool
  rw [withLiterals, Scopes.literalSizes, hl.symbols]
  clear hl
  induction l generalizing c with
  | nil => exact .refl _
  | cons e l ih =>
    obtain ⟨sym, hs, hk, -⟩ := hlit e (by simp)
    simp only [List.map_cons, List.foldl_cons, hs, List.cons_append, Option.map_some,
      Option.getD_some]
    refine (ih _ fun e he => hlit e (by simp [he])).trans ?_
    exact ((pool_addLiteral hk e.2 c).append_left _).trans List.perm_middle

theorem pool_of_literals (h : s.Valid) (hc : c.literals = (withLiterals s .empty).literals) :
    c.pool.Perm s.literalSizes := by
  have hp : c.pool = (withLiterals s .empty).pool := by
    simp only [Code.literals, Prod.mk.injEq] at hc
    simp only [Code.pool, hc]
  rw [hp]
  simpa [Code.empty, Code.pool] using pool_withLiterals h .empty

theorem poolBytes_of_literals (h : s.Valid) (hc : c.literals = (withLiterals s .empty).literals) :
    Code.poolBytes c.pool = Code.poolBytes s.literalSizes :=
  ((pool_of_literals h hc).map Prod.snd).sum_nat

theorem toList_addLiteral (h : sym.IsLiteral key) (id : Symbol.Id) (c : Code) :
    (addLiteral id sym c).integers.toList = c.integers.toList ++
        (sym.constant? Symbol.Attribute.integer? id).toList ∧
      (addLiteral id sym c).reals.toList = c.reals.toList ++
        (sym.constant? Symbol.Attribute.real? id).toList ∧
      (addLiteral id sym c).strings.toList = c.strings.toList ++
        (sym.constant? Symbol.Attribute.string? id).toList := by
  have hnil {γ : Type} (l : List (Constant γ)) : l = l ++ [] := l.append_nil.symm
  unfold addLiteral Symbol.constant?
  cases h with
  | integer n hn hk ha => rw [ha]; exact ⟨Array.toList_push, hnil _, hnil _⟩
  | real x hx hp hq hk ha => rw [ha]; exact ⟨hnil _, Array.toList_push, hnil _⟩
  | string text ht hk ha => rw [ha]; exact ⟨hnil _, hnil _, Array.toList_push⟩

/-- Adding the literals of the pool one by one keeps those of one type in the order of the pool. -/
theorem toList_withLiterals {γ : Type} (items : Code → Array (Constant γ))
    (value? : Symbol.Attribute → Option γ)
    (hadd : ∀ c id sym key, sym.IsLiteral key → (items (addLiteral id sym c)).toList =
      (items c).toList ++ (sym.constant? value? id).toList)
    (h : s.Valid) (c : Code) :
    (items (withLiterals s c)).toList = (items c).toList ++ s.literalsWith value? := by
  obtain ⟨l, hl, hlit⟩ := h.pool
  rw [withLiterals, Scopes.literalsWith, hl.symbols]
  clear hl
  induction l generalizing c with
  | nil => simp
  | cons e l ih =>
    obtain ⟨sym, hs, hk, -⟩ := hlit e (by simp)
    rw [List.map_cons, List.foldl_cons, ih _ fun e he => hlit e (by simp [he]), hs,
      hadd c e.2 sym e.1 hk, List.append_assoc, List.filterMap_cons, hs, Option.bind_some]
    cases sym.constant? value? e.2 <;> rfl

section Literals

variable {s : Scopes} (h : s.Valid)
include h

theorem integers_withLiterals :
    (withLiterals s .empty).integers.toList = s.literalsWith Symbol.Attribute.integer? :=
  toList_withLiterals Code.integers _ (fun c id _ _ hl => (toList_addLiteral hl id c).1) h .empty

theorem reals_withLiterals :
    (withLiterals s .empty).reals.toList = s.literalsWith Symbol.Attribute.real? :=
  toList_withLiterals Code.reals _ (fun c id _ _ hl => (toList_addLiteral hl id c).2.1) h .empty

theorem strings_withLiterals :
    (withLiterals s .empty).strings.toList = s.literalsWith Symbol.Attribute.string? :=
  toList_withLiterals Code.strings _ (fun c id _ _ hl => (toList_addLiteral hl id c).2.2) h .empty

theorem mem_integers (k : Constant Int) :
    k ∈ (withLiterals s .empty).integers.toList ↔ k.symbol ∈ s.constants.symbols ∧
      ∃ sym, s.symbol? k.symbol = some sym ∧
        sym.attributes.findSome? Symbol.Attribute.integer? = some k.value := by
  rw [integers_withLiterals h, Scopes.mem_literalsWith]

theorem mem_strings (k : Constant String) :
    k ∈ (withLiterals s .empty).strings.toList ↔ k.symbol ∈ s.constants.symbols ∧
      ∃ sym, s.symbol? k.symbol = some sym ∧
        sym.attributes.findSome? Symbol.Attribute.string? = some k.value := by
  rw [strings_withLiterals h, Scopes.mem_literalsWith]

end Literals

end Emitter

/-- The instruction with the place of its symbol filled in, if there is one. -/
def Instruction.placed (s : Scopes) (i : Instruction) : Instruction :=
  match i.resolve s with
  | .ok j => j
  | .error _ => i

theorem Instruction.size_placed (s : Scopes) (i : Instruction) : (i.placed s).size = i.size := by
  cases i with
  | plain op bytes => rfl
  | symbolic op id offset =>
    simp only [placed, resolve]
    cases s.symbol? id with
    | none => rfl
    | some sym => cases hs : sym.storage <;> simp [hs, size, operands]

namespace Code

def Placed.fill (s : Scopes) (x : Placed) : Placed := ⟨x.position, x.instruction.placed s⟩

theorem place_map_placed (s : Scopes) (p : Nat) (is : List Instruction) :
    place p (is.map (Instruction.placed s)) = (place p is).map (Placed.fill s) := by
  induction is generalizing p with
  | nil => rfl
  | cons i is ih => simp [place, ih, Instruction.size_placed, Placed.fill]

theorem sizeOfAll_map_placed (s : Scopes) (is : List Instruction) :
    sizeOfAll (is.map (Instruction.placed s)) = sizeOfAll is := by
  induction is with
  | nil => rfl
  | cons i is ih => simp [ih, Instruction.size_placed]

theorem resolveFrom_eq {s : Scopes} (k : Nat) (is : Array Placed)
    (h : ∀ x ∈ is.toList.drop k, ∃ j, x.instruction.resolve s = .ok j) :
    resolveFrom s k is =
      (.ok (), (is.toList.take k ++ (is.toList.drop k).map (Placed.fill s)).toArray) := by
  -- on what is left to fill; everything before `k` is filled already
  induction hn : is.size - k generalizing k is with
  | zero =>
    have hk : ¬ k < is.size := by omega
    rw [resolveFrom, dif_neg hk, List.drop_eq_nil_of_le (by simpa using hk),
      List.take_of_length_le (by simpa using hk)]
    simp
  | succ n ih =>
    have hk : k < is.size := by omega
    have hd : is.toList.drop k = is[k] :: is.toList.drop (k + 1) := by
      rw [List.drop_eq_getElem_cons (by simpa using hk)]
      rfl
    rw [hd] at h ⊢
    obtain ⟨j, hj⟩ := h is[k] (by simp)
    have hfill : Placed.fill s is[k] = ⟨is[k].position, j⟩ := by
      simp [Placed.fill, Instruction.placed, hj]
    have hset : (is.set k ⟨is[k].position, j⟩).toList = is.toList.set k ⟨is[k].position, j⟩ := by
      simp
    rw [resolveFrom, dif_pos hk, hj]
    simp only
    rw [ih (k + 1) _ (fun x hx => ?_) (by simp; omega), hset]
    · have htake : (is.toList.take (k + 1)).set k ⟨is[k].position, j⟩ =
          is.toList.take k ++ [⟨is[k].position, j⟩] := by
        have hl : k < is.toList.length := by simpa using hk
        have hlen : (is.toList.take k).length = k := by simp; omega
        rw [List.take_succ_eq_append_getElem hl, List.set_append_right _ _ (by omega), hlen]
        simp
      rw [List.take_set, htake, List.drop_set_of_lt (by omega), List.map_cons, hfill]
      simp
    · rw [hset, List.drop_set_of_lt (by omega)] at hx
      exact h x (by simp [hx])

theorem Is.resolve {c : Code} {is : List Instruction} {s : Scopes} (hc : c.Is is)
    (h : ∀ i ∈ is, ∃ j, i.resolve s = .ok j) :
    ∃ c', c.resolve s = (.ok (), c') ∧ c'.Is (is.map (Instruction.placed s)) ∧
      c'.literals = c.literals := by
  have hr := resolveFrom_eq (s := s) 0 c.instructions fun x hx => by
    rw [List.drop_zero, hc.instructions, mem_place] at hx
    obtain ⟨as, bs, rfl, -⟩ := hx
    exact h _ (by simp)
  rw [List.take_zero, List.nil_append, List.drop_zero, hc.instructions, ← place_map_placed] at hr
  refine ⟨{ c with instructions := (place 0 (is.map (Instruction.placed s))).toArray }, ?_,
    ⟨rfl, ?_⟩, rfl⟩
  · rw [Code.resolve, hr]
  · rw [sizeOfAll_map_placed]
    exact hc.size

/-- Building a module either places all literals and fills in all loads, or there are more literals
than addresses reach. -/
theorem Is.build_cases {c : Code} {is : List Instruction} (s : Scopes) (hc : c.Is is)
    (h : ∀ i ∈ is, ∃ j, i.resolve (laid (wordBoundary c.size) s c.pool) = .ok j) :
    ((c.build s).result = .ok (c.build s).code.moduleText ∧
      (c.build s).scopes = laid (wordBoundary c.size) s c.pool ∧
      (c.build s).code.Is (is.map (Instruction.placed (c.build s).scopes)) ∧
      (c.build s).code.literals = c.literals ∧
      ∀ id ∈ c.pool.map Prod.fst, ∀ sym, (c.build s).scopes.symbol? id = some sym →
        ∃ a ≤ maxOffset, sym.storage = some ⟨.constants, (a : Nat)⟩) ∨
    ∃ p, (c.build s).result = .error (.constantTooFar p) ∧ maxOffset < p ∧
      p ≤ wordBoundary c.size + poolBytes c.pool := by
  rcases placePool_cases (wordBoundary c.size) s c.pool with
    ⟨hp, hreach⟩ | ⟨p, s', hp, hlt, hle⟩
  · obtain ⟨c', hr, hc', hl⟩ := hc.resolve h
    left
    simp only [build, hp, hr]
    exact ⟨trivial, trivial, hc', hl, hreach⟩
  · right
    simp only [build, hp]
    exact ⟨p, rfl, hlt, hle⟩

end Code

end StackCompiler
