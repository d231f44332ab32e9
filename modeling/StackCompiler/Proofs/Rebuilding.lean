import Mathlib.Data.List.Forall2
import StackCompiler.Proofs.Storage
import StackCompiler.Proofs.Stream

/-!
# Building again

Filling in loads can be repeated: what a load was filled in with before, for other places of symbols
or up to some load only, makes no difference to what it is filled in with next. So modules can be
built while code is still being written, and the last one is as if it were the only one.
-/

namespace StackCompiler

theorem Operation.inRegion_congr {op op' : Operation} (h : op'.isAddress = op.isAddress)
    (r : Region) : op'.inRegion r = op.inRegion r := by
  rw [inRegion, inRegion, h]

theorem Operation.isAddress_inRegion (op : Operation) (r : Region) :
    (op.inRegion r).isAddress = op.isAddress := by
  unfold inRegion
  cases h : op.isAddress <;> rfl

namespace Instruction

/-- The second instruction is the first one, or a load of the same that was filled in before, of a
symbol that has a place in `s`. -/
inductive Filled (s : Scopes) : Instruction → Instruction → Prop
  | same (i : Instruction) : Filled s i i
  | load {op op' : Operation} {id : Symbol.Id} {offset offset' : Int} {st : Storage}
      (ha : op'.isAddress = op.isAddress) (hs : s.Stores id st) :
      Filled s (.symbolic op id offset) (.symbolic op' id offset')

variable {s s' : Scopes} {i j k : Instruction}

theorem filled_of_resolve (h : i.resolve s = .ok j) : Filled s i j := by
  cases i with
  | plain op bytes =>
    cases h
    exact .same _
  | symbolic op id offset =>
    simp only [resolve] at h
    cases hsym : s.symbol? id with
    | none =>
      rw [hsym] at h
      cases h
      exact .same _
    | some sym =>
      rw [hsym] at h
      cases hst : sym.storage with
      | none => simp [hst] at h
      | some st =>
        simp only [hst, Except.ok.injEq] at h
        subst h
        exact .load (op.isAddress_inRegion st.region) ⟨sym, hsym, hst⟩

theorem Filled.trans (h : Filled s i j) (h' : Filled s j k) : Filled s i k := by
  cases h with
  | same => exact h'
  | load ha hs =>
    cases h' with
    | same => exact .load ha hs
    | load ha' _ => exact .load (ha'.trans ha) hs

theorem Filled.mono (h : Filled s i j) (hs : ∀ id st, s.Stores id st → ∃ st', s'.Stores id st') :
    Filled s' i j := by
  cases h with
  | same => exact .same _
  | load ha hst =>
    obtain ⟨st', hst'⟩ := hs _ _ hst
    exact .load ha hst'

/-- It makes no difference to filling in what a load was filled in with. -/
theorem Filled.resolve (h : Filled s i j) : j.resolve s = i.resolve s := by
  cases h with
  | same => rfl
  | load ha hs =>
    obtain ⟨sym, hsym, hst⟩ := hs
    simp only [Instruction.resolve, hsym, hst, Operation.inRegion_congr ha]

/-- Nor if it was filled in for other places, as long as the symbols are as many. -/
theorem Filled.resolve_ok (h : Filled s i j) (hsize : s.symbols.size = s'.symbols.size) :
    j.resolve s' = .ok k ↔ i.resolve s' = .ok k := by
  cases h with
  | same => exact .rfl
  | @load op op' id _ _ _ ha hs =>
    obtain ⟨sym, hsym, -⟩ := hs
    obtain ⟨sym', hsym'⟩ := Scopes.symbol?_of_lt (s := s') (hsize ▸ Scopes.symbol?_lt hsym)
    simp only [Instruction.resolve, hsym']
    cases sym'.storage with
    | none => simp
    | some st => simp only [Operation.inRegion_congr ha]

theorem Filled.patch? (h : Filled s i j) (new : List UInt8) : j.patch? new = i.patch? new := by
  cases h with
  | same => rfl
  | load => rfl

end Instruction

theorem exists_split_of_forall₂ {α β : Type} {R : α → β → Prop} {as bs : List α} {x : α}
    {ys : List β} (h : List.Forall₂ R (as ++ x :: bs) ys) : ∃ as' y bs', ys = as' ++ y :: bs' ∧
      List.Forall₂ R as as' ∧ R x y ∧ List.Forall₂ R bs bs' := by
  induction as generalizing ys with
  | nil =>
    obtain ⟨y, bs', hxy, hbs, rfl⟩ := List.forall₂_cons_left_iff.1 h
    exact ⟨[], y, bs', rfl, .nil, hxy, hbs⟩
  | cons a as ih =>
    obtain ⟨a', ys', ha, hys, rfl⟩ := List.forall₂_cons_left_iff.1 h
    obtain ⟨as', y, bs', rfl, has, hxy, hbs⟩ := ih hys
    exact ⟨a' :: as', y, bs', rfl, .cons ha has, hxy, hbs⟩

theorem forall_mem_of_forall₂ {α β : Type} {R : α → β → Prop} {P : α → Prop} {Q : β → Prop}
    {xs : List α} {ys : List β} (h : List.Forall₂ R xs ys) (hR : ∀ x y, R x y → P x → Q y)
    (hxs : ∀ x ∈ xs, P x) : ∀ y ∈ ys, Q y := by
  induction h with
  | nil => simp
  | @cons x y xs ys hxy _ ih =>
    rw [List.forall_mem_cons] at hxs ⊢
    exact ⟨hR x y hxy hxs.1, ih hxs.2⟩

namespace Code

variable {s : Scopes}

/-! ## Filling in from the first instruction on -/

section Fill

variable {s s' : Scopes} {x y : Placed} {xs ys : List Placed}

/-- Fills in loads one after the other, up to the first that has no place. -/
def fillUp (s : Scopes) : List Placed → Except Defect Unit × List Placed
  | [] => (.ok (), [])
  | x :: xs =>
    match x.instruction.resolve s with
    | .ok i => ((fillUp s xs).1, ⟨x.position, i⟩ :: (fillUp s xs).2)
    | .error d => (.error d, x :: xs)

theorem fillUp_cons_ok {i : Instruction} (h : x.instruction.resolve s = .ok i) :
    fillUp s (x :: xs) = ((fillUp s xs).1, ⟨x.position, i⟩ :: (fillUp s xs).2) := by
  rw [fillUp, h]

theorem fillUp_cons_error {d : Defect} (h : x.instruction.resolve s = .error d) :
    fillUp s (x :: xs) = (.error d, x :: xs) := by
  rw [fillUp, h]

theorem drop_toList_of_lt {is : Array Placed} {k : Nat} (hk : k < is.size) :
    is.toList.drop k = is[k] :: is.toList.drop (k + 1) := by
  rw [List.drop_eq_getElem_cons (by simpa using hk)]
  rfl

theorem resolveFrom_eq_fillUp (s : Scopes) (k : Nat) (is : Array Placed) :
    resolveFrom s k is = ((fillUp s (is.toList.drop k)).1,
      (is.toList.take k ++ (fillUp s (is.toList.drop k)).2).toArray) := by
  fun_induction resolveFrom s k is with
  | case1 k is hk i hi ih =>
    have hk' : k < is.toList.length := by simpa using hk
    have htake : (is.toList.take (k + 1)).set k ⟨is[k].position, i⟩ =
        is.toList.take k ++ [⟨is[k].position, i⟩] := by
      have hlen : (is.toList.take k).length = k := by rw [List.length_take]; omega
      rw [List.take_succ_eq_append_getElem hk', List.set_append_right _ _ (by omega), hlen]
      simp
    rw [ih, drop_toList_of_lt hk, fillUp_cons_ok hi, Array.toList_set, List.drop_set_of_lt (by omega),
      List.take_set, htake]
    simp
  | case2 k is hk d hd =>
    rw [drop_toList_of_lt hk, fillUp_cons_error hd, ← drop_toList_of_lt hk, List.take_append_drop]
  | case3 k is hk =>
    have hk' : is.toList.length ≤ k := by simpa using hk
    rw [List.drop_eq_nil_of_le hk', List.take_of_length_le hk']
    simp [fillUp]

theorem resolve_eq_fillUp (c : Code) (s : Scopes) :
    c.resolve s = ((fillUp s c.instructions.toList).1,
      { c with instructions := (fillUp s c.instructions.toList).2.toArray }) := by
  rw [resolve, resolveFrom_eq_fillUp]
  rfl

/-- The instruction is where it was, and was filled in if it differs. -/
def Placed.Filled (s : Scopes) (x y : Placed) : Prop :=
  y.position = x.position ∧ x.instruction.Filled s y.instruction

/-- The instructions are at the same position and are filled in with the same, or not at all. -/
def Placed.Alike (s : Scopes) (x y : Placed) : Prop :=
  y.position = x.position ∧
    ∀ i, y.instruction.resolve s = .ok i ↔ x.instruction.resolve s = .ok i

theorem filled_fillUp (s : Scopes) (xs : List Placed) :
    List.Forall₂ (Placed.Filled s) xs (fillUp s xs).2 := by
  induction xs with
  | nil => exact .nil
  | cons x xs ih =>
    cases hx : x.instruction.resolve s with
    | ok i =>
      rw [fillUp_cons_ok hx]
      exact .cons ⟨rfl, Instruction.filled_of_resolve hx⟩ ih
    | error d =>
      rw [fillUp_cons_error hx]
      exact List.forall₂_same.2 fun y _ => ⟨rfl, .same _⟩

theorem filled_trans {zs : List Placed} (h : List.Forall₂ (Placed.Filled s) xs ys)
    (h' : List.Forall₂ (Placed.Filled s) ys zs) : List.Forall₂ (Placed.Filled s) xs zs := by
  induction h generalizing zs with
  | nil => exact h'
  | @cons x y xs ys hxy _ ih =>
    obtain ⟨z, zs, hyz, hzs, rfl⟩ := List.forall₂_cons_left_iff.1 h'
    exact .cons ⟨hyz.1.trans hxy.1, hxy.2.trans hyz.2⟩ (ih hzs)

theorem fillUp_of_alike (h : List.Forall₂ (Placed.Alike s) xs ys) (hok : (fillUp s xs).1 = .ok ()) :
    fillUp s ys = fillUp s xs := by
  induction h with
  | nil => rfl
  | @cons x y xs ys hxy _ ih =>
    cases hx : x.instruction.resolve s with
    | ok i =>
      rw [fillUp_cons_ok hx] at hok ⊢
      rw [fillUp_cons_ok ((hxy.2 i).2 hx), ih hok, hxy.1]
    | error d =>
      rw [fillUp_cons_error hx] at hok
      cases hok

/-- Loads that were filled in for the same places fail as they would have. -/
theorem fillUp_of_filled (h : List.Forall₂ (Placed.Filled s) xs ys) :
    (fillUp s ys).1 = (fillUp s xs).1 := by
  induction h with
  | nil => rfl
  | @cons x y xs ys hxy _ ih =>
    have hres := hxy.2.resolve
    cases hx : x.instruction.resolve s with
    | ok i => rw [fillUp_cons_ok hx, fillUp_cons_ok (hres.trans hx), ih]
    | error d => rw [fillUp_cons_error hx, fillUp_cons_error (hres.trans hx)]

theorem fillUp_append_error {as bs : List Placed} {d : Defect}
    (has : ∀ y ∈ as, ∃ i, y.instruction.resolve s = .ok i)
    (hx : x.instruction.resolve s = .error d) : (fillUp s (as ++ x :: bs)).1 = .error d := by
  induction as with
  | nil => rw [List.nil_append, fillUp_cons_error hx]
  | cons a as ih =>
    obtain ⟨i, hi⟩ := has a List.mem_cons_self
    rw [List.cons_append, fillUp_cons_ok hi]
    exact ih fun y hy => has y (List.mem_cons_of_mem a hy)

theorem fillUp_cases (s : Scopes) (xs : List Placed) : (fillUp s xs).1 = .ok () ∨
    ∃ as x bs d, xs = as ++ x :: bs ∧ (∀ y ∈ as, ∃ i, y.instruction.resolve s = .ok i) ∧
      x.instruction.resolve s = .error d := by
  induction xs with
  | nil => exact .inl rfl
  | cons x xs ih =>
    cases hx : x.instruction.resolve s with
    | error d => exact .inr ⟨[], x, xs, d, rfl, by simp, hx⟩
    | ok i =>
      rw [fillUp_cons_ok hx]
      rcases ih with hok | ⟨as, y, bs, d, rfl, has, hy⟩
      · exact .inl hok
      · refine .inr ⟨x :: as, y, bs, d, rfl, ?_, hy⟩
        intro z hz
        rcases List.mem_cons.1 hz with rfl | hz
        · exact ⟨i, hx⟩
        · exact has z hz

end Fill

/-- Filling in stops at the `k`-th instruction: all before it can be filled in, and what is wrong
with it is what is told. -/
def StopsAt (c : Code) (s : Scopes) (k : Nat) : Prop := ∃ as x bs d,
  c.instructions.toList = as ++ x :: bs ∧ as.length = k ∧
    (∀ y ∈ as, ∃ i, y.instruction.resolve s = .ok i) ∧ x.instruction.resolve s = .error d ∧
    (c.resolve s).1 = .error d

theorem stopsAt_of_split {c : Code} {as bs : List Placed} {x : Placed} {d : Defect}
    (hc : c.instructions.toList = as ++ x :: bs)
    (has : ∀ y ∈ as, ∃ i, y.instruction.resolve s = .ok i)
    (hx : x.instruction.resolve s = .error d) : c.StopsAt s as.length := by
  refine ⟨as, x, bs, d, hc, rfl, has, hx, ?_⟩
  rw [resolve_eq_fillUp, hc]
  exact fillUp_append_error has hx

theorem resolve_cases (c : Code) (s : Scopes) :
    (c.resolve s).1 = .ok () ∨ ∃ k, c.StopsAt s k := by
  rcases fillUp_cases s c.instructions.toList with hok | ⟨as, x, bs, d, hc, has, hx⟩
  · rw [resolve_eq_fillUp]
    exact .inl hok
  · exact .inr ⟨as.length, stopsAt_of_split hc has hx⟩

theorem StopsAt.of_alike {c c' : Code} {k : Nat} (h : c.StopsAt s k)
    (hcc : List.Forall₂ (Placed.Alike s) c.instructions.toList c'.instructions.toList) :
    c'.StopsAt s k := by
  obtain ⟨as, x, bs, d, hc, rfl, has, hx, -⟩ := h
  rw [hc] at hcc
  obtain ⟨as', x', bs', hc', has', hxx, -⟩ := exists_split_of_forall₂ hcc
  have hall : ∀ y ∈ as', ∃ i, y.instruction.resolve s = .ok i := by
    refine forall_mem_of_forall₂ has' ?_ has
    rintro y y' hyy ⟨i, hi⟩
    exact ⟨i, (hyy.2 i).2 hi⟩
  cases hx' : x'.instruction.resolve s with
  | ok i =>
    rw [(hxx.2 i).1 hx'] at hx
    cases hx
  | error d' =>
    rw [has'.length_eq]
    exact stopsAt_of_split hc' hall hx'

/-- Filling in for the places of `s` first, as far as it goes, makes no difference to filling in
for those of `s'`. What is told where it stops may differ: it names the operation of the load. -/
inductive Absorbs (c : Code) (s s' : Scopes) : Prop
  | fills (hok : (c.resolve s').1 = .ok ()) (hsame : (c.resolve s).2.resolve s' = c.resolve s')
  | stops (k : Nat) (halone : c.StopsAt s' k) (hlater : (c.resolve s).2.StopsAt s' k)

theorem resolve_absorbs (c : Code) {s' : Scopes} (hsize : s.symbols.size = s'.symbols.size) :
    c.Absorbs s s' := by
  have halike : List.Forall₂ (Placed.Alike s') c.instructions.toList
      (c.resolve s).2.instructions.toList := by
    rw [resolve_eq_fillUp]
    exact (filled_fillUp s _).imp fun x y h => ⟨h.1, fun i => h.2.resolve_ok hsize⟩
  rcases c.resolve_cases s' with hok | ⟨k, hk⟩
  · refine .fills hok ?_
    rw [resolve_eq_fillUp c s'] at hok ⊢
    rw [resolve_eq_fillUp _ s', fillUp_of_alike halike hok]
    rfl
  · exact .stops k hk (hk.of_alike halike)

end Code

/-! ## Scopes that differ in places -/

namespace Scopes

/-- From `s` to `s'` the symbols `ids` were given other places, or places at all, and nothing else
changed. -/
structure Moves (ids : List Symbol.Id) (s s' : Scopes) : Prop where
  frame : s' = { s with symbols := s'.symbols }
  symbols : ∀ id, (s'.symbol? id).map Symbol.unplaced = (s.symbol? id).map Symbol.unplaced
  others : ∀ id, id ∉ ids → s'.symbol? id = s.symbol? id

variable {ids : List Symbol.Id} {s s' s'' : Scopes}

theorem setStorage_unplaced (s : Scopes) (id : Symbol.Id) (st : Storage) (other : Symbol.Id) :
    ((s.setStorage id st).symbol? other).map Symbol.unplaced =
      (s.symbol? other).map Symbol.unplaced := by
  rw [symbol?_setStorage]
  split
  · rw [Option.map_map]
    rfl
  · rfl

theorem Stores.setStorage {id : Symbol.Id} {st : Storage} (h : s.Stores id st) (other : Symbol.Id)
    (st' : Storage) : ∃ st'', (s.setStorage other st').Stores id st'' := by
  obtain ⟨sym, hsym, hst⟩ := h
  by_cases he : other = id
  · exact ⟨st', sym.setStorage st', by rw [symbol?_setStorage, if_pos he, hsym]; rfl, rfl⟩
  · exact ⟨st, sym, by rw [symbol?_setStorage, if_neg he, hsym], hst⟩

namespace Moves

theorem refl (ids : List Symbol.Id) (s : Scopes) : s.Moves ids s :=
  ⟨rfl, fun _ => rfl, fun _ _ => rfl⟩

theorem trans (h : s.Moves ids s') (h' : s'.Moves ids s'') : s.Moves ids s'' where
  frame := by rw [h'.frame, h.frame]
  symbols id := (h'.symbols id).trans (h.symbols id)
  others id hid := (h'.others id hid).trans (h.others id hid)

theorem mono {more : List Symbol.Id} (h : s.Moves ids s') (hi : ∀ id ∈ ids, id ∈ more) :
    s.Moves more s' :=
  ⟨h.frame, h.symbols, fun id hid => h.others id fun hm => hid (hi id hm)⟩

theorem eq_of_nil (h : s.Moves [] s') : s' = s := by
  have hsymbols : s'.symbols = s.symbols := by
    refine Array.ext_getElem? fun id => ?_
    exact h.others id (by simp)
  rw [h.frame, hsymbols]

theorem setStorage {id : Symbol.Id} (hid : id ∈ ids) (st : Storage) :
    s.Moves ids (s.setStorage id st) := by
  refine ⟨rfl, s.setStorage_unplaced id st, fun other ho => ?_⟩
  rw [symbol?_setStorage, if_neg]
  rintro rfl
  exact ho hid

theorem setStorage_both {id : Symbol.Id} (h : s.Moves (id :: ids) s') (st : Storage) :
    (s.setStorage id st).Moves ids (s'.setStorage id st) := by
  have hunplaced (o : Option Symbol) : o.map (Symbol.setStorage · st) =
      (o.map Symbol.unplaced).map (Symbol.setStorage · st) := by
    rw [Option.map_map]
    rfl
  refine ⟨?_, fun other => ?_, fun other ho => ?_⟩
  · obtain ⟨symbols, rfl⟩ : ∃ symbols, s' = { s with symbols := symbols } := ⟨_, h.frame⟩
    rfl
  · rw [setStorage_unplaced, setStorage_unplaced, h.symbols]
  · rw [symbol?_setStorage, symbol?_setStorage]
    by_cases he : id = other
    · rw [if_pos he, if_pos he, hunplaced, h.symbols, ← hunplaced]
    · rw [if_neg he, if_neg he, h.others other (by simp [Ne.symm he, ho])]

end Moves

end Scopes

namespace Code

section Pool

variable {s s' : Scopes} {pool : List (Symbol.Id × Nat)}

theorem moves_placePool (offset : Nat) (s : Scopes) (pool : List (Symbol.Id × Nat)) :
    s.Moves (pool.map Prod.fst) (placePool offset s pool).2 := by
  induction pool generalizing offset s with
  | nil => exact .refl _ s
  | cons e pool ih =>
    obtain ⟨id, size⟩ := e
    rw [placePool]
    split
    · have hset : s.Moves (((id, size) :: pool).map Prod.fst)
          (s.setStorage id ⟨.constants, offset⟩) := .setStorage (by simp) _
      refine hset.trans ((ih _ _).mono fun other ho => ?_)
      simp only [List.map_cons, List.mem_cons]
      exact .inr ho
    · exact .refl _ s

theorem stores_placePool {id : Symbol.Id} {st : Storage} (h : s.Stores id st) (offset : Nat)
    (pool : List (Symbol.Id × Nat)) : ∃ st', (placePool offset s pool).2.Stores id st' := by
  induction pool generalizing offset s st with
  | nil => exact ⟨st, h⟩
  | cons e pool ih =>
    obtain ⟨other, size⟩ := e
    rw [placePool]
    split
    · obtain ⟨st', h'⟩ := h.setStorage other ⟨.constants, offset⟩
      exact ih h' _
    · exact ⟨st, h⟩

theorem placePool_of_moves (offset : Nat) (h : s.Moves (pool.map Prod.fst) s') :
    (∃ n t, placePool offset s pool = (.ok n, t) ∧ placePool offset s' pool = (.ok n, t)) ∨
    ∃ d t t', placePool offset s pool = (.error d, t) ∧
      placePool offset s' pool = (.error d, t') := by
  induction pool generalizing offset s s' with
  | nil => exact .inl ⟨offset, s, rfl, by rw [h.eq_of_nil]; rfl⟩
  | cons e pool ih =>
    obtain ⟨id, size⟩ := e
    rw [placePool, placePool]
    by_cases hle : offset ≤ maxOffset
    · rw [if_pos hle, if_pos hle]
      exact ih _ (h.setStorage_both _)
    · rw [if_neg hle, if_neg hle]
      exact .inr ⟨_, s, s', rfl, rfl⟩

end Pool

section Build

variable {c c' : Code} {s t : Scopes} {n : Nat} {d : Defect}

theorem build_of_unplaced (hp : placePool (wordBoundary c.size) s c.pool = (.error d, t)) :
    c.build s = ⟨.error d, none, c, t⟩ := by
  simp only [build, hp]

theorem build_of_unfilled (hp : placePool (wordBoundary c.size) s c.pool = (.ok n, t))
    (hr : c.resolve t = (.error d, c')) : c.build s = ⟨.error d, some n, c', t⟩ := by
  simp only [build, hp, hr]

theorem build_of_filled (hp : placePool (wordBoundary c.size) s c.pool = (.ok n, t))
    (hr : c.resolve t = (.ok (), c')) : c.build s = ⟨.ok c'.moduleText, some n, c', t⟩ := by
  simp only [build, hp, hr]

/-- What building leaves behind: literals that have places, as far as they reach, and loads that
are filled in for those, or none that are. -/
theorem build_leaves (c : Code) (s : Scopes) :
    (c.build s).scopes = (placePool (wordBoundary c.size) s c.pool).2 ∧
      ((c.build s).code = c ∨ (c.build s).code = (c.resolve (c.build s).scopes).2) := by
  rcases hp : placePool (wordBoundary c.size) s c.pool with ⟨d | n, t⟩
  · rw [build_of_unplaced hp]
    exact ⟨rfl, .inl rfl⟩
  · rcases hr : c.resolve t with ⟨d | u, c'⟩
    · rw [build_of_unfilled hp hr]
      exact ⟨rfl, .inr (by rw [hr])⟩
    · rw [build_of_filled hp hr]
      exact ⟨rfl, .inr (by rw [hr])⟩

end Build

/-- The second code is the first one, but for loads that were filled in before. -/
structure Refilled (s : Scopes) (c c' : Code) : Prop where
  frame : c' = { c with instructions := c'.instructions }
  instructions : List.Forall₂ (Placed.Filled s) c.instructions.toList c'.instructions.toList

section Refilled

variable {s s' : Scopes} {c c' : Code}

theorem edit_patch_of_split {position : Nat} {as bs : List Placed} {x : Placed}
    (hc : c.instructions.toList = as ++ x :: bs) (hx : x.position = position)
    (has : ∀ y ∈ as, y.position ≠ position) (new : List UInt8) :
    c.edit (.patch position new) = { c with instructions :=
      (as ++ ⟨position, (x.instruction.patch? new).getD x.instruction⟩ :: bs).toArray } := by
  cases hp : x.instruction.patch? new with
  | some j => simp only [edit, patch_of_split hc hx has hp, Option.getD_some]
  | none =>
    have hsame : c.instructions = (as ++ ⟨position, x.instruction⟩ :: bs).toArray := by
      rw [← hx, ← hc]
    simp only [edit, patch_of_split_none hc hx has hp, Option.getD_none, ← hsame]

theorem edit_patch_of_absent {position : Nat}
    (h : ∀ x ∈ c.instructions.toList, x.position ≠ position) (new : List UInt8) :
    c.edit (.patch position new) = c := by
  simp [edit, patch, at?_of_absent h]

theorem positions_of_filled {xs ys : List Placed} (h : List.Forall₂ (Placed.Filled s) xs ys)
    {position : Nat} (hxs : ∀ x ∈ xs, x.position ≠ position) : ∀ y ∈ ys, y.position ≠ position := by
  refine forall_mem_of_forall₂ h ?_ hxs
  intro x y hxy hne
  rw [hxy.1]
  exact hne

namespace Refilled

variable (h : Refilled s c c')
include h

theorem size : c'.size = c.size := by rw [h.frame]

theorem pool : c'.pool = c.pool := by
  rw [h.frame]
  rfl

theorem mono (hs : ∀ id st, s.Stores id st → ∃ st', s'.Stores id st') : Refilled s' c c' :=
  ⟨h.frame, h.instructions.imp fun _ _ hxy => ⟨hxy.1, hxy.2.mono hs⟩⟩

theorem resolve : Refilled s c (c'.resolve s).2 := by
  rw [resolve_eq_fillUp]
  exact ⟨by rw [h.frame], filled_trans h.instructions (filled_fillUp s _)⟩

theorem push (i : Instruction) : Refilled s (c.push i) (c'.push i) := by
  refine ⟨by rw [Code.push, h.frame]; rfl, ?_⟩
  simp only [Code.push, Array.toList_push]
  exact List.rel_append h.instructions (.cons ⟨h.size, .same i⟩ .nil)

theorem patch (position : Nat) (new : List UInt8) :
    Refilled s (c.edit (.patch position new)) (c'.edit (.patch position new)) := by
  rcases starts_cases c.instructions.toList position with hnone | ⟨as, x, bs, hc, hx, has⟩
  · rw [edit_patch_of_absent hnone, edit_patch_of_absent (positions_of_filled h.instructions hnone)]
    exact h
  · have hfilled := h.instructions
    rw [hc] at hfilled
    obtain ⟨as', y, bs', hc', has', hxy, hbs⟩ := exists_split_of_forall₂ hfilled
    rw [edit_patch_of_split hc hx has, edit_patch_of_split hc' (hxy.1.trans hx)
      (positions_of_filled has' has), hxy.2.patch?]
    refine ⟨by rw [h.frame], List.rel_append has' (.cons ⟨rfl, ?_⟩ hbs)⟩
    cases hp : x.instruction.patch? new with
    | some j => exact .same j
    | none => exact hxy.2

theorem resolve_fst : (c'.resolve s).1 = (c.resolve s).1 := by
  rw [resolve_eq_fillUp, resolve_eq_fillUp]
  exact fillUp_of_filled h.instructions

theorem resolve_eq (hok : (c.resolve s).1 = .ok ()) : c'.resolve s = c.resolve s := by
  have halike : List.Forall₂ (Placed.Alike s) c.instructions.toList c'.instructions.toList :=
    h.instructions.imp fun x y hxy => ⟨hxy.1, fun i => by rw [hxy.2.resolve]⟩
  rw [resolve_eq_fillUp] at hok
  rw [resolve_eq_fillUp, resolve_eq_fillUp, fillUp_of_alike halike hok, h.frame]

end Refilled

end Refilled

/-! ## Histories -/

/-- Whether the edit adds to the code or exchanges operands, and fills in nothing. -/
def Edit.emits : Edit → Bool
  | .resolve _ | .build _ => false
  | _ => true

/-- What can happen to code while it is written for the symbols of one program. -/
inductive Event where
  | emit (e : Edit) (h : e.emits = true)
  | resolve
  | build

def Event.isEmit : Event → Bool
  | .emit .. => true
  | _ => false

/-- Code, and the symbols that it is written for. -/
structure Session where
  code : Code
  scopes : Scopes

namespace Session

/-- What an event leaves behind, whether it succeeds or not. -/
def after (S : Session) : Event → Session
  | .emit e _ => { S with code := S.code.edit e }
  | .resolve => { S with code := (S.code.resolve S.scopes).2 }
  | .build => ⟨(S.code.build S.scopes).code, (S.code.build S.scopes).scopes⟩

def run (S : Session) (events : List Event) : Session := events.foldl after S

def built (S : Session) : Build := S.code.build S.scopes

end Session

theorem Refilled.edit {s : Scopes} {c c' : Code} (h : Refilled s c c') {e : Edit}
    (he : e.emits = true) : Refilled s (c.edit e) (c'.edit e) := by
  cases e with
  | push i => exact h.push i
  | patch position new => exact h.patch position new
  | addInteger | addReal | addString =>
    obtain ⟨is, rfl⟩ : ∃ is, c' = { c with instructions := is } := ⟨_, h.frame⟩
    exact ⟨rfl, h.instructions⟩
  | resolve t => cases he
  | build t => cases he

theorem pool_edit {c : Code} {e : Edit} (he : e.emits = true) :
    ∀ id ∈ c.pool.map Prod.fst, id ∈ (c.edit e).pool.map Prod.fst := by
  intro id hid
  cases e with
  | push i => exact hid
  | patch position new =>
    rcases starts_cases c.instructions.toList position with hnone | ⟨as, x, bs, hc, hx, has⟩
    · rw [edit_patch_of_absent hnone]
      exact hid
    · rw [edit_patch_of_split hc hx has]
      exact hid
  | addInteger n k => exact ((Emitter.pool_addInteger c n k).map Prod.fst).mem_iff.2 (.tail _ hid)
  | addReal x k => exact ((Emitter.pool_addReal c x k).map Prod.fst).mem_iff.2 (.tail _ hid)
  | addString text k =>
    exact ((Emitter.pool_addString c text k).map Prod.fst).mem_iff.2 (.tail _ hid)
  | resolve t => cases he
  | build t => cases he

namespace Session

/-- The second session is as the first one, but that loads were filled in and literals placed in
between. -/
structure Ahead (S T : Session) : Prop where
  code : Refilled T.scopes S.code T.code
  scopes : S.scopes.Moves (S.code.pool.map Prod.fst) T.scopes

namespace Ahead

variable {S T : Session}

theorem refl (S : Session) : S.Ahead S :=
  ⟨⟨rfl, List.forall₂_same.2 fun _ _ => ⟨rfl, .same _⟩⟩, .refl _ _⟩

theorem emit (h : S.Ahead T) {e : Edit} (he : e.emits = true) :
    (S.after (.emit e he)).Ahead (T.after (.emit e he)) :=
  ⟨h.code.edit he, h.scopes.mono (pool_edit he)⟩

theorem resolve (h : S.Ahead T) : S.Ahead (T.after .resolve) := ⟨h.code.resolve, h.scopes⟩

theorem build (h : S.Ahead T) : S.Ahead (T.after .build) := by
  obtain ⟨hscopes, hcode⟩ := T.code.build_leaves T.scopes
  have hmoves : T.scopes.Moves (S.code.pool.map Prod.fst) (T.code.build T.scopes).scopes := by
    rw [hscopes, ← h.code.pool]
    exact moves_placePool _ _ _
  have hcode' : Refilled (T.code.build T.scopes).scopes S.code T.code := by
    refine h.code.mono fun id st hst => ?_
    rw [hscopes]
    exact stores_placePool hst _ _
  refine ⟨?_, h.scopes.trans hmoves⟩
  show Refilled _ _ (T.code.build T.scopes).code
  rcases hcode with hc | hc
  · rw [hc]
    exact hcode'
  · rw [hc]
    exact hcode'.resolve

theorem run (h : S.Ahead T) (events : List Event) :
    (S.run (events.filter Event.isEmit)).Ahead (T.run events) := by
  induction events generalizing S T with
  | nil => exact h
  | cons event events ih =>
    cases event with
    | emit e he => exact ih (h.emit he)
    | resolve => exact ih h.resolve
    | build => exact ih h.build

theorem built_result (h : S.Ahead T) : T.built.result = S.built.result := by
  unfold Session.built
  rcases placePool_of_moves (wordBoundary S.code.size) h.scopes with
    ⟨n, t, hS, hT⟩ | ⟨d, t, t', hS, hT⟩
  · rw [← h.code.size, ← h.code.pool] at hT
    have hcode : Refilled t S.code T.code := by
      refine h.code.mono fun id st hst => ?_
      have hkeeps := stores_placePool hst (wordBoundary T.code.size) T.code.pool
      rwa [hT] at hkeeps
    rcases hr : S.code.resolve t with ⟨d | u, c⟩
    · have hfst := hcode.resolve_fst
      rw [hr] at hfst
      have hr' : T.code.resolve t = (.error d, (T.code.resolve t).2) := Prod.ext hfst rfl
      rw [build_of_unfilled hS hr, build_of_unfilled hT hr']
    · rw [build_of_filled hS hr, build_of_filled hT ((hcode.resolve_eq (by rw [hr])).trans hr)]
  · rw [← h.code.size, ← h.code.pool] at hT
    rw [build_of_unplaced hS, build_of_unplaced hT]

end Ahead

end Session

/-- Filling in again makes good what was filled in before, wherever that stopped. So events that
only fill in or build can be left out before a module is built, and building twice gives the same
text. -/
theorem rebuild_absorbs :
    (∀ (c : Code) (s s' : Scopes), s.symbols.size = s'.symbols.size → c.Absorbs s s') ∧
    (∀ (S : Session) (events : List Event),
      (S.run events).built.result = (S.run (events.filter Event.isEmit)).built.result) ∧
    ∀ S : Session, (S.after .build).built.result = S.built.result :=
  ⟨fun c _ _ hsize => c.resolve_absorbs hsize,
    fun S events => ((Session.Ahead.refl S).run events).built_result,
    fun S => (Session.Ahead.refl S).build.built_result⟩

def variableAt (st : Storage) : Scopes :=
  (Scopes.empty.declare ((Symbol.new .intVariable "x" .start [.dataType .int]).setStorage st)
    none).2

/-- A load of the address of the variable. -/
def addressLoad : Code := Code.empty.push (.pending .pendingAddress 0)

/-- The variable may have been elsewhere when its load was filled in first. The load is then made
for the new place, which is in another region. -/
theorem rebuild_absorbs_moved :
    (variableAt ⟨.globals, 8⟩).symbols.size = (variableAt ⟨.declarations, 16⟩).symbols.size ∧
    addressLoad.Absorbs (variableAt ⟨.globals, 8⟩) (variableAt ⟨.declarations, 16⟩) ∧
    (addressLoad.resolve (variableAt ⟨.globals, 8⟩)).2.instructions =
      #[⟨0, .symbolic (.loadAddress .globals) 0 8⟩] ∧
    ((addressLoad.resolve (variableAt ⟨.globals, 8⟩)).2.resolve
      (variableAt ⟨.declarations, 16⟩)).2.instructions =
        #[⟨0, .symbolic (.loadAddress .declarations) 0 16⟩] := by
  have hsize : (variableAt ⟨.globals, 8⟩).symbols.size =
      (variableAt ⟨.declarations, 16⟩).symbols.size := rfl
  exact ⟨hsize, rebuild_absorbs.1 _ _ _ hsize, by decide +kernel, by decide +kernel⟩

end Code

end StackCompiler
