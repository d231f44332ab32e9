import Mathlib.Data.List.Forall2
import StackCompiler.Proofs.Correspondence.Basic

/-!
# Symbols and scopes that correspond

Programs that correspond make the same symbols in scopes at the same indices: what a table of the
one has under a name, the table of the other has under the name that corresponds to it. Every
operation on scopes keeps that.
-/

namespace StackCompiler

/-! ## Optional values and arrays -/

section

variable {α β γ δ : Type} {R : α → β → Prop} {T : γ → δ → Prop} {a : Option α} {b : Option β}
  {f : α → Option γ}

theorem rel_map {f : α → γ} {g : β → δ} (h : Option.Rel R a b) (hf : ∀ x y, R x y → T (f x) (g y)) :
    Option.Rel T (a.map f) (b.map g) := by
  cases h with
  | some h => exact .some (hf _ _ h)
  | none => exact .none

theorem rel_bind {g : β → Option δ} (h : Option.Rel R a b)
    (hf : ∀ x y, R x y → Option.Rel T (f x) (g y)) : Option.Rel T (a.bind f) (b.bind g) := by
  cases h with
  | some h => exact hf _ _ h
  | none => exact .none

theorem rel_getD {x : α} {y : β} (h : Option.Rel R a b) (hxy : R x y) :
    R (a.getD x) (b.getD y) := by
  cases h with
  | some h => exact h
  | none => exact hxy

theorem map_eq_of_rel {f : α → γ} {g : β → γ} (h : Option.Rel R a b)
    (hf : ∀ x y, R x y → f x = g y) : a.map f = b.map g := by
  cases h with
  | some h => rw [Option.map_some, Option.map_some, hf _ _ h]
  | none => rfl

theorem bind_eq_of_rel {g : β → Option γ} (h : Option.Rel R a b) (hf : ∀ x y, R x y → f x = g y) :
    a.bind f = b.bind g := by
  cases h with
  | some h => exact hf _ _ h
  | none => rfl

theorem rel_findSome? {l : List α} {l' : List β} {g : β → Option δ} (h : List.Forall₂ R l l')
    (hf : ∀ a b, R a b → Option.Rel T (f a) (g b)) :
    Option.Rel T (l.findSome? f) (l'.findSome? g) := by
  induction h with
  | nil => exact .none
  | @cons a b _ _ hab _ ih =>
    rw [List.findSome?_cons, List.findSome?_cons]
    have hfg := hf _ _ hab
    cases ha : f a <;> cases hb : g b <;> rw [ha, hb] at hfg <;> cases hfg
    · exact ih
    · exact .some ‹_›

/-- The arrays are of one size, and `R` relates what they hold at each index. -/
structure Pointwise (R : α → β → Prop) (xs : Array α) (ys : Array β) : Prop where
  size : xs.size = ys.size
  item : ∀ i : Nat, Option.Rel R xs[i]? ys[i]?

namespace Pointwise

variable {xs : Array α} {ys : Array β}

theorem empty : Pointwise R #[] #[] := ⟨rfl, fun _ => .none⟩

theorem refl {R : α → α → Prop} (h : ∀ x, R x x) (xs : Array α) : Pointwise R xs xs := by
  refine ⟨rfl, fun i => ?_⟩
  cases xs[i]? with
  | none => exact .none
  | some x => exact .some (h x)

theorem push (h : Pointwise R xs ys) {x : α} {y : β} (hxy : R x y) :
    Pointwise R (xs.push x) (ys.push y) := by
  refine ⟨by simp [h.size], fun i => ?_⟩
  rw [Array.getElem?_push, Array.getElem?_push, h.size]
  split
  · exact .some hxy
  · exact h.item i

theorem modify (h : Pointwise R xs ys) {f : α → α} {g : β → β}
    (hf : ∀ x y, R x y → R (f x) (g y)) (j : Nat) :
    Pointwise R (xs.modify j f) (ys.modify j g) := by
  refine ⟨by simp [h.size], fun i => ?_⟩
  rw [Array.getElem?_modify, Array.getElem?_modify]
  split
  · exact rel_map (h.item i) hf
  · exact h.item i

theorem setIfInBounds (h : Pointwise R xs ys) {x : α} {y : β} (hxy : R x y) (j : Nat) :
    Pointwise R (xs.setIfInBounds j x) (ys.setIfInBounds j y) := by
  refine ⟨by simp [h.size], fun i => ?_⟩
  rw [Array.getElem?_setIfInBounds, Array.getElem?_setIfInBounds, h.size]
  split
  · split
    · exact .some hxy
    · exact .none
  · exact h.item i

end Pointwise

end

namespace Correspondence

variable (r : Correspondence)

/-! ## Types and symbols -/

inductive SameType : DataType → DataType → Prop
  | int : SameType .int .int
  | real : SameType .real .real
  | bool : SameType .bool .bool
  | string : SameType .string .string
  | void : SameType .void .void
  | struct {a b : String} (h : r.SameName a b) : SameType (.struct a) (.struct b)
  | array {a b : String} (h : r.SameName a b) : SameType (.array a) (.array b)

inductive SameAttribute : Symbol.Attribute → Symbol.Attribute → Prop
  | dataType {t u : DataType} (h : r.SameType t u) : SameAttribute (.dataType t) (.dataType u)
  | returnType {t u : DataType} (h : r.SameType t u) : SameAttribute (.returnType t) (.returnType u)
  | other {a : Symbol.Attribute} (hd : a.dataType? = none) (hr : a.returnType? = none) :
      SameAttribute a a

/-- The symbols differ in names and places only. -/
structure SameSymbol (s t : Symbol) : Prop where
  kind : s.kind = t.kind
  attributes : List.Forall₂ r.SameAttribute s.attributes t.attributes
  storage : s.storage = t.storage

variable {r} {t t' u u' : DataType}

namespace SameType

theorem refl (hx : r.Exact) (t : DataType) : r.SameType t t := by
  cases t with
  | struct a => exact .struct ((hx.name a a).2 rfl)
  | array a => exact .array ((hx.name a a).2 rfl)
  | _ => constructor

variable (h : r.SameType t u)
include h

@[grind →] theorem eq (hx : r.Exact) : t = u := by
  cases h with
  | struct h => rw [(hx.name _ _).1 h]
  | array h => rw [(hx.name _ _).1 h]
  | _ => rfl

theorem eq_iff (h' : r.SameType t' u') : t = t' ↔ u = u' := by
  cases h with
  | struct h =>
    cases h' with
    | struct h' => simpa using r.name_iff h h'
    | _ => simp
  | array h =>
    cases h' with
    | array h' => simpa using r.name_iff h h'
    | _ => simp
  | _ => cases h' <;> simp

theorem isNumeric : t.isNumeric = u.isNumeric := by cases h <;> rfl

theorem isBoolean : t.isBoolean = u.isBoolean := by cases h <;> rfl

theorem isVoid : t.isVoid = u.isVoid := by cases h <;> rfl

theorem isStruct : t.isStruct = u.isStruct := by cases h <;> rfl

theorem isArray : t.isArray = u.isArray := by cases h <;> rfl

theorem assignableTo (h' : r.SameType t' u') : t.assignableTo t' = u.assignableTo u' := by
  simp only [DataType.assignableTo, h.eq_iff h']

theorem join (h' : r.SameType t' u') : r.SameType (t.join t') (u.join u') := by
  simp only [DataType.join, h.eq_iff real, h'.eq_iff real]
  split
  · exact real
  · exact int

theorem variableOf : Symbol.Kind.variableOf t = Symbol.Kind.variableOf u := by cases h <;> rfl

theorem constantOf : Symbol.Kind.constantOf t = Symbol.Kind.constantOf u := by cases h <;> rfl

end SameType

section

variable {s s' : Symbol} {a b : Symbol.Attribute}

theorem SameAttribute.refl (hx : r.Exact) (a : Symbol.Attribute) : r.SameAttribute a a := by
  cases a with
  | dataType t => exact .dataType (.refl hx t)
  | returnType t => exact .returnType (.refl hx t)
  | _ => exact .other rfl rfl

theorem SameAttribute.eq (h : r.SameAttribute a b) (hx : r.Exact) : a = b := by
  cases h with
  | dataType h => rw [h.eq hx]
  | returnType h => rw [h.eq hx]
  | other _ _ => rfl

theorem SameAttribute.dataType? (h : r.SameAttribute a b) :
    Option.Rel r.SameType a.dataType? b.dataType? := by
  cases h with
  | dataType h => exact .some h
  | returnType h => exact .none
  | other hd hr =>
    rw [hd]
    exact .none

theorem SameAttribute.returnType? (h : r.SameAttribute a b) :
    Option.Rel r.SameType a.returnType? b.returnType? := by
  cases h with
  | dataType h => exact .none
  | returnType h => exact .some h
  | other hd hr =>
    rw [hr]
    exact .none

theorem SameAttribute.congr {γ : Type} {f : Symbol.Attribute → γ} {c : γ}
    (hd : ∀ t, f (.dataType t) = c) (hr : ∀ t, f (.returnType t) = c)
    (h : r.SameAttribute a b) : f a = f b := by
  cases h with
  | dataType h => rw [hd, hd]
  | returnType h => rw [hr, hr]
  | other _ _ => rfl

namespace SameSymbol

theorem new {k : Symbol.Kind} {name name' : String} {p p' : Position}
    {as bs : List Symbol.Attribute} (h : List.Forall₂ r.SameAttribute as bs) :
    r.SameSymbol (.new k name p as) (.new k name' p' bs) :=
  ⟨rfl, h, rfl⟩

variable (h : r.SameSymbol s s')
include h

theorem dataType? : Option.Rel r.SameType s.dataType? s'.dataType? :=
  rel_findSome? h.attributes fun _ _ h => h.dataType?

theorem returnType? : Option.Rel r.SameType s.returnType? s'.returnType? :=
  rel_findSome? h.attributes fun _ _ h => h.returnType?

theorem valueType : r.SameType s.valueType s'.valueType := by
  simp only [Symbol.valueType, h.kind]
  split
  · exact rel_getD h.returnType? .void
  · exact rel_getD h.dataType? .void

theorem map_attributes {γ : Type} {f : Symbol.Attribute → γ} {c : γ}
    (hd : ∀ t, f (.dataType t) = c) (hr : ∀ t, f (.returnType t) = c) :
    s.attributes.map f = s'.attributes.map f := by
  have hm := List.rel_map (P := Eq) (fun _ _ hab => SameAttribute.congr hd hr hab) h.attributes
  rwa [List.forall₂_eq_eq_eq] at hm

theorem findSome? {γ : Type} {f : Symbol.Attribute → Option γ}
    (hd : ∀ t, f (.dataType t) = none) (hr : ∀ t, f (.returnType t) = none) :
    s.attributes.findSome? f = s'.attributes.findSome? f := by
  have hm := congrArg (List.findSome? id) (h.map_attributes hd hr)
  rwa [List.findSome?_map, List.findSome?_map] at hm

theorem contains (hd : ∀ t, a ≠ .dataType t)
    (hr : ∀ t, a ≠ .returnType t) : s.attributes.contains a = s'.attributes.contains a := by
  have hm : s.attributes.map (a == ·) = s'.attributes.map (a == ·) :=
    h.map_attributes (c := false) (fun t => by simpa using hd t) (fun t => by simpa using hr t)
  have hm := congrArg (List.any · id) hm
  simp only [List.any_map] at hm
  rw [List.contains_eq_any_beq, List.contains_eq_any_beq]
  exact hm

theorem parameters : s.parameters = s'.parameters := by
  have hm := congrArg (List.filterMap id)
    (h.map_attributes (f := Symbol.Attribute.parameter?) (fun _ => rfl) (fun _ => rfl))
  simpa [Symbol.parameters] using hm

theorem isImmutable : s.isImmutable = s'.isImmutable :=
  h.contains (fun _ => nofun) (fun _ => nofun)

theorem isParameter : s.isParameter = s'.isParameter :=
  h.contains (fun _ => nofun) (fun _ => nofun)

theorem addAttribute (hab : r.SameAttribute a b) :
    r.SameSymbol (s.addAttribute a) (s'.addAttribute b) :=
  ⟨h.kind, List.rel_append h.attributes (.cons hab .nil), h.storage⟩

theorem setStorage (st : Storage) :
    r.SameSymbol (s.setStorage st) (s'.setStorage st) :=
  ⟨h.kind, h.attributes, rfl⟩

end SameSymbol

end

variable (r)

/-- The tables list the same symbols, each under a name and the name it was changed to. -/
structure SameTable (t u : SymbolTable) : Prop where
  scope : r.SameScope t.scope u.scope
  order : t.order = u.order
  resolve : ∀ a b, r.SameName a b → t.resolve a = u.resolve b

/-- The scopes hold the same symbols and tables, at the same indices. -/
structure SameScopes (s t : Scopes) : Prop where
  symbols : Pointwise r.SameSymbol s.symbols t.symbols
  tables : Pointwise r.SameTable s.tables t.tables
  index : ∀ a b, r.SameScope a b → s.index[a]? = t.index[b]?
  stack : s.stack = t.stack
  constants : s.constants = t.constants
  nextGlobal : s.nextGlobal = t.nextGlobal
  nextLocal : s.nextLocal = t.nextLocal
  nextParameter : s.nextParameter = t.nextParameter

variable {r}

theorem SameTable.empty {a b : String} (h : r.SameScope a b) :
    r.SameTable (.empty a) (.empty b) := by
  refine ⟨h, rfl, fun c d _ => ?_⟩
  simp [SymbolTable.resolve, SymbolTable.empty]

theorem SameTable.insert {t u : SymbolTable} (h : r.SameTable t u) {a b : String}
    (hab : r.SameName a b) (id : Symbol.Id) : r.SameTable (t.insert a id) (u.insert b id) := by
  refine ⟨?_, ?_, fun c d hcd => ?_⟩
  · rw [SymbolTable.insert_scope, SymbolTable.insert_scope]
    exact h.scope
  · unfold SymbolTable.insert
    rw [h.resolve a b hab]
    split
    · simp only [h.order]
    · simp only [h.order]
  · rw [SymbolTable.resolve_insert, SymbolTable.resolve_insert, h.resolve c d hcd]
    simp only [r.name_iff hab hcd]

theorem SameTable.contains {t u : SymbolTable} (h : r.SameTable t u) {a b : String}
    (hab : r.SameName a b) : t.contains a = u.contains b := by
  rw [SymbolTable.contains_eq, SymbolTable.contains_eq, h.resolve a b hab]

namespace SameScopes

variable {s t : Scopes} {a b : String} {x y : Symbol}

theorem empty : r.SameScopes .empty .empty := by
  refine ⟨.empty, .empty, fun a b _ => ?_, rfl, rfl, rfl, rfl, rfl⟩
  simp [Scopes.empty]

theorem refl (hx : r.Exact) (s : Scopes) : r.SameScopes s s := by
  refine ⟨.refl (fun x => ?_) _, .refl (fun t => ?_) _, fun a b h => ?_, rfl, rfl, rfl, rfl, rfl⟩
  · exact ⟨rfl, List.forall₂_same.2 fun a _ => .refl hx a, rfl⟩
  · exact ⟨(hx.scope _ _).2 rfl, rfl, fun a b h => by rw [(hx.name a b).1 h]⟩
  · rw [(hx.scope a b).1 h]

theorem place_name (s : Scopes) (x : Symbol) (region : Option Region) :
    (s.place x region).1.name = x.name := by
  cases region <;> rfl

variable (h : r.SameScopes s t)
include h

theorem push (i : Nat) : r.SameScopes (s.push i) (t.push i) :=
  { h with stack := congrArg (i :: ·) h.stack, nextLocal := rfl, nextParameter := rfl }

theorem create (hab : r.SameScope a b) : r.SameScopes (s.create a) (t.create b) := by
  unfold Scopes.create
  rw [h.index a b hab]
  split
  · refine push ?_ _
    exact { h with tables := h.tables.setIfInBounds (.empty hab) _ }
  · rw [h.tables.size]
    refine push ?_ _
    refine { h with tables := h.tables.push (.empty hab), index := fun c d hcd => ?_ }
    rw [Std.TreeMap.getElem?_insert, Std.TreeMap.getElem?_insert, h.index c d hcd]
    simp only [Std.LawfulEqCmp.compare_eq_iff_eq, r.scope_iff hab hcd]

theorem leave : r.SameScopes s.leave t.leave :=
  { h with stack := congrArg List.tail h.stack }

theorem enter? (hab : r.SameScope a b) : Option.Rel r.SameScopes (s.enter? a) (t.enter? b) := by
  unfold Scopes.enter?
  rw [h.index a b hab]
  cases t.index[b]? with
  | none => exact .none
  | some i => exact .some (h.push i)

theorem currentTable? : Option.Rel r.SameTable s.currentTable? t.currentTable? := by
  unfold Scopes.currentTable?
  rw [h.stack]
  cases t.stack.head? with
  | none => exact .none
  | some i => exact h.tables.item i

theorem current? : Option.Rel r.SameScope s.current? t.current? :=
  rel_map h.currentTable? fun _ _ ht => ht.scope

theorem table? (hab : r.SameScope a b) : Option.Rel r.SameTable (s.table? a) (t.table? b) := by
  unfold Scopes.table?
  rw [h.index a b hab]
  cases t.index[b]? with
  | none => exact .none
  | some i => exact h.tables.item i

theorem symbol? (id : Symbol.Id) : Option.Rel r.SameSymbol (s.symbol? id) (t.symbol? id) :=
  h.symbols.item id

theorem valueType (id : Symbol.Id) : r.SameType (s.valueType id) (t.valueType id) :=
  rel_getD (rel_map (h.symbol? id) fun _ _ hs => hs.valueType) .void

theorem modify {f g : Symbol → Symbol} (hf : ∀ x y, r.SameSymbol x y → r.SameSymbol (f x) (g y))
    (id : Symbol.Id) : r.SameScopes (s.modify id f) (t.modify id g) :=
  { h with symbols := h.symbols.modify hf id }

theorem addAttribute (id : Symbol.Id) {x y : Symbol.Attribute} (hxy : r.SameAttribute x y) :
    r.SameScopes (s.addAttribute id x) (t.addAttribute id y) :=
  h.modify (fun _ _ hs => hs.addAttribute hxy) id

theorem setStorage (id : Symbol.Id) (st : Storage) :
    r.SameScopes (s.setStorage id st) (t.setStorage id st) :=
  h.modify (fun _ _ hs => hs.setStorage st) id

theorem allocate (region : Region) (isParameter : Bool) :
    (s.allocate region isParameter).1 = (t.allocate region isParameter).1 ∧
      r.SameScopes (s.allocate region isParameter).2 (t.allocate region isParameter).2 := by
  cases region with
  | constants => exact ⟨rfl, h⟩
  | globals =>
    exact ⟨h.nextGlobal, { h with nextGlobal := congrArg (· + Scopes.slotSize) h.nextGlobal }⟩
  | declarations =>
    cases isParameter with
    | true =>
      exact ⟨h.nextParameter,
        { h with nextParameter := congrArg (· - Scopes.slotSize) h.nextParameter }⟩
    | false =>
      exact ⟨h.nextLocal, { h with nextLocal := congrArg (· + Scopes.slotSize) h.nextLocal }⟩

theorem add (hxy : r.SameSymbol x y) :
    (s.add x).1 = (t.add y).1 ∧ r.SameScopes (s.add x).2 (t.add y).2 :=
  ⟨h.symbols.size, { h with symbols := h.symbols.push hxy }⟩

theorem bind (hab : r.SameName a b) (id : Symbol.Id) :
    r.SameScopes (s.bind a id) (t.bind b id) := by
  unfold Scopes.bind
  rw [h.stack]
  split
  · exact { h with tables := h.tables.modify (fun _ _ ht => ht.insert hab id) _, stack := rfl }
  · exact h

theorem place (hxy : r.SameSymbol x y) (region : Option Region) :
    r.SameSymbol (s.place x region).1 (t.place y region).1 ∧
      r.SameScopes (s.place x region).2 (t.place y region).2 := by
  cases region with
  | none => exact ⟨⟨hxy.kind, hxy.attributes, hxy.storage⟩, h⟩
  | some region =>
    have ha := h.allocate region x.isParameter
    simp only [Scopes.place, ← hxy.isParameter]
    exact ⟨⟨hxy.kind, hxy.attributes, by simp only [ha.1]⟩, ha.2⟩

theorem declare (hxy : r.SameSymbol x y) (hn : r.SameName x.name y.name) (region : Option Region) :
    (s.declare x region).1 = (t.declare y region).1 ∧
      r.SameScopes (s.declare x region).2 (t.declare y region).2 := by
  obtain ⟨hp, hs⟩ := h.place hxy region
  obtain ⟨hid, ha⟩ := hs.add hp
  refine ⟨hid, ?_⟩
  have hb := ha.bind (a := (s.place x region).1.name) (b := (t.place y region).1.name)
    (by rwa [place_name, place_name]) (s.declare x region).1
  simp only [Scopes.declare] at hid hb ⊢
  rwa [← hid]

theorem addTemporary {x y : DataType} (hxy : r.SameType x y) (p q : Position) :
    (s.addTemporary x p).1 = (t.addTemporary y q).1 ∧
      r.SameScopes (s.addTemporary x p).2 (t.addTemporary y q).2 :=
  h.add (.new (.cons (.dataType hxy) .nil))

theorem resolve (hab : r.SameName a b) : s.resolve a = t.resolve b := by
  unfold Scopes.resolve
  rw [h.stack]
  congr 1
  funext i
  exact bind_eq_of_rel (h.tables.item i) fun _ _ ht => ht.resolve a b hab

theorem declaresHere (hab : r.SameName a b) : s.declaresHere a = t.declaresHere b := by
  unfold Scopes.declaresHere
  rw [map_eq_of_rel h.currentTable? fun _ _ ht => ht.contains hab]

theorem addConstant (key : String) (hxy : r.SameSymbol x y) :
    (s.addConstant key x).1 = (t.addConstant key y).1 ∧
      r.SameScopes (s.addConstant key x).2 (t.addConstant key y).2 := by
  obtain ⟨hid, ha⟩ := h.add (x := { x with scope := Scopes.poolName })
    (y := { y with scope := Scopes.poolName }) ⟨hxy.kind, hxy.attributes, hxy.storage⟩
  refine ⟨hid, { ha with constants := ?_ }⟩
  show s.constants.insert key s.symbols.size = t.constants.insert key t.symbols.size
  rw [h.constants, h.symbols.size]

theorem resolveConstant (key : String) : s.resolveConstant key = t.resolveConstant key := by
  rw [Scopes.resolveConstant, Scopes.resolveConstant, h.constants]

end SameScopes

end Correspondence

end StackCompiler
