import Mathlib.Data.List.Induction
import StackCompiler.Proofs.Compiling
import StackCompiler.Proofs.Decoding
import StackCompiler.Proofs.Reports
import StackCompiler.Proofs.Subtrees

/-!
# Literals and their symbols

Two literals of a program have the same symbol just if they are of the same kind and are written the
same, and the symbol carries the value that is written. The pool lists the symbols in the order in
which the literals come first in the source, and the code gets them in that order, each among those
of its type.
-/

namespace StackCompiler

namespace Text

/-- The characters write the integer: a sign or none, and at least one digit. -/
inductive Denotes : List Char → Int → Prop
  | digits {ds : List Char} (hne : ds ≠ []) (hd : ∀ c ∈ ds, isDigit c = true) :
      Denotes ds (Nat.ofDigitChars 10 ds 0)
  | plus {ds : List Char} (hne : ds ≠ []) (hd : ∀ c ∈ ds, isDigit c = true) :
      Denotes ('+' :: ds) (Nat.ofDigitChars 10 ds 0)
  | minus {ds : List Char} (hne : ds ≠ []) (hd : ∀ c ∈ ds, isDigit c = true) :
      Denotes ('-' :: ds) (-Nat.ofDigitChars 10 ds 0)

/-- The integer fits a signed word of 64 bits. -/
def IsWord (n : Int) : Prop := -9223372036854775808 ≤ n ∧ n < 9223372036854775808

instance (n : Int) : Decidable (IsWord n) := inferInstanceAs (Decidable (_ ∧ _))

theorem readSign_of_digits {ds : List Char} (hd : ∀ c ∈ ds, isDigit c = true) :
    readSign ds = (false, ds) := by
  unfold readSign
  split
  · exact absurd (hd '-' List.mem_cons_self) (by decide)
  · exact absurd (hd '+' List.mem_cons_self) (by decide)
  · rfl

theorem readInt?_eq_some_iff {cs : List Char} {n : Int} :
    readInt? cs = some n ↔ Denotes cs n := by
  simp only [readInt?, digitsValue_eq, Option.ite_none_left_eq_some, Option.some.injEq,
    Bool.or_eq_true, List.isEmpty_iff, Bool.not_eq_true', not_or, Bool.not_eq_false,
    List.all_eq_true]
  constructor
  · rintro ⟨⟨hne, hd⟩, rfl⟩
    revert hne hd
    unfold readSign
    split
    · exact .minus
    · exact .plus
    · exact .digits
  · intro h
    cases h with
    | digits hne hd =>
      rw [readSign_of_digits hd]
      exact ⟨⟨hne, hd⟩, rfl⟩
    | plus hne hd | minus hne hd => exact ⟨⟨hne, hd⟩, rfl⟩

theorem readWord?_eq_some {text : String} {n : Int} (h : readWord? text = some n) :
    Denotes text.toList n ∧ IsWord n := by
  obtain ⟨hr, hb⟩ := Option.filter_eq_some_iff.1 h
  refine ⟨readInt?_eq_some_iff.1 hr, ?_⟩
  simpa [IsWord] using hb

end Text

/-- The symbol carries the value of the literal. -/
inductive Symbol.Carries (sym : Symbol) : Literal → Prop
  | integer {text : String} {n : Int} (hn : Text.Denotes text.toList n) (hw : Text.IsWord n)
      (hk : sym.kind = .intConstant) (ha : sym.attributes = [.integerConstant n, .dataType .int]) :
      Carries sym ⟨.intLiteral, text⟩
  | real {text : String} {x : Binary64} (hx : Binary64.read? text = some x)
      (hk : sym.kind = .realConstant) (ha : sym.attributes = [.realConstant x, .dataType .real]) :
      Carries sym ⟨.realLiteral, text⟩
  | string {text : String} (hk : sym.kind = .stringConstant)
      (ha : sym.attributes = [.stringConstant text, .dataType .string]) :
      Carries sym ⟨.string, text⟩

theorem Symbol.Carries.kind_unique {sym : Symbol} {a b : Literal} (ha : sym.Carries a)
    (hb : sym.Carries b) : a.kind = b.kind := by
  cases ha <;> cases hb <;> simp_all

namespace Node

theorem literal_eq_iff {m n : Node} (hk : m.kind = n.kind) :
    m.literal = n.literal ↔ m.poolKey = n.poolKey := by
  simp only [literal, poolKey, hk, Literal.mk.injEq, true_and]
  split
  · rw [String.append_left_inj, String.append_right_inj]
  · rfl

end Node

namespace Scopes

variable {s : Scopes} {names : Names} {ret : Option DataType} {n : Node}

/-- A literal has a symbol in the pool, which carries its value. -/
def IsPooled (s : Scopes) (n : Node) : Prop :=
  ∃ id sym, n.symbol = some id ∧ s.resolveConstant n.poolKey = some id ∧
    s.symbol? id = some sym ∧ sym.Carries n.literal

theorem IsExpression.isPooled (h : s.IsExpression names n) (hk : n.kind.isLiteral = true) :
    s.IsPooled n := by
  cases h with
  | integer hn hp hs =>
    obtain ⟨sym, hs, hkind, ha⟩ := hs
    obtain ⟨hd, hw⟩ := Text.readWord?_eq_some hn
    exact ⟨_, sym, rfl, hp, hs, .integer hd hw hkind ha⟩
  | real hx hp hs =>
    obtain ⟨sym, hs, hkind, ha⟩ := hs
    exact ⟨_, sym, rfl, hp, hs, .real hx hkind ha⟩
  | truth hk' => rcases hk' with rfl | rfl <;> cases hk
  | logical hk' | arithmetic hk' | relation hk' =>
    exact absurd hk ((by decide : ∀ k ∈ Node.Kind.logical ++ Node.Kind.arithmetic ++
      Node.Kind.relations, ¬ k.isLiteral = true) _ (by simp [Node.kind, hk']))
  | _ => cases hk

theorem IsPrintEntry.isPooled (h : s.IsPrintEntry names n) (hk : n.kind.isLiteral = true) :
    s.IsPooled n := by
  cases h with
  | string hp hs =>
    obtain ⟨sym, hs, hkind, ha⟩ := hs
    exact ⟨_, sym, rfl, hp, hs, .string hkind ha⟩
  | value h => exact h.isPooled hk

theorem IsStatement.isLiteral (h : s.IsStatement names ret n) : n.kind.isLiteral = false := by
  cases h with
  | assignment h =>
    obtain ⟨hk, -⟩ := h
    exact (by decide : ∀ k ∈ Node.Kind.assign :: Node.Kind.compoundAssignments,
      k.isLiteral = false) _ (by simpa [Node.kind] using hk)
  | print hk => rcases hk with rfl | rfl <;> rfl
  | _ => rfl

end Scopes

theorem Outline.Valid.isPooled {o : Outline} {s : Scopes} (h : o.Valid s) :
    ∀ n ∈ o.root.literals, s.IsPooled n := by
  have hall : o.root.All fun n => n.kind.isLiteral = true → s.IsPooled n := by
    refine h.all (fun k v sym l c r hk hl => ?_) (fun k a m hk hl => ?_)
      (fun names m hm hl => hm.isPooled hl) fun names ret m hm hl => ?_
    · exact absurd hl ((by decide : ∀ k ∈ Node.Kind.declaring, ¬ k.isLiteral = true) k hk)
    · cases k <;> cases hk <;> cases hl
    · rw [hm.isLiteral] at hl
      cases hl
  intro n hn
  obtain ⟨hmem, hk⟩ := List.mem_filter.1 hn
  exact hall n hmem hk

theorem Scopes.Valid.name_of_pooled {s : Scopes} {key : String} {id : Symbol.Id} (h : s.Valid)
    (hr : s.resolveConstant key = some id) : (s.symbol? id).map Symbol.name = some key := by
  obtain ⟨l, hl, hp⟩ := h.pool
  obtain ⟨sym, hs, -, hn, -⟩ := hp _ (hl.mem_of_resolve hr)
  rw [hs, Option.map_some, hn]

section Symbols

variable {s : Scopes} {m n : Node}

/-- Two literals have the same symbol just if they have the same key. -/
theorem Scopes.IsPooled.symbol_eq_iff (h : s.Valid) (hm : s.IsPooled m) (hn : s.IsPooled n) :
    m.symbol = n.symbol ↔ m.poolKey = n.poolKey := by
  obtain ⟨i, -, hi, hri, -⟩ := hm
  obtain ⟨j, -, hj, hrj, -⟩ := hn
  rw [hi, hj, Option.some.injEq]
  constructor
  · rintro rfl
    exact Option.some.inj ((h.name_of_pooled hri).symm.trans (h.name_of_pooled hrj))
  · intro hkey
    rw [hkey, hrj, Option.some.injEq] at hri
    exact hri.symm

theorem Scopes.IsPooled.same_iff (h : s.Valid) (hm : s.IsPooled m) (hn : s.IsPooled n) :
    m.symbol = n.symbol ↔ m.literal = n.literal := by
  have hkeys := hm.symbol_eq_iff h hn
  obtain ⟨i, sym, hi, -, hsi, hci⟩ := hm
  obtain ⟨j, sym', hj, -, hsj, hcj⟩ := hn
  constructor
  · intro hsym
    rw [hi, hj, Option.some.injEq] at hsym
    rw [hsym, hsj, Option.some.injEq] at hsi
    rw [hsi] at hcj
    have hk : m.kind = n.kind := hci.kind_unique hcj
    exact (Node.literal_eq_iff hk).2 (hkeys.1 (by rw [hi, hj, hsym]))
  · intro hl
    exact hkeys.2 ((Node.literal_eq_iff (congrArg Literal.kind hl)).1 hl)

end Symbols

section Dups

variable {α : Type} [BEq α] [LawfulBEq α] {l : List α} {a : α}

theorem eraseDups_concat_of_mem (h : a ∈ l) : (l ++ [a]).eraseDups = l.eraseDups := by
  simp [List.eraseDups_append, List.removeAll, h]

theorem eraseDups_concat_of_not_mem (h : a ∉ l) :
    (l ++ [a]).eraseDups = l.eraseDups ++ [a] := by
  simp [List.eraseDups_append, List.removeAll, h, List.eraseDups_cons]

end Dups

theorem SymbolTable.Lists.resolve_eq_none {t : SymbolTable} {l : List Entry} {name : String}
    (h : t.Lists l) : t.resolve name = none ↔ name ∉ l.map Prod.fst := by
  rw [h.resolve, List.lookup_eq_none_iff]
  simp only [List.mem_map, not_exists, not_and, bne_iff_ne, ne_eq]
  exact ⟨fun hn e he heq => hn e he heq.symm, fun hn e he heq => hn e he heq.symm⟩

/-- Once some literals were read, the pool lists their symbols in the order in which they first
came. -/
theorem SymbolTable.exists_lists_pool (scope : String) {ls : List Node}
    (hsome : ∀ n ∈ ls, ∃ id, n.symbol = some id)
    (hkey : ∀ m ∈ ls, ∀ n ∈ ls, m.symbol = n.symbol ↔ m.poolKey = n.poolKey) :
    ∃ l, (ls.foldl pool (.empty scope)).Lists l ∧
      l.map Prod.fst = (ls.map Node.poolKey).eraseDups ∧
      l.map Prod.snd = (ls.filterMap Node.symbol).eraseDups := by
  induction ls using List.reverseRecOn with
  | nil => exact ⟨[], lists_empty scope, rfl, rfl⟩
  | append_singleton ls n ih =>
    obtain ⟨l, hl, hkeys, hids⟩ := ih (fun m hm => hsome m (by simp [hm]))
      fun m hm m' hm' => hkey m (by simp [hm]) m' (by simp [hm'])
    obtain ⟨id, hid⟩ := hsome n (by simp)
    have hmem : id ∈ ls.filterMap Node.symbol ↔ n.poolKey ∈ ls.map Node.poolKey := by
      rw [List.mem_filterMap, List.mem_map]
      refine exists_congr fun m => and_congr_right fun hm => ?_
      rw [← hid]
      exact hkey m (by simp [hm]) n (by simp)
    have hids' : (ls ++ [n]).filterMap Node.symbol = ls.filterMap Node.symbol ++ [id] := by
      simp [hid]
    rw [List.foldl_append, List.foldl_cons, List.foldl_nil, pool, hid, Option.elim_some, insertNew,
      List.map_append, List.map_singleton, hids']
    by_cases hold : n.poolKey ∈ ls.map Node.poolKey
    · rw [eraseDups_concat_of_mem hold, eraseDups_concat_of_mem (hmem.2 hold)]
      refine ⟨l, ?_, hkeys, hids⟩
      rwa [if_pos]
      rw [← Option.ne_none_iff_isSome, ne_eq, hl.resolve_eq_none, hkeys, List.mem_eraseDups]
      exact not_not_intro hold
    · have hnone := hl.resolve_eq_none.2 (by rwa [hkeys, List.mem_eraseDups])
      rw [eraseDups_concat_of_not_mem hold, eraseDups_concat_of_not_mem (mt hmem.1 hold),
        if_neg (by rw [hnone]; simp)]
      exact ⟨_, hl.insert hnone, by simp [hkeys], by simp [hids]⟩

/-! ## Reading and generating -/

/-- The literals of a source, up to where its parser stops. -/
def literalsOf (source : String) : List Literal :=
  (TokenStream.ofSource (tokensOf source)).literals
    (stopIndex [] (.ofSource (tokensOf source)) .empty)

/-- The literals of a tree are those of the tokens that it was read from, and the pool has got them
one after the other. -/
theorem parseSource_literals {source : String} {root : Node}
    (h : (parseSource source .empty).root = some root) :
    literalsOf source = root.literals.map Node.literal ∧
      (parseSource source .empty).scopes.constants =
        root.literals.foldl SymbolTable.pool (.empty Scopes.poolName) := by
  have hrun := Parser.at_program ⟨.ofSource (tokensOf source), .empty, #[], #[], none, 0⟩
  unfold parseSource at h ⊢
  rw [parse_eq_parseOnto] at h ⊢
  unfold literalsOf parseOnto stopIndex at *
  cases hr : runOnto [] (.ofSource (tokensOf source)) .empty with
  | ok tree s =>
    rw [hr] at h
    cases h
    obtain ⟨s₁, hs, rfl⟩ := wp_of_ok hrun hr
    refine ⟨hs.literals, hs.pool.trans ?_⟩
    show root.literals.foldl SymbolTable.pool (Scopes.create _ _).constants = _
    rw [Scopes.create_constants]
    rfl
  | error e s =>
    rw [hr] at h
    cases h

/-- What becomes of the literals of a source whose tree is `root` and whose scopes are `s`. -/
structure Interned (source : String) (root : Node) (s : Scopes) : Prop where
  /-- The literals of the tree, from left to right, are those of the source. -/
  source : literalsOf source = root.literals.map Node.literal
  same : ∀ m ∈ root.literals, ∀ n ∈ root.literals, m.symbol = n.symbol ↔ m.literal = n.literal
  value : ∀ n ∈ root.literals, ∃ id sym, n.symbol = some id ∧ s.symbol? id = some sym ∧
    sym.Carries n.literal
  /-- The pool lists the symbols in the order in which the literals first come, each once. -/
  pool : s.constants.symbols = (root.literals.filterMap Node.symbol).eraseDups
  once : s.constants.symbols.Nodup
  /-- The code gets the literals of the pool in the same order. -/
  code : ∀ code, (generate root s).code = .ok code →
    code.integers.toList = s.literalsWith Symbol.Attribute.integer? ∧
    code.reals.toList = s.literalsWith Symbol.Attribute.real? ∧
    code.strings.toList = s.literalsWith Symbol.Attribute.string?

theorem Outline.Valid.code_literals {o : Outline} {s : Scopes} {code : Code} (h : o.Valid s)
    (hg : (generate o.root s).code = .ok code) :
    code.integers.toList = s.literalsWith Symbol.Attribute.integer? ∧
    code.reals.toList = s.literalsWith Symbol.Attribute.real? ∧
    code.strings.toList = s.literalsWith Symbol.Attribute.string? := by
  rcases h.generate_cases with ⟨code', hg', -, hl, -⟩ | ⟨d, hg', -⟩
  · cases hg.symm.trans hg'
    simp only [Code.literals, Prod.mk.injEq] at hl
    rw [hl.1, hl.2.1, hl.2.2]
    exact ⟨Emitter.integers_withLiterals h.scopes, Emitter.reals_withLiterals h.scopes,
      Emitter.strings_withLiterals h.scopes⟩
  · cases hg.symm.trans hg'

theorem parseSource_interned {source : String} {root : Node}
    (h : (parseSource source .empty).root = some root) :
    Interned source root (parseSource source .empty).scopes := by
  obtain ⟨hsource, hpool⟩ := parseSource_literals h
  obtain ⟨o, rfl, ho⟩ := Parser.parseSource_outline h
  have hall := ho.isPooled
  obtain ⟨l, hl, -, hids⟩ := SymbolTable.exists_lists_pool Scopes.poolName
    (fun n hn => (hall n hn).imp fun id ⟨_, hid, _⟩ => hid)
    fun m hm n hn => (hall m hm).symbol_eq_iff ho.scopes (hall n hn)
  refine ⟨hsource, fun m hm n hn => (hall m hm).same_iff ho.scopes (hall n hn), fun n hn => ?_, ?_,
    ho.scopes.nodup_literals, fun code hg => ho.code_literals hg⟩
  · obtain ⟨id, sym, hid, -, hs, hc⟩ := hall n hn
    exact ⟨id, sym, hid, hs, hc⟩
  · rw [hpool, hl.symbols, hids]

/-- Literals of an accepted source have the same symbol just if they are of the same kind and are
written the same. Their symbols carry the values that are written, and stand in the pool and in the
code in the order of the source. A source with an integer that fits no word is rejected. -/
theorem parse_internsLiterals (source : String) :
    (∀ root, (parseSource source .empty).root = some root →
      Interned source root (parseSource source .empty).scopes) ∧
    ∀ text, ⟨.intLiteral, text⟩ ∈ literalsOf source →
      (∀ n, Text.Denotes text.toList n → ¬ Text.IsWord n) →
      (parseSource source .empty).root = none := by
  refine ⟨fun root h => parseSource_interned h, fun text hmem hrange => ?_⟩
  -- The symbol of a literal of an accepted source carries a value, which fits a word.
  by_contra haccepted
  obtain ⟨root, hroot⟩ := Option.ne_none_iff_exists'.1 haccepted
  have hi := parseSource_interned hroot
  rw [hi.source, List.mem_map] at hmem
  obtain ⟨n, hn, hl⟩ := hmem
  obtain ⟨id, sym, -, -, hc⟩ := hi.value n hn
  rw [hl] at hc
  cases hc with
  | integer hd hw => exact hrange _ hd hw

/-- A program whose literals differ in kind, in sign, or not at all. -/
def literalsSource : String :=
  "CD20 p constants a = 5, b = - 5, c = 5.0 types r is x : int end t is array [5] of r " ++
    "main z : int begin z = a - 5; println \"5\", -5; end CD20 p"

/-- A program with an integer just below those that fit a word. -/
def overflowSource : String :=
  "CD20 p constants a = -9223372036854775809 main z : int begin z = a; end CD20 p"

theorem parse_internsLiterals_signs :
    (∃ root, (parseSource literalsSource .empty).root = some root ∧
      (root.literals.map Node.literal).map Literal.text = ["5", "-5", "5.0", "5", "5", "5", "-5"] ∧
      (parseSource literalsSource .empty).scopes.constants.symbols.length = 4 ∧
      Interned literalsSource root (parseSource literalsSource .empty).scopes) ∧
    ⟨.intLiteral, "-9223372036854775809"⟩ ∈ literalsOf overflowSource ∧
    (∀ n, Text.Denotes "-9223372036854775809".toList n → ¬ Text.IsWord n) ∧
    (parseSource overflowSource .empty).root = none := by
  have haccepted : ((parseSource literalsSource .empty).root.any fun root =>
      (root.literals.map Node.literal).map Literal.text = ["5", "-5", "5.0", "5", "5", "5", "-5"] ∧
      (parseSource literalsSource .empty).scopes.constants.symbols.length = 4) = true := by
    rw [parseSource, tokensOf_chars literalsSource (append_eq_ofList rfl rfl)]
    decide +kernel
  obtain ⟨root, hroot, hshape⟩ := (Option.any_eq_true _ _).1 haccepted
  obtain ⟨htexts, hlength⟩ := of_decide_eq_true hshape
  have hmem : ⟨.intLiteral, "-9223372036854775809"⟩ ∈ literalsOf overflowSource := by
    decide +kernel
  have hrange : ∀ n, Text.Denotes "-9223372036854775809".toList n → ¬ Text.IsWord n := by
    intro n hn
    have hvalue : Text.readInt? "-9223372036854775809".toList = some (-9223372036854775809) := by
      decide +kernel
    cases hvalue.symm.trans (Text.readInt?_eq_some_iff.2 hn)
    decide
  exact ⟨⟨root, hroot, htexts, hlength, (parse_internsLiterals literalsSource).1 root hroot⟩, hmem,
    hrange, (parse_internsLiterals overflowSource).2 _ hmem hrange⟩

end StackCompiler
